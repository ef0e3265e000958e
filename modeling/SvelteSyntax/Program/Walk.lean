import SvelteSyntax.Error
import SvelteSyntax.Tree.Keys

namespace SvelteSyntax.Program

structure Parent where
  kind : String
  field : String
  deriving DecidableEq, Repr

/-- The fields around a node, the innermost first. -/
abbrev Ancestry := List Parent

section Walk

variable {m : Type → Type} [Monad m]

def mapNodesM (f : Node → m Node) : Value → m Value
  | .node n => return .node (← f n)
  | .nodes ns => return .nodes (← ns.mapM f)
  | .sparse ns => return .sparse (← ns.mapM fun
      | some n => some <$> f n
      | none => pure none)
  | value => return value

/-- Goes into a field and comes back. -/
def inField {α : Type} (p : Parent) (body : StateT Ancestry m α) : StateT Ancestry m α := do
  modify (p :: ·)
  let a ← body
  modify List.tail
  return a

def walkField (f : Node → StateT Ancestry m Node) (n : Node) (key : String) :
    StateT Ancestry m Node :=
  inField ⟨n.kind, key⟩ do
    match n.get? key with
    | some value => return n.set key (← mapNodesM f value)
    | none => return n

def walkChildren (f : Node → StateT Ancestry m Node) (n : Node) : StateT Ancestry m Node :=
  n.traversalKeys.foldlM (walkField f) n

/-- What a walk finds when it has entered a node. -/
inductive Step where
  /-- The node itself, perhaps with other fields. -/
  | kept (n : Node)
  /-- Another node that takes its place. -/
  | replaced (n : Node)

/-- What is done with a node before and after its children are walked. -/
structure Pass (m : Type → Type) where
  enter : Option Parent → Node → m Step
  leave : Node → m Node

def Pass.visitFrom (pass : Pass m) (again : Node → StateT Ancestry m Node) :
    Nat → Node → StateT Ancestry m Node
  | 0, n => return n
  | depth + 1, n => do
    match ← pass.enter (← get).head? n with
    | .kept n => pass.leave (← walkChildren (pass.visitFrom again depth) n)
    | .replaced n => again n

/-- A replacement inside more others than a walk follows. -/
def refuseNested [MonadExceptOf Error m] (n : Node) : m Node :=
  throw (.inconsistent (.structuralInvariant n.kind n.start "it is nested in too many replacements"))

/-- Walks a tree of at most the given depth. A replacement is walked as well; there may be others
inside it, up to the given level. -/
def Pass.visit [MonadExceptOf Error m] (pass : Pass m) :
    (level : Nat) → (depth : Nat) → Node → StateT Ancestry m Node
  | 0 => pass.visitFrom fun n => refuseNested (m := m) n
  | level + 1 => pass.visitFrom fun n => do
    pass.leave (← walkChildren (pass.visit level n.depth) n)

end Walk

/-- Walks a tree from its root. Every field must have been left again in the end. -/
def Pass.traverse {σ : Type} (pass : Pass (StateT σ (Except Error))) (level depth : Nat) (n : Node) :
    StateT σ (Except Error) Node := do
  let (n, ancestry) ← (pass.visit level depth n).run []
  unless ancestry.isEmpty do throw (.inconsistent (.danglingAncestry ancestry.length))
  return n

end SvelteSyntax.Program
