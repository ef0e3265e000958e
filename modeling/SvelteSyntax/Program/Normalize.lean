import SvelteSyntax.Options
import SvelteSyntax.Program.Disjoint
import SvelteSyntax.Program.Walk

namespace SvelteSyntax.Program

open Text

/-- What a conversion has collected. -/
structure Output where
  streams : Streams := {}
  css : Option Node := none
  instanceScript : Option Node := none
  moduleScript : Option Node := none

structure NormalizeContext where
  index : LineIndex
  options : Options

abbrev Normalize := StateT Output (Except Error)

def checked {α : Type} (result : Except Fault α) : Normalize α :=
  monadLift (result.mapError Error.inconsistent)

/-- The two fields that a shorthand has only one text for. -/
def shorthandFields? : String → Option (String × String)
  | "Property" => some ("key", "value")
  | "ImportSpecifier" => some ("imported", "local")
  | _ => none

/-- Whether two nodes are of one kind and at one place. -/
def sameNode (a b : Node) : Bool := a.kind == b.kind && a.start == b.start && a.stop == b.stop

/-- Leaves one half of a shorthand, so that it is walked once. -/
def dropShorthand (n : Node) : Node :=
  match shorthandFields? n.kind with
  | none => n
  | some (first, second) =>
    match n.child? first, n.child? second with
    | some a, some b => if sameNode a b then n.erase second else n
    | _, _ => n

/-- Gives a shorthand its second half back. -/
def restoreShorthand (n : Node) : Node :=
  match shorthandFields? n.kind with
  | none => n
  | some (first, second) =>
    if n.has second then n
    else match n.child? first with
      | some a => n.set second (.node a)
      | none => n

def relabelField (kind : String) (n : Node) (field : String) : Node :=
  (n.modifyChild? field ({ · with kind })).getD n

def relabelSections (n : Node) : Node :=
  if n.is "TemplateRoot" then
    ["instance", "module"].foldl (relabelField "ScriptElement")
      (relabelField "StyleElement" n "css")
  else n

def statementsOf (script : Node) : List Node :=
  ((script.child? "content").map (·.children "body")).getD []

def locatedTokens (index : LineIndex) (tokens : List Token) : Except Fault (List Token) := do
  (← sortDisjoint "token" tokens).mapM fun t => do
    return { t with loc := some (← locateSpan index t.start t.stop) }

def locatedComments (index : LineIndex) (comments : List Comment) :
    Except Fault (List Comment) := do
  (← sortDisjoint "comment" comments).mapM fun c => do
    return { c with loc := some (← locateSpan index c.start c.stop) }

def finishRoot (ctx : NormalizeContext) (n : Node) : Normalize Node := do
  let some html := n.child? "html"
    | throw (.inconsistent (.structuralInvariant n.kind n.start
        "template root without a markup fragment"))
  let css := n.child? "css"
  let instanceScript := n.child? "instance"
  let moduleScript := n.child? "module"
  let program := (({ html with kind := "Program" }).rename "children" "body").set "sourceType"
    (.string ctx.options.sourceType.name)
  let scripts := instanceScript.toList ++ moduleScript.toList
  let body ← checked
    (sortDisjoint "statement" (program.children "body" ++ scripts.flatMap statementsOf))
  let program := (program.erase "body").set "body" (.nodes body)
  let streams := (← get).streams
  let tokens ← checked (locatedTokens ctx.index streams.tokens)
  let comments ← checked (locatedComments ctx.index streams.comments)
  let start := (tokens.head?.map (·.start)).getD 0
  let stop := (tokens.getLast?.map (·.stop)).getD ctx.index.size
  let loc ← checked (locateSpan ctx.index start stop)
  set { streams := ⟨tokens, comments⟩, css, instanceScript, moduleScript : Output }
  return { program with start, stop, loc := some loc }

/-- Marks a node; no node is walked twice. -/
def enterNode (n : Node) : Normalize Node := do
  if n.visited then throw (.inconsistent (.duplicateTraversal n.kind n.start))
  return dropShorthand (relabelSections { n with visited := true })

def leaveNode (ctx : NormalizeContext) (n : Node) : Normalize Node := do
  if n.is "TemplateRoot" then finishRoot ctx n
  else
    let loc ← checked (locateSpan ctx.index n.start n.stop)
    return { restoreShorthand n with loc := some loc }

def normalizePass (ctx : NormalizeContext) : Pass Normalize where
  enter _ n := Step.kept <$> enterNode n
  leave := leaveNode ctx

def normalizeTree (ctx : NormalizeContext) (n : Node) : Normalize Node :=
  (normalizePass ctx).traverse 0 n.depth n

end SvelteSyntax.Program
