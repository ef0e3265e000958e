import SvelteSyntax.Number.Double
import SvelteSyntax.Text.Position
import SvelteSyntax.Tree.Fields

namespace SvelteSyntax

mutual

/-- What a field of a node holds. -/
inductive Value where
  | null
  | bool (b : Bool)
  | number (n : Double)
  | string (s : String)
  | strings (ss : List String)
  | node (n : Node)
  | nodes (ns : List Node)
  /-- A list with holes. -/
  | sparse (ns : List (Option Node))
  /-- A plain record that is no node. -/
  | object (entries : List (String × Value))

/-- A placeholder only records the kind and span of a construct that is still to be parsed; a
visited node has its final location. -/
structure Node where
  kind : String
  start : Nat
  stop : Nat
  loc : Option Text.Location := none
  fields : List (String × Value) := []
  placeholder : Bool := false
  visited : Bool := false

end

instance : Inhabited Value := ⟨.null⟩
instance : Inhabited Node := ⟨{ kind := "", start := 0, stop := 0 }⟩

instance : Coe Node Value := ⟨.node⟩
instance : Coe (List Node) Value := ⟨.nodes⟩
instance : Coe String Value := ⟨.string⟩
instance : Coe Bool Value := ⟨.bool⟩

namespace Value

def ofOption : Option Node → Value
  | some n => .node n
  | none => .null

instance : Coe (Option Node) Value := ⟨ofOption⟩

/-- A list whose holes are kept only if there are any. -/
def ofSparse (ns : List (Option Node)) : Value :=
  if ns.all Option.isSome then .nodes (ns.filterMap id) else .sparse ns

def toNode? : Value → Option Node
  | .node n => some n
  | _ => none

def toString? : Value → Option String
  | .string s => some s
  | _ => none

def isNull : Value → Bool
  | .null => true
  | _ => false

def toNodes : Value → List Node
  | .node n => [n]
  | .nodes ns => ns
  | .sparse ns => ns.filterMap id
  | _ => []

def holdsNodes : Value → Bool
  | .node _ | .nodes _ | .sparse _ => true
  | _ => false

end Value

mutual

/-- The number of levels of a tree. -/
def Node.depth : Node → Nat
  | { fields, .. } => Node.depthOfFields fields + 1

def Node.depthOfFields : List (String × Value) → Nat
  | [] => 0
  | (_, v) :: fs => max v.depth (Node.depthOfFields fs)

def Value.depth : Value → Nat
  | .node n => n.depth
  | .nodes ns => Node.depthOfList ns
  | .sparse ns => Node.depthOfSparse ns
  | .object es => Node.depthOfFields es
  | .null | .bool _ | .number _ | .string _ | .strings _ => 0

def Node.depthOfList : List Node → Nat
  | [] => 0
  | n :: ns => max n.depth (Node.depthOfList ns)

def Node.depthOfSparse : List (Option Node) → Nat
  | [] => 0
  | none :: ns => Node.depthOfSparse ns
  | some n :: ns => max n.depth (Node.depthOfSparse ns)

end

namespace Node

def new (kind : String) (start stop : Nat) : Node := { kind, start, stop }

def pending (kind : String) (start stop : Nat) : Node := { kind, start, stop, placeholder := true }

def is (n : Node) (kind : String) : Bool := n.kind == kind

def get? (n : Node) (key : String) : Option Value := Fields.get? key n.fields

def has (n : Node) (key : String) : Bool := (n.get? key).isSome

def set (n : Node) (key : String) (value : Value) : Node :=
  { n with fields := Fields.set key value n.fields }

def erase (n : Node) (key : String) : Node := { n with fields := Fields.erase key n.fields }

def rename (n : Node) (old new : String) : Node :=
  { n with fields := Fields.rename old new n.fields }

def fieldNames (n : Node) : List String := Fields.names n.fields

def child? (n : Node) (key : String) : Option Node := (n.get? key).bind Value.toNode?

/-- The list of nodes in a field, or no nodes if the field holds no plain list. -/
def children (n : Node) (key : String) : List Node :=
  match n.get? key with
  | some (.nodes ns) => ns
  | _ => []

def nodesAt (n : Node) (key : String) : List Node :=
  ((n.get? key).map Value.toNodes).getD []

def string? (n : Node) (key : String) : Option String := (n.get? key).bind Value.toString?

/-- Whether the field holds `true`. -/
def flag (n : Node) (key : String) : Bool :=
  match n.get? key with
  | some (.bool b) => b
  | _ => false

/-- Takes a node out of a field. A field that holds something else moves to the end. -/
def take (n : Node) (key : String) : Option Node × Node :=
  match n.get? key with
  | some (.node c) => (some c, n.erase key)
  | some v => (none, (n.erase key).set key v)
  | none => (none, n)

/-- Changes the node in a field, if the field holds one. -/
def modifyChild? (n : Node) (key : String) (f : Node → Node) : Option Node :=
  (n.child? key).map fun c => n.set key (.node (f c))

/-- Adds a node to the plain list in a field, if the field holds one. -/
def pushChild? (n : Node) (key : String) (c : Node) : Option Node :=
  match n.get? key with
  | some (.nodes ns) => some (n.set key (.nodes (ns ++ [c])))
  | _ => none

/-- The source text under the node; empty if its span is none of the text. -/
def text (n : Node) (source : List Char) : List Char :=
  (Text.slice? n.start n.stop source).getD []

/-- The name of an identifier. -/
def identifier? (n : Node) : Option String := if n.is "Identifier" then n.string? "name" else none

/-- The identifiers a pattern of at most the given depth binds, from left to right. Defaults and
keys are not entered. -/
def boundWithin : Nat → Node → List Node
  | 0, _ => []
  | depth + 1, n =>
    match n.kind with
    | "Identifier" => [n]
    | "ObjectPattern" => (n.children "properties").flatMap fun property =>
      ((property.child? (if property.is "RestElement" then "argument" else "value")).map
        (boundWithin depth)).getD []
    | "ArrayPattern" => (n.nodesAt "elements").flatMap (boundWithin depth)
    | "AssignmentPattern" => ((n.child? "left").map (boundWithin depth)).getD []
    | "RestElement" => ((n.child? "argument").map (boundWithin depth)).getD []
    | _ => []

/-- The identifiers bound by the node as a pattern. -/
def boundIdentifiers (n : Node) : List Node := boundWithin n.depth n

def evaluatedWithin : Nat → Node → List Node
  | 0, _ => []
  | depth + 1, n =>
    match n.kind with
    | "ObjectPattern" => (n.children "properties").flatMap fun property =>
      (if property.flag "computed" then (property.child? "key").toList else []) ++
        (((property.child? "value").or (property.child? "argument")).map
          (evaluatedWithin depth)).getD []
    | "ArrayPattern" => (n.nodesAt "elements").flatMap (evaluatedWithin depth)
    | "AssignmentPattern" =>
      ((n.child? "left").map (evaluatedWithin depth)).getD [] ++ (n.child? "right").toList
    | "RestElement" => ((n.child? "argument").map (evaluatedWithin depth)).getD []
    | "MemberExpression" => [n]
    | _ => []

/-- The expressions that the node as a pattern evaluates, from left to right: defaults, computed keys
and the members it assigns to. -/
def evaluatedExpressions (n : Node) : List Node := evaluatedWithin n.depth n

end Node

end SvelteSyntax
