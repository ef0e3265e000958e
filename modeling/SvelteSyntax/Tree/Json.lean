import SvelteSyntax.Json
import SvelteSyntax.Tree.Node
import SvelteSyntax.Tree.Token

namespace SvelteSyntax

open Text

def Text.Position.toJson (p : Position) : Json :=
  .object [("line", .natural p.line), ("column", .natural p.column)]

def Text.Location.toJson (l : Location) : Json :=
  .object [("start", l.start.toJson), ("end", l.stop.toJson)]

def rangeJson (start stop : Nat) : Json := .array [.natural start, .natural stop]

def locEntry : Option Location → List (String × Json)
  | some l => [("loc", l.toJson)]
  | none => []

def Node.headEntries (kind : String) (start stop : Nat) (loc : Option Location) :
    List (String × Json) :=
  [("type", .string kind), ("start", .natural start), ("end", .natural stop),
   ("range", rangeJson start stop)] ++ locEntry loc

mutual

def Node.entries : Node → List (String × Json)
  | { kind, start, stop, loc, fields, .. } =>
    Node.headEntries kind start stop loc ++ Node.fieldEntries fields

def Node.fieldEntries : List (String × Value) → List (String × Json)
  | [] => []
  | (k, v) :: fs => (k, v.toJson) :: Node.fieldEntries fs

def Value.toJson : Value → Json
  | .null => .null
  | .bool b => .bool b
  | .number d => .ofDouble d
  | .string s => .string s
  | .strings ss => .strings ss
  | .node n => .object n.entries
  | .nodes ns => .array (Node.listJson ns)
  | .sparse ns => .array (Node.sparseJson ns)
  | .object es => .object (Node.fieldEntries es)

def Node.listJson : List Node → List Json
  | [] => []
  | n :: ns => .object n.entries :: Node.listJson ns

def Node.sparseJson : List (Option Node) → List Json
  | [] => []
  | none :: ns => .null :: Node.sparseJson ns
  | some n :: ns => .object n.entries :: Node.sparseJson ns

end

def Node.toJson (n : Node) : Json := .object n.entries

def spannedJson (kind value : String) (start stop : Nat) (loc : Option Location) : Json :=
  .object <| [("type", .string kind), ("value", .string value), ("start", .natural start),
    ("end", .natural stop), ("range", rangeJson start stop)] ++ locEntry loc

def Token.toJson (t : Token) : Json := spannedJson t.kind.name t.value t.start t.stop t.loc

def Comment.toJson (c : Comment) : Json := spannedJson c.kind.name c.value c.start c.stop c.loc

end SvelteSyntax
