import SvelteSyntax.Number.Double

namespace SvelteSyntax

inductive Json where
  | null
  | bool (b : Bool)
  | number (d : Double)
  | string (s : String)
  | array (items : List Json)
  | object (entries : List (String × Json))
  /-- A string with half of a surrogate pair in it, which stands for no text. -/
  | brokenString
  deriving Inhabited

namespace Json

def natural (n : Nat) : Json := .number (.ofNat n)

def ofDouble (d : Double) : Json := if d.isFinite then .number d else .null

def ofOption : Option Json → Json
  | some j => j
  | none => .null

def strings (ss : List String) : Json := .array (ss.map .string)

end Json

end SvelteSyntax
