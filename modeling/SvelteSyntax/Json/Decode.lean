import SvelteSyntax.Json

namespace SvelteSyntax.Json

def bool? : Json → Option Bool
  | .bool b => some b
  | _ => none

def string? : Json → Option String
  | .string s => some s
  | _ => none

def strings? : Json → Option (List String)
  | .array items => items.mapM string?
  | _ => none

/-- A value that may be null. -/
def nullable? {α : Type} (decode : Json → Option α) : Json → Option (Option α)
  | .null => some none
  | j => (decode j).map some

/-- The values of the named fields, in that order. Every field is given at most once. -/
def record? (names : List String) : Json → Option (List (Option Json))
  | .object entries =>
    names.mapM fun name =>
      match entries.filter (·.1 == name) with
      | [] => some none
      | [(_, value)] => some (some value)
      | _ => none
  | .array items =>
    if items.length ≤ names.length then
      some (items.map some ++ List.replicate (names.length - items.length) none)
    else none
  | _ => none

def fieldD? {α : Type} (decode : Json → Option α) (value : α) : Option Json → Option α
  | some j => decode j
  | none => some value

def choice? {α : Type} (choices : List (String × α)) : Json → Option α
  | .string name => choices.lookup name
  | .object [(name, .null)] => choices.lookup name
  | _ => none

end SvelteSyntax.Json
