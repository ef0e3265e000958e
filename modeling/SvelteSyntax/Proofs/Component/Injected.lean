import SvelteSyntax.Proofs.Component.Declared

namespace SvelteSyntax.Component

open Markup Run Script Text

/-- The names that the scripts declare at their top level. -/
def declaredNames (scripts : List ScriptFacts) : List String :=
  ((scripts.flatMap ScriptFacts.statements).flatMap declaredAt).map (·.name)

variable {x store : String} {scripts : List ScriptFacts}

/-- Adds a name to a listing that does not have it. -/
def enter (b : Bool) (l : List (String × Bool)) (x : String) : List (String × Bool) :=
  if x ∈ l.map Prod.fst then l else l ++ [(x, b)]

section Listing

variable {l : List (String × Bool)} {x y : String} {b b' : Bool}

end Listing

section Tables

variable {t : Table} {name : String}

end Tables

section Template

variable {js : Frontend} {options : Options} {source : List Char} {sites : Sites} {r r' : TemplateReads}

end Template

end SvelteSyntax.Component
