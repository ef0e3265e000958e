import SvelteSyntax.Markup.Read

namespace SvelteSyntax.Component

open Markup

structure Variable where
  name : String
  exportName : Option String := none
  /-- No script declares it. -/
  injected : Bool := false
  /-- It belongs to the module script. -/
  module : Bool := false
  mutated : Bool := false
  reassigned : Bool := false
  /-- The template reads it. -/
  referenced : Bool := false
  referencedFromScript : Bool := false
  writable : Bool := false
  deriving DecidableEq, Repr, Inhabited

/-- The variables in the order of their declaration, with the places of the declared ones. -/
structure Table where
  vars : List Variable := []
  declarations : List (String × Span) := []
  deriving Repr, Inhabited

namespace Table

def has (t : Table) (name : String) : Bool := t.vars.any (·.name == name)

def declare (t : Table) (v : Variable) (span : Span) : Table :=
  if t.has v.name then t
  else { vars := t.vars ++ [v], declarations := t.declarations ++ [(v.name, span)] }

/-- Adds a variable that no script declares, unless there is one of the name. -/
def inject (t : Table) (name : String) : Table :=
  if t.has name then t
  else { t with vars := t.vars ++ [{ name, injected := true, writable := true }] }

def update (t : Table) (name : String) (f : Variable → Variable) : Table :=
  { t with vars := t.vars.map fun v => if v.name == name then f v else v }

def declaration? (t : Table) (name : String) : Option Span := t.declarations.lookup name

end Table

def storeName? (name : String) : Option String :=
  match name.toList with
  | '$' :: c :: cs => if c = '$' then none else some (String.ofList (c :: cs))
  | _ => none

/-- Adds the subscription that a name stands for if its store is known. -/
def Table.subscribe (t : Table) (name : String) : Table :=
  match storeName? name with
  | some store => if t.has store then t.inject name else t
  | none => t

end SvelteSyntax.Component
