import SvelteSyntax.Script.State

namespace SvelteSyntax

inductive SourceType where
  | module
  | script
  deriving DecidableEq, Repr, Inhabited

def SourceType.name : SourceType → String
  | .module => "module"
  | .script => "script"

structure Options where
  sourceType : SourceType := .module
  typescript : Bool := false
  filePath : Option String := none
  deriving DecidableEq, Repr, Inhabited

def Options.isModule (o : Options) : Bool := o.sourceType == .module

/-- The language that scripts and expressions are read in. -/
def Options.dialect (o : Options) : Script.Dialect :=
  { module := o.isModule, typescript := o.typescript }

end SvelteSyntax
