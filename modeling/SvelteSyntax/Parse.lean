import SvelteSyntax.Component.Compile
import SvelteSyntax.Program.Convert
import SvelteSyntax.Scoping.Analysis
import SvelteSyntax.Scoping.Reconcile

namespace SvelteSyntax

open Text

/-- What there is to know about a component besides its program. -/
structure Services where
  warnings : List Component.Warning := []
  vars : List Component.Variable := []
  css : Option Node := none
  instanceScript : Option Node := none
  moduleScript : Option Node := none

structure ParseResult where
  ast : Program.Ast
  services : Services
  graph : Scoping.Graph

/-- Compiles a component. If it is refused, what the lexer refuses comes first: it points at a
character and not at an element. -/
def compileFirst (compiler : Component.Compiler) (index : LineIndex) (source : List Char) :
    Except Error Component.Compiled :=
  match compiler source with
  | .ok compiled => .ok compiled
  | .error e => do
    let _ ← Markup.lex index source
    throw e

def parseWith (compiler : Component.Compiler) (parser : Script.ScriptParser) (options : Options)
    (source : List Char) : Except Error ParseResult := do
  let index := LineIndex.ofText source
  let compiled ← compileFirst compiler index source
  let converted ← Program.convert parser options index source compiled.template
  let graph ← (Scoping.analyze options converted.ast.program).mapError Error.inconsistent
  let graph ← (graph.applyVariables compiled.vars).mapError Error.inconsistent
  return {
    ast := converted.ast
    services :=
      { warnings := compiled.warnings, vars := compiled.vars, css := converted.css,
        instanceScript := converted.instanceScript, moduleScript := converted.moduleScript }
    graph }

def parse (options : Options) (source : List Char) : Except Error ParseResult :=
  parseWith (Component.compile options) (Script.parser options) options source

end SvelteSyntax
