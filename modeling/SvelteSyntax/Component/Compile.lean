import SvelteSyntax.Component.Warning
import SvelteSyntax.Script.Grammar

namespace SvelteSyntax.Component

open Text Markup

structure Compiled where
  template : Template
  warnings : List Warning := []
  vars : List Variable := []

/-- Something that compiles a component. -/
abbrev Compiler := List Char → Except Error Compiled

def compileWith (js : Script.Frontend) (options : Options) : Compiler := fun source => do
  let index := LineIndex.ofText source
  let refused {α : Type} : Except CompileError α → Except Error α :=
    Except.mapError (CompileError.toError index)
  let parsed ← refused (Markup.parse (js.parser options) source)
  let analysis ← refused (analyze js options source parsed)
  let warnings ← (warnings index parsed.template analysis).mapError Error.inconsistent
  return { template := parsed.template, warnings, vars := analysis.table.vars }

def compile (options : Options) : Compiler := compileWith Script.javascript options

end SvelteSyntax.Component
