import SvelteSyntax.Markup.Read
import SvelteSyntax.Program.Embed
import SvelteSyntax.Program.Normalize

namespace SvelteSyntax.Program

open Text Markup Script

/-- A program with all tokens and comments of its source. -/
structure Ast where
  program : Node
  streams : Streams

/-- A program and the elements it was made from. -/
structure Converted where
  ast : Ast
  css : Option Node := none
  instanceScript : Option Node := none
  moduleScript : Option Node := none

/-- The tree that the conversion starts from. -/
def rootOf (template : Template) (size : Nat) : Node :=
  { kind := "TemplateRoot", start := 0, stop := size,
    fields := [("html", .node template.html), ("css", .ofOption template.css),
      ("instance", .ofOption template.instanceScript),
      ("module", .ofOption template.moduleScript)] }

def convert (parser : ScriptParser) (options : Options) (index : LineIndex) (source : List Char)
    (template : Template) : Except Error Converted := do
  let lexemes ← lex index source
  let root := rootOf template index.size
  let (root, named) ← (nameTree { source, index, lexemes } root).run {}
  let (root, embedded) ← (embedTree { source, index, parser } root).run {}
  let (program, output) ←
    (normalizeTree { index, options } root).run { streams := named ++ embedded }
  return { ast := { program, streams := output.streams }, css := output.css,
           instanceScript := output.instanceScript, moduleScript := output.moduleScript }

end SvelteSyntax.Program
