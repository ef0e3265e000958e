import SvelteSyntax.Options.Json

namespace SvelteSyntax.Lint

structure Config where
  parser : Options := {}
  /-- The codes of the warnings that are not reported. -/
  ignore : List String := []
  /-- The extensions of the files to lint, without the dot. -/
  extensions : List String := ["svelte"]
  deriving DecidableEq, Repr, Inhabited

def ignoreOfJson? (j : Json) : Option (List String) := do
  let [ignore] ← Json.record? ["ignore"] j | none
  Json.fieldD? Json.strings? [] ignore

def Config.ofJson? (j : Json) : Option Config := do
  let [parser, warnings, extensions] ←
    Json.record? ["parser", "compilerWarnings", "extensions"] j | none
  let parser ← Json.fieldD? Options.ofJson? {} parser
  let ignore ← Json.fieldD? ignoreOfJson? [] warnings
  let extensions ← Json.fieldD? Json.strings? ["svelte"] extensions
  return { parser, ignore, extensions }

def Config.toJson (c : Config) : Json :=
  .object [("parser", c.parser.toJson),
    ("compilerWarnings", .object [("ignore", .strings c.ignore)]),
    ("extensions", .strings c.extensions)]

def Config.read? (text : List Char) : Option Config := (Json.read? text).bind ofJson?

end SvelteSyntax.Lint
