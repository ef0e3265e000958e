import SvelteSyntax.Json.Decode
import SvelteSyntax.Json.Reader
import SvelteSyntax.Options

namespace SvelteSyntax

def SourceType.choices : List (String × SourceType) := [("module", .module), ("script", .script)]

def Options.ofJson? (j : Json) : Option Options := do
  let [sourceType, typescript, filePath] ←
    Json.record? ["sourceType", "typescript", "filePath"] j | none
  let sourceType ← Json.fieldD? (Json.choice? SourceType.choices) .module sourceType
  let typescript ← Json.fieldD? Json.bool? false typescript
  let filePath ← Json.fieldD? (Json.nullable? Json.string?) none filePath
  return { sourceType, typescript, filePath }

def Options.toJson (o : Options) : Json :=
  .object [("sourceType", .string o.sourceType.name), ("typescript", .bool o.typescript),
    ("filePath", .ofOption (o.filePath.map .string))]

def Options.read? (text : List Char) : Option Options := (Json.read? text).bind ofJson?

end SvelteSyntax
