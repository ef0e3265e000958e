import SvelteSyntax.Component.Warning
import SvelteSyntax.Json

namespace SvelteSyntax.Component

def Place.toJson (p : Place) : Json :=
  .object [("line", .natural p.line), ("column", .natural p.column), ("character", .natural p.offset)]

def Warning.toJson (w : Warning) : Json :=
  .object [("code", .string w.code), ("message", .string w.message), ("start", w.start.toJson),
    ("end", w.stop.toJson)]

def Variable.toJson (v : Variable) : Json :=
  .object [("name", .string v.name), ("export_name", .ofOption (v.exportName.map .string)),
    ("injected", .bool v.injected), ("module", .bool v.module), ("mutated", .bool v.mutated),
    ("reassigned", .bool v.reassigned), ("referenced", .bool v.referenced),
    ("referenced_from_script", .bool v.referencedFromScript), ("writable", .bool v.writable)]

end SvelteSyntax.Component
