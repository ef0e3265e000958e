import SvelteSyntax.Component.Json
import SvelteSyntax.Parse
import SvelteSyntax.Tree.Json

namespace SvelteSyntax

def nodeJson? (n : Option Node) : Json := .ofOption (n.map Node.toJson)

def Program.Ast.toJson (ast : Program.Ast) : Json :=
  .object <| ast.program.entries ++
    [("tokens", .array (ast.streams.tokens.map Token.toJson)),
     ("comments", .array (ast.streams.comments.map Comment.toJson))]

def Services.toJson (s : Services) : Json :=
  .object [("warnings", .array (s.warnings.map Component.Warning.toJson)),
    ("vars", .array (s.vars.map Component.Variable.toJson)), ("css", nodeJson? s.css),
    ("jsInstance", nodeJson? s.instanceScript), ("jsModule", nodeJson? s.moduleScript)]

end SvelteSyntax
