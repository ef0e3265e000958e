import SvelteSyntax.Lint.Config
import SvelteSyntax.Parse

namespace SvelteSyntax.Lint

open Text

structure Report where
  ruleId : String
  message : String
  line : Nat
  column : Nat
  deriving DecidableEq, Repr, Inhabited

/-- The rule that reports warnings. -/
def warningRule : String := "svelte/compiler-warnings"

def separator : String := ": "

def Report.ofWarning (w : Component.Warning) : Report :=
  { ruleId := warningRule, message := w.code ++ separator ++ w.message, line := w.start.line,
    column := w.start.column }

/-- The reports of the warnings whose codes are not ignored. -/
def relay (ignore : List String) (warnings : List Component.Warning) : List Report :=
  (warnings.filter fun w => !ignore.contains w.code).map Report.ofWarning

def Report.specialize (r : Report) : Report :=
  if r.ruleId ≠ warningRule then r
  else match splitAt? separator.toList r.message.toList with
    | some (code, rest) =>
      { r with
        ruleId := warningRule ++ "/" ++ String.ofList code
        message := String.ofList (rest.drop separator.length) }
    | none => r

def postprocess (reports : List Report) : List Report := reports.map Report.specialize

/-- The reports about a component. -/
def lint (config : Config) (source : List Char) : Except Error (List Report) := do
  let result ← parse config.parser source
  return postprocess (relay config.ignore result.services.warnings)

def Report.toJson (r : Report) : Json :=
  .object [("ruleId", .string r.ruleId), ("message", .string r.message),
    ("line", .natural r.line), ("column", .natural r.column)]

end SvelteSyntax.Lint
