import SvelteSyntax.Error
import SvelteSyntax.Options
import SvelteSyntax.Script.Builder
import SvelteSyntax.Script.Token

namespace SvelteSyntax.Script

open Text

def ScriptError.toError (index : LineIndex) (e : ScriptError) : Error :=
  .at index e.offset e.message .script

structure ParsedExpression where
  expression : Node
  streams : Streams

structure ParsedProgram where
  program : Node
  streams : Streams

/-- A parser of scripts. -/
structure ScriptParser where
  /-- The expression between two offsets, or the pattern if it is to be assignable. -/
  expressionAt : (source : List Char) → (start stop : Nat) → (assignable : Bool) →
    Except ScriptError ParsedExpression
  programAt : (source : List Char) → (start stop : Nat) → Except ScriptError ParsedProgram

/-- The part of the source between two offsets. -/
def sliceAt (source : List Char) (start stop : Nat) : Except ScriptError (List Char) :=
  match slice? start stop source with
  | some text => .ok text
  | none => .error ⟨"Expression range is outside the source", start⟩

/-- What is said about a text that the parser refuses. -/
def refusal : String := "Unexpected token"

/-- What stands before a text that is read as the parameter of an arrow function. -/
def patternPrefix : List Char := ['(']

/-- The rest of the function. -/
def patternSuffix : List Char := ") => 0".toList

variable (js : Frontend) (options : Options)

/-- The text as the only parameter of a function. -/
def readPattern (start : Nat) (text : List Char) : Except String Node :=
  let wrapped := patternPrefix ++ text ++ patternSuffix
  match js.expression? options.dialect wrapped with
  | none => .error refusal
  | some x =>
    match x.params? with
    | none => .error "Expected a binding pattern"
    | some [param] => .ok (Builder.build ⟨wrapped, start - byteLength patternPrefix⟩ param)
    | some _ => .error "Expected a single binding pattern"

def readExpression (start : Nat) (text : List Char) : Except String Node :=
  match js.expression? options.dialect text with
  | none => .error refusal
  | some x => .ok (Builder.expression ⟨text, start⟩ x)

def expressionAt (source : List Char) (start stop : Nat) (assignable : Bool) :
    Except ScriptError ParsedExpression := do
  let text ← sliceAt source start stop
  if text.all isBlank then throw ⟨"Expected an expression", start⟩
  let streams ← tokenize start text
  let read := if assignable then readPattern js options start text else readExpression js options start text
  match read with
  | .ok expression => return { expression, streams }
  | .error message => throw ⟨message, start⟩

def programAt (source : List Char) (start stop : Nat) : Except ScriptError ParsedProgram := do
  let text ← sliceAt source start stop
  let some p := js.program? options.dialect text | throw ⟨refusal, start⟩
  let streams ← tokenize start text
  return { program := Builder.program ⟨text, start⟩ p start stop options.sourceType.name, streams }

/-- The parser of scripts for the chosen language. -/
def Frontend.parser : ScriptParser where
  expressionAt := expressionAt js options
  programAt := programAt js options

end SvelteSyntax.Script
