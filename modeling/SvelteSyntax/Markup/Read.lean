import SvelteSyntax.Markup.Balanced
import SvelteSyntax.Script.Parser
import SvelteSyntax.Text.Cursor
import SvelteSyntax.Text.Span

namespace SvelteSyntax.Markup

open Text Script

/-- The sections of a component. -/
structure Template where
  html : Node
  css : Option Node := none
  instanceScript : Option Node := none
  moduleScript : Option Node := none

structure Sites where
  expressions : List Span := []
  /-- What `bind:` writes to. -/
  bindings : List Span := []
  declared : List (String × Nat) := []
  deriving DecidableEq, Repr, Inhabited

/-- How rules look at a text. They scan it from a place on, and they move past what they have seen. -/
class Access where
  /-- What a scan finds at the start of a text. -/
  take : (scan : List Char → List Char) → (text : List Char) → Option (List Char)
  /-- The place after so many bytes, which are so many characters. -/
  move : (bytes chars : Nat) → Cursor → Option Cursor

/-- Scans go from character to character. -/
instance byCharacters : Access where
  take scan text := some (scan text)
  move _ chars c := some (c.skip chars)

/-- What is being read. -/
structure Input where
  source : List Char
  parser : ScriptParser

structure Progress where
  cursor : Cursor
  css : Option Node := none
  instanceScript : Option Node := none
  moduleScript : Option Node := none
  sites : Sites := {}

/-- A rule of the markup grammar. -/
abbrev Read := ReaderT Input (StateT Progress (Except CompileError))

def refuse {α : Type} (code message : String) (offset : Nat) : Read α :=
  throw { code, message, offset }

def cursor : Read Cursor := return (← get).cursor

def here : Read Nat := return (← cursor).offset

def peek? : Read (Option Char) := return (← cursor).peek?

def moveTo (cursor : Cursor) : Read Unit := modify ({ · with cursor })

/-- What a rule does that would cut a text inside a character or behind its end. No rule comes to that:
no text has such an offset. -/
def torn {α : Type} : Read α := do
  refuse "torn" "No such place" (byteLength (← read).source + 1)

def within [Access] (scan : List Char → List Char) (text : List Char) : Read (List Char) :=
  match Access.take scan text with
  | some taken => return taken
  | none => torn

def ahead [Access] (scan : List Char → List Char) : Read (List Char) := do
  within scan (← cursor).rest

def move [Access] (bytes chars : Nat) : Read Unit := do
  match Access.move bytes chars (← cursor) with
  | some after => moveTo after
  | none => torn

/-- Moves past `n` marks of one byte. -/
def skip [Access] (n : Nat) : Read Unit := move n n

/-- Moves past a text and `n` marks of one byte. -/
def pass [Access] (text : List Char) (n : Nat) : Read Unit :=
  move (byteLength text + n) (text.length + n)

def readWhile [Access] (p : Char → Bool) : Read (List Char) := do
  let taken ← ahead (·.takeWhile p)
  pass taken 0
  return taken

def skipBlanks [Access] : Read Unit := do
  let blanks ← ahead (·.takeWhile isMarkupBlank)
  pass blanks 0

def atText (text : String) : Read Bool := return startsWith text.toList (← cursor).rest

/-- Moves past the text if it is here. -/
def eat [Access] (text : String) : Read Bool := do
  if ← atText text then move (byteLength text.toList) text.length; return true else return false

def expect [Access] (text : String) : Read Unit := do
  unless ← eat text do
    let c ← cursor
    if c.atEnd then refuse "unexpected-eof" "Unexpected end of input" c.offset
    else refuse "unexpected-token" ("Expected " ++ text) c.offset

/-- The letters at the start of a text. -/
def wordIn [Access] (text : List Char) : Read String :=
  return String.ofList (← within (·.takeWhile isAsciiLetter) text)

/-- The text up to its first `close`, and moves there. -/
def readUpTo? [Access] (close : String) : Read (Option (List Char)) := do
  match splitAt? close.toList (← cursor).rest with
  | none => return none
  | some (before, _) => pass before 0; return some before

def scriptUpTo [Access] (stop : Balanced.Stop) : Read (List Char) := do
  ahead (Balanced.takeUntil stop (← cursor).prev)

/-- What a rule does that has no rounds left. No rule comes to that: no text has such an offset. -/
def exhausted {α : Type} : Read α := do
  refuse "exhausted" "No rounds left" (byteLength (← read).source + 1)

def collect {α : Type} (item : Read (Option α)) : Nat → Read (List α)
  | 0 => exhausted
  | fuel + 1 => do
    match ← item with
    | none => return []
    | some a => return a :: (← collect item fuel)

/-- Repeats a rule until it gives nothing. Every round but the last one moves forward. -/
def many {α : Type} (item : Read (Option α)) : Read (List α) := do
  collect item ((← cursor).rest.length + 1)

/-- The text at an offset without the blanks around it, and where that starts. -/
def trimIn [Access] (start : Nat) (text : List Char) : Read (Nat × List Char) := do
  let blanks ← within (·.takeWhile isMarkupBlank) text
  let inner ← within (trim isMarkupBlank) (text.drop blanks.length)
  return (start + byteLength blanks, inner)

def spanOf (start : Nat) (text : List Char) : Span := ⟨start, start + byteLength text⟩

/-- A letter, `_` or `$`, and then such characters and the others of a word. -/
def isName : List Char → Bool
  | [] => false
  | c :: cs => (isAsciiLetter c || c == '_' || c == '$') && cs.all fun c => isWordChar c || c == '$'

def parseSpan (span : Span) (assignable : Bool) : Read Node := do
  if span.start = span.stop then refuse "parse-error" "Expected an expression" span.start
  let input ← read
  match input.parser.expressionAt input.source span.start span.stop assignable with
  | .ok parsed => return parsed.expression
  | .error e => refuse "parse-error" e.message e.offset

def noteExpression (span : Span) : Read Unit :=
  modify fun p => { p with sites := { p.sites with expressions := p.sites.expressions ++ [span] } }

def dropExpression (start : Nat) : Read Unit :=
  modify fun p => { p with
    sites := { p.sites with expressions := p.sites.expressions.filter (·.start ≠ start) } }

def noteBinding (span : Span) : Read Unit :=
  modify fun p => { p with sites := { p.sites with bindings := p.sites.bindings ++ [span] } }

def declare (name : String) (offset : Nat) : Read Unit :=
  modify fun p => { p with
    sites := { p.sites with declared := p.sites.declared ++ [(name, offset)] } }

def expression [Access] (start : Nat) (text : List Char) : Read Node := do
  let (start, text) ← trimIn start text
  let span := spanOf start text
  let parsed ← parseSpan span false
  noteExpression span
  return .pending parsed.kind span.start span.stop

def patternAt (span : Span) : Read Node := do
  let parsed ← parseSpan span true
  for identifier in parsed.boundIdentifiers do
    if let some name := identifier.string? "name" then declare name identifier.start
  return .pending parsed.kind span.start span.stop

def pattern [Access] (start : Nat) (text : List Char) : Read Node := do
  let (start, text) ← trimIn start text
  patternAt (spanOf start text)

/-- What a branch binds: nothing, a name or a pattern. -/
def blockValue [Access] (start : Nat) (text : List Char) : Read Value := do
  let (start, text) ← trimIn start text
  if text.isEmpty then return .null
  if isName text then
    declare (String.ofList text) start
    return .string (String.ofList text)
  return .node (← patternAt (spanOf start text))

def expressionToBrace [Access] : Read Node := do
  let c ← cursor
  let text ← scriptUpTo (Balanced.atAny ['}'])
  if text.length = c.rest.length then refuse "unexpected-eof" "Expected \x7d" c.offset
  let e ← expression c.offset text
  pass text 1
  return e

end SvelteSyntax.Markup
