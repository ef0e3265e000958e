import SvelteSyntax.Script.Lexeme
import SvelteSyntax.Script.Syntax

namespace SvelteSyntax.Script

open Text

/-- What the surrounding construct allows. -/
structure Context where
  /-- `in` is an operator. -/
  inOperator : Bool := true
  yields : Bool := false
  awaits : Bool := false
  returns : Bool := false
  /-- Declarations have no values. -/
  ambient : Bool := false
  /-- A bracket does not continue the expression. -/
  decorator : Bool := false
  /-- `extends` does not continue the type. -/
  plainTypes : Bool := false
  deriving DecidableEq, Repr, Inhabited

structure State where
  token : Lexed
  /-- The text from the start of the token on. -/
  here : List Char
  /-- The text after the token. -/
  after : List Char
  /-- Where the token before ends. -/
  lastStop : Nat
  dialect : Dialect
  context : Context
  faulty : Bool := false
  /-- The initialisers in object literals by the start of their property. They are only right if the
  literal turns out to be a pattern. -/
  initialisers : List (Nat × Syntax) := []
  /-- The starts of the array and object literals that end in a comma. -/
  trailingCommas : List Nat := []

/-- A grammar rule. -/
abbrev Parse := StateT State Option

def currentToken : Parse Lexed := return (← get).token

def currentLexeme : Parse Lexeme := return (← get).token.lexeme

def startHere : Parse Nat := return (← get).token.start

def lastStop : Parse Nat := return (← get).lastStop

def typescript : Parse Bool := return (← get).dialect.typescript

def onNewLine : Parse Bool := return (← get).token.newline

/-- Moves to the next token; fails if there is none. -/
def advance : Parse Unit := do
  let s ← get
  let (token, here, after) := nextToken (!s.dialect.module) false s.token.stop s.after
  if token.lexeme = .invalid then failure
  set { s with token, here, after, lastStop := s.token.stop }

/-- Notes a fault that does not stop the rule. -/
def fault : Parse Unit := modify fun s => { s with faulty := true }

def faultIf (b : Bool) : Parse Unit := if b then fault else pure ()

/-- Fails unless the condition holds. -/
def require (b : Bool) : Parse Unit := if b then pure () else failure

/-- What a rule would give here, without moving. -/
def peek {α : Type} (rule : Parse α) : Parse (Option α) := do
  return (rule (← get)).map Prod.fst

/-- Whether a rule would succeed and say yes. -/
def lookahead (rule : Parse Bool) : Parse Bool := return (← peek rule).getD false

/-- Runs a rule and moves only if it succeeds. -/
def attempt {α : Type} (rule : Parse α) : Parse (Option α) := do
  let s ← get
  match rule s with
  | some (a, s') => set s'; return some a
  | none => return none

def atMark (text : String) : Parse Bool := return (← currentLexeme) == .mark text

def Lexeme.word? : Lexeme → Option String
  | .word name _ => some name
  | _ => none

def Lexeme.isWord (name : String) (l : Lexeme) : Bool := l.word? == some name

def Lexeme.isMark (text : String) (l : Lexeme) : Bool := l == .mark text

def atWord (name : String) : Parse Bool := return (← currentLexeme).isWord name

/-- Moves past a keyword, which must not be spelled with an escape. -/
def advanceWord : Parse Unit := do
  if let .word _ true ← currentLexeme then fault
  advance

def eatMark (text : String) : Parse Bool := do
  if ← atMark text then advance; return true else return false

def eatWord (name : String) : Parse Bool := do
  if ← atWord name then advanceWord; return true else return false

def expectMark (text : String) : Parse Unit := do require (← eatMark text)

def expectWord (name : String) : Parse Unit := do require (← eatWord name)

/-- Whether the token after the current one satisfies the condition. -/
def nextIs (p : Lexed → Bool) : Parse Bool := lookahead do advance; return p (← currentToken)

def nextIsMark (text : String) : Parse Bool := nextIs (·.lexeme.isMark text)

/-- Replaces the current token by another one that starts at the same place. -/
def reread (read : List Char → Option (Lexeme × List Char)) : Parse Unit := do
  let s ← get
  let some (lexeme, after) := read s.here | failure
  require (lexeme ≠ .invalid)
  let raw := s.here.take (s.here.length - after.length)
  set { s with
    token := { s.token with lexeme, raw, stop := s.token.start + byteLength raw }
    after }

def rereadAngle : Parse Unit := do
  if ← atMark ">" then
    reread fun cs => (angleMarks.find? (startsWith · cs)).map fun mark =>
      (.mark (String.ofList mark), cs.drop mark.length)

def rereadOpeningAngle : Parse Unit := do
  if ← atMark "<<" then reread fun cs => some (.mark "<", cs.drop 1)

def canEndStatement : Parse Bool := do
  let t ← currentToken
  return t.newline || t.lexeme == .endOfText || t.lexeme == .mark ";" || t.lexeme == .mark "\x7d"

/-- The end of a statement: a semicolon, or a place where one may be left out. -/
def endStatement : Parse Unit := do
  unless ← eatMark ";" do require (← canEndStatement)

def within {α : Type} (change : Context → Context) (rule : Parse α) : Parse α := do
  let outer := (← get).context
  modify fun s => { s with context := change s.context }
  let a ← rule
  modify fun s => { s with context := outer }
  return a

def withIn {α : Type} : Parse α → Parse α := within ({ · with inOperator := true })

def withoutIn {α : Type} : Parse α → Parse α := within ({ · with inOperator := false })

def repeatWithin {α : Type} (item : Parse (Option α)) : Nat → Parse (List α)
  | 0 => failure
  | fuel + 1 => do
    match ← item with
    | none => return []
    | some a => return a :: (← repeatWithin item fuel)

/-- Repeats a rule until it gives nothing. Every round but the last one consumes text. -/
def many {α : Type} (item : Parse (Option α)) : Parse (List α) := do
  repeatWithin item ((← get).here.length + 2)

def iterateWithin {α : Type} (next : α → Parse (Option α)) : Nat → α → Parse α
  | 0, _ => failure
  | fuel + 1, a => do
    match ← next a with
    | none => return a
    | some b => iterateWithin next fuel b

/-- Extends a value as long as the rule does so. -/
def iterate {α : Type} (next : α → Parse (Option α)) (a : α) : Parse α := do
  iterateWithin next ((← get).here.length + 2) a

/-- Items up to but not including `close`, with commas between them; also whether the last comma is
followed by no item. -/
def delimited {α : Type} (close : String) (item : Parse α) : Parse (List α × Bool) := do
  if ← atMark close then return ([], false)
  let first ← item
  let rest ← many do
    if ← atMark close then return none
    expectMark ","
    if ← atMark close then return some none
    return some (some (← item))
  return (first :: rest.filterMap id, rest.any Option.isNone)

def finish (start : Nat) (make : Span → Syntax) : Parse Syntax := return make ⟨start, ← lastStop⟩

/-- The words that are never names of variables. -/
def reservedWords : List String :=
  ["break", "case", "catch", "class", "const", "continue", "debugger", "default", "delete", "do",
   "else", "enum", "export", "extends", "false", "finally", "for", "function", "if", "import", "in",
   "instanceof", "new", "null", "return", "super", "switch", "this", "throw", "true", "try",
   "typeof", "var", "void", "while", "with"]

def isReserved (name : String) : Bool := reservedWords.contains name

/-- Whether the lexeme can bind a variable somewhere. -/
def Lexeme.isBindable (l : Lexeme) : Bool := l.word?.any (!isReserved ·)

def Lexeme.isVariable (l : Lexeme) (context : Context) : Bool :=
  l.word?.any fun name =>
    !isReserved name && !(context.yields && name == "yield") && !(context.awaits && name == "await")

def Lexeme.isName (l : Lexeme) : Bool := l.word?.isSome

/-- Whether the lexeme can be the key of a property without brackets. -/
def Lexeme.isPlainKey : Lexeme → Bool
  | .word _ _ | .string _ | .number _ | .bigint => true
  | _ => false

def Lexed.span (t : Lexed) : Span := ⟨t.start, t.stop⟩

def identifierName : Parse Syntax := do
  let t ← currentToken
  let .word name _ := t.lexeme | failure
  advance
  return .word t.span name

def privateName : Parse Syntax := do
  let t ← currentToken
  let .privateName name := t.lexeme | failure
  advance
  return .privateName t.span name

def identifierReference : Parse Syntax := do
  let t ← currentToken
  let .word name _ := t.lexeme | failure
  require (t.lexeme.isVariable (← get).context)
  advance
  return .reference t.span name

def bindingIdentifier : Parse Syntax := do
  let t ← currentToken
  let .word name _ := t.lexeme | failure
  require t.lexeme.isBindable
  faultIf (!t.lexeme.isVariable (← get).context)
  advance
  return .binding t.span name

def labelIdentifier : Parse Syntax := do
  let t ← currentToken
  let .word name _ := t.lexeme | failure
  require (t.lexeme.isVariable (← get).context)
  advance
  return .word t.span name

/-- A literal that is one token. -/
def literal (make : Span → Syntax) : Parse Syntax := do
  let t ← currentToken
  advance
  return make t.span

def plainLiteral : Parse Syntax := do
  let t ← currentToken
  match t.lexeme with
  | .string value => literal (.string · value (String.ofList t.raw))
  | .number value => literal (.number · value)
  | .bigint => literal .bigint
  | _ => failure

def stringLiteral : Parse Syntax := do
  let .string _ ← currentLexeme | failure
  plainLiteral

end SvelteSyntax.Script
