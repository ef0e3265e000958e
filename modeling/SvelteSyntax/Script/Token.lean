import SvelteSyntax.Script.State
import SvelteSyntax.Tree.Token

namespace SvelteSyntax.Script

open Text

/-- Why a script is refused, and where. -/
structure ScriptError where
  message : String
  offset : Nat
  deriving DecidableEq, Repr, Inhabited

inductive Chunk where
  | blank (c : Char)
  | comment (kind : CommentKind) (body : List Char)
  | token (kind : TokenKind) (text : List Char)
  deriving DecidableEq, Repr

/-- The characters a piece takes up. -/
def Chunk.chars : Chunk → List Char
  | .blank c => [c]
  | .comment .line body => '/' :: '/' :: body
  | .comment .block body => '/' :: '*' :: (body ++ ['*', '/'])
  | .token _ text => text

/-- What decides how the next piece is read. -/
structure Surroundings where
  /-- The token before. -/
  previous : Option (TokenKind × List Char) := none
  /-- The open braces, innermost first; `true` for those of a template. -/
  braces : List Bool := []

/-- How many characters a machine accepts before it stops. -/
def acceptedLength {σ : Type} (step : σ → Char → Option σ) : σ → List Char → Nat
  | _, [] => 0
  | s, c :: cs =>
    match step s c with
    | some s' => acceptedLength step s' cs + 1
    | none => 0

def startsWord (c : Char) : Bool := c == '$' || c == '_' || c == '\\' || isAlphabetic c

def continuesWord (c : Char) : Bool := startsWord c || isNumeric c || isJoinControl c

inductive WordState where
  | plain
  | backslash
  | escape
  | braced
  | digits (left : Nat)

def WordState.plainStep (c : Char) : Option WordState :=
  if c == '\\' then some .backslash else if continuesWord c then some .plain else none

def WordState.step : WordState → Char → Option WordState
  | .plain, c => plainStep c
  | .backslash, c => if c == 'u' then some .escape else plainStep c
  | .escape, c =>
    if c == '{' then some .braced else if isHexDigit c then some (.digits 3) else plainStep c
  | .braced, c => some (if c == '}' then .plain else .braced)
  | .digits 0, c => plainStep c
  | .digits (left + 1), c => if isHexDigit c then some (.digits left) else plainStep c

def wordLength (cs : List Char) : Nat := acceptedLength WordState.step .plain cs

def runLength (p : Char → Bool) (cs : List Char) : Nat := (cs.takeWhile p).length

def isNumberChar (c : Char) : Bool := isAsciiDigit c || c == '_'

def exponentLength (cs : List Char) : Nat :=
  match cs with
  | c :: rest =>
    if c == 'e' || c == 'E' then
      match rest with
      | s :: digits =>
        if s == '+' || s == '-' then 2 + runLength isNumberChar digits
        else 1 + runLength isNumberChar rest
      | [] => 1
    else 0
  | [] => 0

def fractionLength (cs : List Char) : Nat :=
  match cs with
  | '.' :: rest => 1 + runLength isNumberChar rest
  | _ => 0

def isRadixLetter (c : Char) : Bool := "xXoObB".toList.contains c

/-- The length of a number without a final `n`. -/
def magnitudeLength (cs : List Char) : Nat :=
  let decimal :=
    let whole := runLength isNumberChar cs
    let fraction := whole + fractionLength (cs.drop whole)
    fraction + exponentLength (cs.drop fraction)
  match cs with
  | '0' :: r :: rest =>
    if isRadixLetter r then 2 + runLength (fun c => isHexDigit c || c == '_') rest else decimal
  | _ => decimal

def numberLength (cs : List Char) : Nat :=
  let n := magnitudeLength cs
  match cs.drop n with
  | 'n' :: _ => n + 1
  | _ => n

/-- The length of something with an end, or how far one gets without finding it. -/
inductive Extent where
  | closed (length : Nat)
  | open (length : Nat)

def Extent.add (n : Nat) : Extent → Extent
  | .closed length => .closed (length + n)
  | .open length => .open (length + n)

/-- A string after its opening quote. A line ends it unless the end is escaped. -/
def stringExtent (quote : Char) : List Char → Extent
  | [] => .open 0
  | '\\' :: [] => .open 1
  | '\\' :: '\r' :: '\n' :: cs => (stringExtent quote cs).add 3
  | '\\' :: _ :: cs => (stringExtent quote cs).add 2
  | c :: cs =>
    if c == quote then .closed 1
    else if c == '\n' || c == '\r' then .open 0
    else (stringExtent quote cs).add 1

/-- A part of a template after what opens it, and whether a substitution follows. -/
def templateExtent : List Char → Option (Nat × Bool)
  | [] => none
  | '\\' :: [] => none
  | '\\' :: _ :: cs => (templateExtent cs).map fun (n, more) => (n + 2, more)
  | '`' :: _ => some (1, false)
  | '$' :: '{' :: _ => some (2, true)
  | _ :: cs => (templateExtent cs).map fun (n, more) => (n + 1, more)

/-- A regular expression after its opening slash, without flags. -/
def regexExtent (inClass : Bool) : List Char → Extent
  | [] => .open 0
  | '\\' :: [] => .open 1
  | '\\' :: _ :: cs => (regexExtent inClass cs).add 2
  | c :: cs =>
    if isLineTerminator c then .open 0
    else if c == '/' && !inClass then .closed 1
    else (regexExtent ((inClass || c == '[') && c != ']') cs).add 1

def keywords : List String :=
  ["break", "case", "catch", "class", "const", "continue", "debugger", "default", "delete", "do",
   "else", "export", "extends", "finally", "for", "function", "if", "import", "in", "instanceof",
   "let", "new", "return", "static", "super", "switch", "this", "throw", "try", "typeof", "var",
   "void", "while", "with", "yield"]

def wordKind (text : List Char) : TokenKind :=
  let word := String.ofList text
  if word == "true" || word == "false" then .boolean
  else if word == "null" then .null
  else if keywords.contains word then .keyword
  else .identifier

/-- All punctuation marks, longer ones before those they start with. -/
def punctuators : List (List Char) :=
  [">>>=", "===", "!==", "**=", "<<=", ">>=", ">>>", "...", "&&=", "||=", "??=", "=>", "==", "!=",
   "<=", ">=", "&&", "||", "??", "?.", "++", "--", "+=", "-=", "*=", "/=", "%=", "&=", "|=", "^=",
   "**", "<<", ">>", "\x7b", "\x7d", "(", ")", "[", "]", ";", ",", "<", ">", "+", "-", "*", "/", "%", "&",
   "|", "^", "!", "~", "?", ":", "=", ".", "@"].map String.toList

def punctuator? (cs : List Char) : Option (List Char) :=
  punctuators.find? fun mark => startsWith mark cs &&
    !(mark == ['?', '.'] && (cs.drop 2).head?.any isAsciiDigit)

/-- Whether a slash after this token starts a regular expression. -/
def allowsRegex : Option (TokenKind × List Char) → Bool
  | none => true
  | some (.punctuator, text) => !([[')'], [']'], ['}'], ['+', '+'], ['-', '-']].contains text)
  | some (.keyword, text) => !(["this".toList, "super".toList].contains text)
  | some _ => false

def tokenChunk (s : Surroundings) (kind : TokenKind) (length : Nat) (cs : List Char)
    (braces : List Bool) : Chunk × Surroundings :=
  let text := cs.take length
  (.token kind text, { s with previous := some (kind, text), braces })

/-- The error after so many characters of the text. -/
def errorAfter (message : String) (length : Nat) (cs : List Char) : ScriptError :=
  ⟨message, byteLength (cs.take length)⟩

def templateChunk (s : Surroundings) (cs : List Char) (braces : List Bool) :
    Except ScriptError (Chunk × Surroundings) :=
  match templateExtent (cs.drop 1) with
  | some (n, more) => .ok (tokenChunk s .template (n + 1) cs (if more then true :: braces else braces))
  | none => .error (errorAfter "Unterminated template" cs.length cs)

def regexChunk (s : Surroundings) (cs : List Char) : Except ScriptError (Chunk × Surroundings) :=
  match regexExtent false (cs.drop 1) with
  | .closed n =>
    let flags := wordLength (cs.drop (n + 1))
    .ok (tokenChunk s .regularExpression (n + 1 + flags) cs s.braces)
  | .open n => .error (errorAfter "Unterminated regular expression" (n + 1) cs)

def punctuatorChunk (s : Surroundings) (cs : List Char) : Except ScriptError (Chunk × Surroundings) :=
  match punctuator? cs with
  | some ['{'] => .ok (tokenChunk s .punctuator 1 cs (false :: s.braces))
  | some ['}'] => .ok (tokenChunk s .punctuator 1 cs s.braces.tail)
  | some mark => .ok (tokenChunk s .punctuator mark.length cs s.braces)
  | none => .error (errorAfter "Unexpected character" 0 cs)

def stringChunk (s : Surroundings) (quote : Char) (cs : List Char) :
    Except ScriptError (Chunk × Surroundings) :=
  match stringExtent quote (cs.drop 1) with
  | .closed n => .ok (tokenChunk s .string (n + 1) cs s.braces)
  | .open n => .error (errorAfter "Unterminated string constant" (n + 1) cs)

def nextChunk (s : Surroundings) (c : Char) (rest : List Char) :
    Except ScriptError (Chunk × Surroundings) :=
  let cs := c :: rest
  if isBlank c || c == '﻿' then .ok (.blank c, s)
  else if startsWith ['/', '/'] cs then
    .ok (.comment .line ((cs.drop 2).takeWhile (!isLineTerminator ·)), s)
  else if startsWith ['/', '*'] cs then
    match splitAt? ['*', '/'] (cs.drop 2) with
    | some (body, _) => .ok (.comment .block body, s)
    | none => .error (errorAfter "Unterminated comment" 0 cs)
  else if c == '#' && rest.head?.any startsWord then
    .ok (tokenChunk s .privateIdentifier (1 + wordLength rest) cs s.braces)
  else if startsWord c then
    let n := wordLength cs
    .ok (tokenChunk s (wordKind (cs.take n)) n cs s.braces)
  else if isAsciiDigit c || (c == '.' && rest.head?.any isAsciiDigit) then
    .ok (tokenChunk s .numeric (numberLength cs) cs s.braces)
  else if c == '"' || c == '\'' then stringChunk s c cs
  else if c == '`' then templateChunk s cs s.braces
  else if c == '}' && s.braces.head? == some true then templateChunk s cs s.braces.tail
  else if c == '/' && allowsRegex s.previous then regexChunk s cs
  else punctuatorChunk s cs

def ScriptError.shift (d : Nat) (e : ScriptError) : ScriptError := { e with offset := e.offset + d }

/-- The pieces of a text of at most `fuel` characters. A template that is still open at the end is an
error there. -/
def chunksWithin : Nat → Surroundings → List Char → Except ScriptError (List Chunk)
  | _, s, [] => if s.braces.any id then .error ⟨"Unterminated template", 0⟩ else .ok []
  | 0, _, _ :: _ => .ok []
  | fuel + 1, s, c :: rest => do
    let (chunk, s) ← nextChunk s c rest
    let chars := chunk.chars
    let more ← (chunksWithin fuel s ((c :: rest).drop chars.length)).mapError
      (·.shift (byteLength chars))
    return chunk :: more

def chunks (cs : List Char) : Except ScriptError (List Chunk) := chunksWithin cs.length {} cs

/-- The streams of the pieces, the first of which starts at `offset`. -/
def streamsFrom (offset : Nat) : List Chunk → Streams
  | [] => {}
  | chunk :: rest =>
    let stop := offset + byteLength chunk.chars
    let after := streamsFrom stop rest
    match chunk with
    | .blank _ => after
    | .comment kind body =>
      { after with comments := ⟨kind, String.ofList body, offset, stop, none⟩ :: after.comments }
    | .token kind text =>
      { after with tokens := ⟨kind, String.ofList text, offset, stop, none⟩ :: after.tokens }

/-- The streams of a text that starts at `base`. -/
def tokenize (base : Nat) (cs : List Char) : Except ScriptError Streams :=
  match chunks cs with
  | .ok pieces => .ok (streamsFrom base pieces)
  | .error e => .error (e.shift base)

end SvelteSyntax.Script
