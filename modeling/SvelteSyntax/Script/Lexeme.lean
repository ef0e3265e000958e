import SvelteSyntax.Number.Double
import SvelteSyntax.Text.Bytes
import SvelteSyntax.Text.CharClass

namespace SvelteSyntax.Script

open Text

inductive Lexeme where
  | endOfText
  /-- A name or keyword, spelled with a character escape or not. -/
  | word (name : String) (escaped : Bool)
  | privateName (name : String)
  | mark (text : String)
  | number (value : Double)
  | bigint
  | string (value : String)
  | regex
  /-- A chunk of a template literal with its text, if every escape in it means something. -/
  | chunk (cooked : Option String) (last : Bool)
  /-- Text that is no lexeme. -/
  | invalid
  deriving DecidableEq, Repr, Inhabited

/-- A lexeme with its span, its spelling and whether a line ended before it. -/
structure Lexed where
  lexeme : Lexeme
  start : Nat
  stop : Nat
  raw : List Char
  newline : Bool
  deriving Repr, Inhabited

def isScriptBlank (c : Char) : Bool := isBlank c || c == '﻿' || c == '​'

inductive Trivia where
  | between
  | lineComment
  | blockComment

/-- Skips blanks and comments; gives whether a line ended, the new offset and the rest. `legacy`
admits the comments `<!--` and, at the start of a line, `-->`. -/
def skipTrivia (legacy : Bool) :
    Trivia → Bool → Nat → List Char → Option (Bool × Nat × List Char)
  | .blockComment, _, _, [] => none
  | _, newline, offset, [] => some (newline, offset, [])
  | .lineComment, newline, offset, c :: cs =>
    if isLineTerminator c then skipTrivia legacy .between true (offset + c.utf8Size) cs
    else skipTrivia legacy .lineComment newline (offset + c.utf8Size) cs
  | .blockComment, newline, offset, '*' :: '/' :: cs =>
    skipTrivia legacy .between newline (offset + 2) cs
  | .blockComment, newline, offset, c :: cs =>
    skipTrivia legacy .blockComment (newline || isLineTerminator c) (offset + c.utf8Size) cs
  | .between, newline, offset, '/' :: '/' :: cs =>
    skipTrivia legacy .lineComment newline (offset + 2) cs
  | .between, newline, offset, '/' :: '*' :: cs =>
    skipTrivia legacy .blockComment newline (offset + 2) cs
  | .between, newline, offset, '<' :: '!' :: '-' :: '-' :: cs =>
    if legacy then skipTrivia legacy .lineComment newline (offset + 4) cs
    else some (newline, offset, '<' :: '!' :: '-' :: '-' :: cs)
  | .between, newline, offset, '-' :: '-' :: '>' :: cs =>
    if legacy && newline then skipTrivia legacy .lineComment newline (offset + 3) cs
    else some (newline, offset, '-' :: '-' :: '>' :: cs)
  | .between, newline, offset, c :: cs =>
    if isLineTerminator c then skipTrivia legacy .between true (offset + c.utf8Size) cs
    else if isScriptBlank c then skipTrivia legacy .between newline (offset + c.utf8Size) cs
    else some (newline, offset, c :: cs)

def hexNumber (cs : List Char) : Nat := cs.foldl (fun n c => 16 * n + hexValue c) 0

def readHex (count : Nat) (cs : List Char) : Option (Nat × List Char) :=
  let digits := cs.take count
  if digits.length = count ∧ digits.all isHexDigit then some (hexNumber digits, cs.drop count)
  else none

def readCodePoint (cs : List Char) : Option (Nat × List Char) :=
  match cs with
  | '{' :: cs =>
    let digits := cs.takeWhile isHexDigit
    match cs.drop digits.length with
    | '}' :: rest =>
      if digits.isEmpty ∨ 0x10ffff < hexNumber digits then none else some (hexNumber digits, rest)
    | _ => none
  | cs => readHex 4 cs

def isHighSurrogate (n : Nat) : Bool := 0xd800 ≤ n && n ≤ 0xdbff

def isLowSurrogate (n : Nat) : Bool := 0xdc00 ≤ n && n ≤ 0xdfff

/-- A piece of a cooked text: a character or half of a surrogate pair. -/
inductive Piece where
  | char (c : Char)
  | surrogate (n : Nat)

def Piece.ofCodePoint (n : Nat) : Piece :=
  if isHighSurrogate n || isLowSurrogate n then .surrogate n else .char (Char.ofNat n)

def Piece.isSurrogate : Piece → Bool
  | .surrogate _ => true
  | .char _ => false

/-- The text of the pieces. If there are lone surrogates, each of them, and each replacement
character, is written as the replacement character and four digits. -/
def cook (pieces : List Piece) : String :=
  let marked := pieces.any Piece.isSurrogate
  String.ofList <| pieces.flatMap fun
    | .surrogate n => '�' :: Nat.toDigits 16 n
    | .char '�' => if marked then '�' :: "fffd".toList else ['�']
    | .char c => [c]

def readUnicodeEscape (cs : List Char) : Option (List Piece × List Char) :=
  match cs with
  | '{' :: _ => (readCodePoint cs).map fun (n, rest) => ([Piece.ofCodePoint n], rest)
  | cs => do
    let (high, rest) ← readHex 4 cs
    match rest with
    | '\\' :: 'u' :: more =>
      if isHighSurrogate high then
        let (low, rest') ← readHex 4 more
        if isLowSurrogate low then
          let n := 0x10000 + (high - 0xd800) * 0x400 + (low - 0xdc00)
          return ([.char (Char.ofNat n)], rest')
        else return ([.surrogate high], rest)
      else return ([Piece.ofCodePoint high], rest)
    | rest => return ([Piece.ofCodePoint high], rest)

def isOctalDigit (c : Char) : Bool := '0' ≤ c && c ≤ '7'

/-- The pieces of an escape after its backslash, or nothing if it means nothing. In a template
octal escapes mean nothing. -/
def readEscape (template : Bool) (cs : List Char) : Option (List Piece × List Char) :=
  match cs with
  | [] => none
  | '\r' :: '\n' :: rest => some ([], rest)
  | 'x' :: rest => (readHex 2 rest).map fun (n, rest) => ([.char (Char.ofNat n)], rest)
  | 'u' :: rest => readUnicodeEscape rest
  | 'b' :: rest => some ([.char '\x08'], rest)
  | 'f' :: rest => some ([.char '\x0c'], rest)
  | 'n' :: rest => some ([.char '\n'], rest)
  | 'r' :: rest => some ([.char '\r'], rest)
  | 't' :: rest => some ([.char '\t'], rest)
  | 'v' :: rest => some ([.char '\x0b'], rest)
  | c :: rest =>
    if isLineTerminator c then some ([], rest)
    else if isAsciiDigit c then
      if c == '0' && !(rest.head?.any isAsciiDigit) then some ([.char '\x00'], rest)
      else if template then none
      else if isOctalDigit c then
        let digits := ((c :: rest).take (if c ≤ '3' then 3 else 2)).takeWhile isOctalDigit
        let value := digits.foldl (fun n d => 8 * n + hexValue d) 0
        some ([.char (Char.ofNat value)], (c :: rest).drop digits.length)
      else some ([.char c], rest)
    else some ([.char c], rest)

/-- The name that starts at the text: its characters with escapes resolved, whether there were
escapes, and the rest. `none` if an escape stands for no character of a name. -/
def readName (first : Bool) : Nat → List Char → Option (List Char × Bool × List Char)
  | 0, cs => some ([], false, cs)
  | fuel + 1, cs =>
    let allowed := if first then isIdentifierStart else isIdentifierPart
    match cs with
    | '\\' :: 'u' :: rest => do
      let (n, rest) ← readCodePoint rest
      if isHighSurrogate n || isLowSurrogate n || !allowed (Char.ofNat n) then none
      let (name, _, rest) ← readName false fuel rest
      return (Char.ofNat n :: name, true, rest)
    | '\\' :: _ => none
    | c :: rest =>
      if allowed c then do
        let (name, escaped, rest) ← readName false fuel rest
        return (c :: name, escaped, rest)
      else some ([], false, c :: rest)
    | [] => some ([], false, [])

/-- Digits with single separators between them, and the rest. -/
def readDigits (digit : Char → Bool) (cs : List Char) : Option (List Char × List Char) :=
  let run := cs.takeWhile fun c => digit c || c == '_'
  let doubled := (run.zip (run.drop 1)).any fun (a, b) => a == '_' && b == '_'
  if run.head?.any (· == '_') || run.getLast?.any (· == '_') || doubled then none
  else some (run.filter digit, cs.drop run.length)

def digitsValue (base : Nat) (ds : List Char) : Nat :=
  ds.foldl (fun n d => base * n + hexValue d) 0

/-- No name and no digit may follow a number directly. -/
def endsNumber (rest : List Char) : Bool :=
  !rest.head?.any fun c => isAsciiDigit c || isIdentifierStart c

def finishNumber (lexeme : Lexeme) (rest : List Char) : Option (Lexeme × List Char) :=
  if endsNumber rest then some (lexeme, rest) else none

def readExponent (cs : List Char) : Option (Int × List Char) :=
  match cs with
  | c :: rest =>
    if c == 'e' || c == 'E' then do
      let (negative, rest) := match rest with
        | '-' :: rest => (true, rest)
        | '+' :: rest => (false, rest)
        | rest => (false, rest)
      let (ds, rest) ← readDigits isAsciiDigit rest
      if ds.isEmpty then none
      let n := digitsValue 10 ds
      return (if negative then -(n : Int) else n, rest)
    else some (0, cs)
  | [] => some (0, [])

def readFraction (whole : List Char) (cs : List Char) : Option (Lexeme × List Char) := do
  let (fraction, rest) ←
    if cs.head?.any isAsciiDigit then readDigits isAsciiDigit cs else some ([], cs)
  let (exponent, rest) ← readExponent rest
  let digits := digitsValue 10 (whole ++ fraction)
  finishNumber (.number (.ofDecimal digits (exponent - fraction.length))) rest

def readWholeExponent (whole : List Char) (cs : List Char) : Option (Lexeme × List Char) := do
  let (exponent, rest) ← readExponent cs
  finishNumber (.number (.ofDecimal (digitsValue 10 whole) exponent)) rest

def readRadix (base : Nat) (digit : Char → Bool) (cs : List Char) : Option (Lexeme × List Char) := do
  let (ds, rest) ← readDigits digit cs
  if ds.isEmpty then none
  match rest with
  | 'n' :: rest => finishNumber .bigint rest
  | rest => finishNumber (.number (.ofNat (digitsValue base ds))) rest

def readNumber (cs : List Char) : Option (Lexeme × List Char) :=
  match cs with
  | '.' :: rest => readFraction [] rest
  | '0' :: c :: rest =>
    if c == 'x' || c == 'X' then readRadix 16 isHexDigit rest
    else if c == 'o' || c == 'O' then readRadix 8 isOctalDigit rest
    else if c == 'b' || c == 'B' then readRadix 2 (fun c => c == '0' || c == '1') rest
    else if isAsciiDigit c then
      let digits := (c :: rest).takeWhile isAsciiDigit
      let rest := (c :: rest).drop digits.length
      if digits.all isOctalDigit then
        finishNumber (.number (.ofNat (digitsValue 8 digits))) rest
      else match rest with
        | '.' :: rest => readFraction digits rest
        | rest => readWholeExponent digits rest
    else match c :: rest with
      | '.' :: rest => readFraction [] rest
      | 'n' :: rest => finishNumber .bigint rest
      | rest => readWholeExponent [] rest
  | cs => do
    let (whole, rest) ← readDigits isAsciiDigit cs
    match rest with
    | '.' :: rest => readFraction whole rest
    | 'n' :: rest => finishNumber .bigint rest
    | rest => readWholeExponent whole rest

def readString (quote : Char) : Nat → List Char → Option (List Piece × List Char)
  | 0, _ => none
  | _ + 1, [] => none
  | fuel + 1, c :: rest =>
    if c == quote then some ([], rest)
    else if c == '\n' || c == '\r' then none
    else if c == '\\' then do
      let (pieces, rest) ← readEscape false rest
      let (more, rest) ← readString quote fuel rest
      return (pieces ++ more, rest)
    else do
      let (more, rest) ← readString quote fuel rest
      return (.char c :: more, rest)

/-- A chunk of a template up to a backtick or `${`: its pieces unless an escape means nothing,
whether it is the last one, and the rest. Line ends are read as LF. -/
def readChunk : Nat → List Char → Option (Option (List Piece) × Bool × List Char)
  | 0, _ => none
  | _ + 1, [] => none
  | _ + 1, '`' :: rest => some (some [], true, rest)
  | _ + 1, '$' :: '{' :: rest => some (some [], false, rest)
  | fuel + 1, '\\' :: rest =>
    match readEscape true rest with
    | some (pieces, rest) => do
      let (more, last, rest) ← readChunk fuel rest
      return (more.map (pieces ++ ·), last, rest)
    | none => do
      let (_, last, rest) ← readChunk fuel (rest.drop 1)
      return (none, last, rest)
  | fuel + 1, '\r' :: '\n' :: rest => do
    let (more, last, rest) ← readChunk fuel rest
    return (more.map (.char '\n' :: ·), last, rest)
  | fuel + 1, c :: rest => do
    let (more, last, rest) ← readChunk fuel rest
    return (more.map (.char (if c == '\r' then '\n' else c) :: ·), last, rest)

/-- The body of a regular expression after its opening slash. -/
def skipRegexBody (inClass : Bool) : List Char → Option (List Char)
  | [] => none
  | '\\' :: c :: rest => if isLineTerminator c then none else skipRegexBody inClass rest
  | c :: rest =>
    if isLineTerminator c then none
    else if c == '/' && !inClass then some rest
    else skipRegexBody ((inClass || c == '[') && c != ']') rest

def isFlagChar (c : Char) : Bool := isAsciiAlphanumeric c || c == '$' || c == '_'

/-- A regular expression that starts at the text: its flags are known and occur once. -/
def readRegex (cs : List Char) : Option (Lexeme × List Char) := do
  let rest ← skipRegexBody false (cs.drop 1)
  let flags := rest.takeWhile isFlagChar
  let rest := rest.drop flags.length
  if flags.all ("dgimsuvy".toList.contains ·) && flags.eraseDups.length == flags.length then
    return (.regex, rest)
  else return (.invalid, rest)

/-- The punctuation marks, longer ones before those they start with. A `>` is read alone, because
it may close a list of types. -/
def marks : List (List Char) :=
  ["...", "===", "!==", "**=", "<<=", "&&=", "||=", "??=", "=>", "==", "!=", "<=", "&&", "||",
   "??", "?.", "++", "--", "+=", "-=", "*=", "/=", "%=", "&=", "|=", "^=", "**", "<<", "\x7b", "\x7d",
   "(", ")", "[", "]", ";", ",", "<", ">", "+", "-", "*", "/", "%", "&", "|", "^", "!", "~", "?",
   ":", "=", ".", "@"].map String.toList

/-- The marks that start with `>`, longest first. -/
def angleMarks : List (List Char) :=
  [">>>=", ">>>", ">>=", ">>", ">=", ">"].map String.toList

def readMark (cs : List Char) : Option (Lexeme × List Char) :=
  let fits (mark : List Char) : Bool := startsWith mark cs &&
    !(mark == ['?', '.'] && (cs.drop 2).head?.any isAsciiDigit)
  (marks.find? fits).map fun mark => (.mark (String.ofList mark), cs.drop mark.length)

/-- The lexeme at the start of a text that does not start with a blank or comment. -/
def readLexeme (cs : List Char) : Option (Lexeme × List Char) :=
  match cs with
  | [] => some (.endOfText, [])
  | '#' :: rest => do
    let (name, _, rest') ← readName true (rest.length + 1) rest
    if name.isEmpty then none
    return (.privateName (String.ofList name), rest')
  | '`' :: rest => do
    let (pieces, last, rest) ← readChunk (rest.length + 1) rest
    return (.chunk (pieces.map cook) last, rest)
  | c :: rest =>
    if isIdentifierStart c || c == '\\' then do
      let (name, escaped, rest) ← readName true (cs.length + 1) cs
      return (.word (String.ofList name) escaped, rest)
    else if isAsciiDigit c || (c == '.' && rest.head?.any isAsciiDigit) then readNumber cs
    else if c == '"' || c == '\'' then do
      let (pieces, rest) ← readString c (rest.length + 1) rest
      return (.string (cook pieces), rest)
    else readMark cs

def nextToken (legacy : Bool) (fresh : Bool) (offset : Nat) (cs : List Char) :
    Lexed × List Char × List Char :=
  match skipTrivia legacy .between fresh offset cs with
  | none => (⟨.invalid, offset, offset + byteLength cs, cs, fresh⟩, cs, [])
  | some (newline, start, here) =>
    match readLexeme here with
    | none => (⟨.invalid, start, start + byteLength here, here, newline⟩, here, [])
    | some (lexeme, rest) =>
      let raw := here.take (here.length - rest.length)
      (⟨lexeme, start, start + byteLength raw, raw, newline⟩, here, rest)

end SvelteSyntax.Script
