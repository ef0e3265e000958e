import SvelteSyntax.Json
import SvelteSyntax.Text.CharClass

namespace SvelteSyntax.Json

open Text

def isJsonBlank (c : Char) : Bool := c == ' ' || c == '\n' || c == '\t' || c == '\r'

def skipBlanks (cs : List Char) : List Char := cs.dropWhile isJsonBlank

def hexUnit (cs : List Char) : Option (Nat × List Char) :=
  match cs with
  | a :: b :: c :: d :: rest =>
    if [a, b, c, d].all isHexDigit then
      some ([a, b, c, d].foldl (fun n x => 16 * n + hexValue x) 0, rest)
    else none
  | _ => none

def escapedChar? : Char → Option Char
  | '"' => some '"'
  | '\\' => some '\\'
  | '/' => some '/'
  | 'b' => some '\x08'
  | 'f' => some '\x0c'
  | 'n' => some '\n'
  | 'r' => some '\r'
  | 't' => some '\t'
  | _ => none

/-- The units of a string: characters, or code units given by an escape. -/
inductive Unit16 where
  | char (c : Char)
  | unit (n : Nat)

def readUnits : Nat → List Char → Option (List Unit16 × List Char)
  | 0, _ => none
  | _ + 1, [] => none
  | fuel + 1, c :: rest =>
    if c == '"' then some ([], rest)
    else if c.toNat < 32 then none
    else if c == '\\' then
      match rest with
      | 'u' :: digits => do
        let (n, rest) ← hexUnit digits
        let (units, rest) ← readUnits fuel rest
        return (.unit n :: units, rest)
      | e :: rest => do
        let c ← escapedChar? e
        let (units, rest) ← readUnits fuel rest
        return (.char c :: units, rest)
      | [] => none
    else do
      let (units, rest) ← readUnits fuel rest
      return (.char c :: units, rest)

/-- The text of the units, if every surrogate has its other half next to it. -/
def decodeUnits : List Unit16 → Option (List Char)
  | [] => some []
  | .char c :: us => (decodeUnits us).map (c :: ·)
  | .unit n :: us =>
    if n < 0xd800 || 0xe000 ≤ n then (decodeUnits us).map (Char.ofNat n :: ·)
    else if n < 0xdc00 then
      match us with
      | .unit m :: us =>
        if 0xdc00 ≤ m && m < 0xe000 then
          (decodeUnits us).map (Char.ofNat (0x10000 + (n - 0xd800) * 0x400 + (m - 0xdc00)) :: ·)
        else none
      | _ => none
    else none

/-- A string after its opening quote. -/
def readText (cs : List Char) : Option (Option String × List Char) :=
  (readUnits (cs.length + 1) cs).map fun (units, rest) =>
    ((decodeUnits units).map String.ofList, rest)

def decimalValue (ds : List Char) : Nat := ds.foldl (fun n d => 10 * n + hexValue d) 0

def readFraction (cs : List Char) : Option (List Char × List Char) :=
  match cs with
  | '.' :: rest =>
    let ds := rest.takeWhile isAsciiDigit
    if ds.isEmpty then none else some (ds, rest.drop ds.length)
  | cs => some ([], cs)

def readExponent (cs : List Char) : Option (Int × List Char) :=
  match cs with
  | c :: rest =>
    if c == 'e' || c == 'E' then
      let (negative, rest) := match rest with
        | '-' :: rest => (true, rest)
        | '+' :: rest => (false, rest)
        | rest => (false, rest)
      let ds := rest.takeWhile isAsciiDigit
      if ds.isEmpty then none
      else
        let n : Int := decimalValue ds
        some (if negative then -n else n, rest.drop ds.length)
    else some (0, cs)
  | [] => some (0, [])

def readNumber (cs : List Char) : Option (Json × List Char) := do
  let (negative, cs) := match cs with
    | '-' :: cs => (true, cs)
    | cs => (false, cs)
  let whole := cs.takeWhile isAsciiDigit
  if whole.isEmpty || (whole.length > 1 && whole.head? == some '0') then none
  let (fraction, rest) ← readFraction (cs.drop whole.length)
  let (exponent, rest) ← readExponent rest
  let d := Double.ofDecimal (decimalValue (whole ++ fraction)) (exponent - fraction.length)
  return (.number (if negative then d.neg else d), rest)

def readWord (word : String) (value : Json) (cs : List Char) : Option (Json × List Char) :=
  if cs.take word.length = word.toList then some (value, cs.drop word.length) else none

mutual

def readValue : Nat → List Char → Option (Json × List Char)
  | 0, _ => none
  | fuel + 1, cs =>
    match skipBlanks cs with
    | '{' :: rest =>
      match skipBlanks rest with
      | '}' :: rest => some (.object [], rest)
      | rest => (readEntries fuel rest).map fun (entries, rest) => (.object entries, rest)
    | '[' :: rest =>
      match skipBlanks rest with
      | ']' :: rest => some (.array [], rest)
      | rest => (readItems fuel rest).map fun (items, rest) => (.array items, rest)
    | '"' :: rest => (readText rest).map fun (s, rest) =>
      ((s.map Json.string).getD .brokenString, rest)
    | 'n' :: rest => readWord "null" .null ('n' :: rest)
    | 't' :: rest => readWord "true" (.bool true) ('t' :: rest)
    | 'f' :: rest => readWord "false" (.bool false) ('f' :: rest)
    | rest => readNumber rest

/-- The items of an array that has some, with its closing bracket. -/
def readItems : Nat → List Char → Option (List Json × List Char)
  | 0, _ => none
  | fuel + 1, cs => do
    let (item, rest) ← readValue fuel cs
    match skipBlanks rest with
    | ',' :: rest =>
      let (items, rest) ← readItems fuel rest
      return (item :: items, rest)
    | ']' :: rest => return ([item], rest)
    | _ => none

/-- The entries of an object that has some, with its closing brace. -/
def readEntries : Nat → List Char → Option (List (String × Json) × List Char)
  | 0, _ => none
  | fuel + 1, cs => do
    let '"' :: rest := skipBlanks cs | none
    let (key, rest) ← readText rest
    let key ← key
    let ':' :: rest := skipBlanks rest | none
    let (value, rest) ← readValue fuel rest
    match skipBlanks rest with
    | ',' :: rest =>
      let (entries, rest) ← readEntries fuel rest
      return ((key, value) :: entries, rest)
    | '}' :: rest => return ([(key, value)], rest)
    | _ => none

end

/-- The only value of a text. -/
def read? (cs : List Char) : Option Json := do
  let (value, rest) ← readValue (cs.length + 1) cs
  if (skipBlanks rest).isEmpty then some value else none

end SvelteSyntax.Json
