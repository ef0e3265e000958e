import SvelteSyntax.Text.Unicode.Alphabetic
import SvelteSyntax.Text.Unicode.Mark
import SvelteSyntax.Text.Unicode.Number
import SvelteSyntax.Text.Unicode.Unprintable

namespace SvelteSyntax.Text

def inRuns : Nat → List Nat → Bool
  | n, gap :: run :: runs => gap ≤ n && (n < gap + run || inRuns (n - (gap + run)) runs)
  | _, _ => false

/-- Whether the character is beyond ASCII and has the property that a table lists. -/
def hasProperty (runs : List Nat) (c : Char) : Bool := 128 ≤ c.toNat && inRuns (c.toNat - 128) runs

/-- Whether the character lies in one of the ranges. -/
def isWithin (ranges : List (Nat × Nat)) (c : Char) : Bool :=
  ranges.any fun (first, last) => first ≤ c.toNat && c.toNat ≤ last

def isAsciiLetter (c : Char) : Bool := ('a' ≤ c && c ≤ 'z') || ('A' ≤ c && c ≤ 'Z')

def isAsciiUpper (c : Char) : Bool := 'A' ≤ c && c ≤ 'Z'

def isAsciiDigit (c : Char) : Bool := '0' ≤ c && c ≤ '9'

def isHexDigit (c : Char) : Bool :=
  isAsciiDigit c || ('a' ≤ c && c ≤ 'f') || ('A' ≤ c && c ≤ 'F')

def isAsciiAlphanumeric (c : Char) : Bool := isAsciiLetter c || isAsciiDigit c

/-- Space, tab, line feed, form feed and carriage return: the blanks of markup. -/
def isMarkupBlank (c : Char) : Bool :=
  c == ' ' || c == '\t' || c == '\n' || c == '\x0c' || c == '\r'

/-- The Unicode property White_Space. -/
def isBlank (c : Char) : Bool :=
  ('\t' ≤ c && c ≤ '\r') || c == ' ' || c == '\u0085' || c == '\u00a0' || c == '\u1680' ||
    ('\u2000' ≤ c && c ≤ '\u200a') || c == '\u2028' || c == '\u2029' || c == '\u202f' ||
    c == '\u205f' || c == '\u3000'

def isLineTerminator (c : Char) : Bool :=
  c == '\n' || c == '\r' || c == '\u2028' || c == '\u2029'

def isAlphabetic (c : Char) : Bool :=
  isAsciiLetter c || hasProperty Unicode.alphabeticRuns c

def isDecimalDigit (c : Char) : Bool :=
  isAsciiDigit c || hasProperty Unicode.digitRuns c

/-- The general categories Nd, Nl and No. -/
def isNumeric (c : Char) : Bool :=
  isDecimalDigit c || hasProperty Unicode.numberRuns c

def isMark (c : Char) : Bool := hasProperty Unicode.markRuns c

/-- The general category Me. -/
def isEnclosingMark (c : Char) : Bool :=
  isWithin [(0x488, 0x489), (0x1ABE, 0x1ABE), (0x20DD, 0x20E0), (0x20E2, 0x20E4),
    (0xA670, 0xA672)] c

/-- The general category Pc. -/
def isConnector (c : Char) : Bool :=
  isWithin [(0x5F, 0x5F), (0x203F, 0x2040), (0x2054, 0x2054), (0xFE33, 0xFE34),
    (0xFE4D, 0xFE4F), (0xFF3F, 0xFF3F)] c

def isJoinControl (c : Char) : Bool := c == '\u200c' || c == '\u200d'

def isWordChar (c : Char) : Bool :=
  isAlphabetic c || isMark c || isDecimalDigit c || isConnector c || isJoinControl c

/-- Alphabetic characters that are no letters: symbols made of letters, and the vertical tilde. -/
def isLetterlike (c : Char) : Bool :=
  isWithin [(0x24B6, 0x24E9), (0x2E2F, 0x2E2F), (0x1F130, 0x1F149),
    (0x1F150, 0x1F169), (0x1F170, 0x1F189)] c

/-- The property Other_ID_Start. -/
def isFormerStart (c : Char) : Bool :=
  isWithin [(0x1885, 0x1886), (0x2118, 0x2118), (0x212E, 0x212E), (0x309B, 0x309C)] c

/-- The property Other_ID_Continue. -/
def isFormerPart (c : Char) : Bool :=
  isWithin [(0xB7, 0xB7), (0x387, 0x387), (0x1369, 0x1371), (0x19DA, 0x19DA),
    (0x30FB, 0x30FB), (0xFF65, 0xFF65)] c

/-- Whether the character may start an identifier of a script. -/
def isIdentifierStart (c : Char) : Bool :=
  c == '$' || c == '_' || (isAlphabetic c && !isMark c && !isLetterlike c) || isFormerStart c

/-- Whether the character may continue an identifier of a script. -/
def isIdentifierPart (c : Char) : Bool :=
  isIdentifierStart c || (isMark c && !isEnclosingMark c) || isDecimalDigit c || isConnector c ||
    isFormerPart c || isJoinControl c

def isGraphemeExtend (c : Char) : Bool :=
  (isMark c && !hasProperty Unicode.spacingRuns c) ||
    isWithin [(0x200C, 0x200C), (0xFF9E, 0xFF9F), (0xE0020, 0xE007F)] c

def isPrintable (c : Char) : Bool :=
  if c.toNat < 128 then ' ' ≤ c && c ≤ '~' else !hasProperty Unicode.unprintableRuns c

/-- The text without the blanks at its ends. -/
def trim (blank : Char → Bool) (cs : List Char) : List Char :=
  ((cs.dropWhile blank).reverse.dropWhile blank).reverse

def hexValue (c : Char) : Nat :=
  if isAsciiDigit c then c.toNat - '0'.toNat
  else if 'a' ≤ c && c ≤ 'f' then c.toNat - 'a'.toNat + 10
  else if 'A' ≤ c && c ≤ 'F' then c.toNat - 'A'.toNat + 10
  else 0

end SvelteSyntax.Text
