import SvelteSyntax.Text.Bytes
import SvelteSyntax.Text.CharClass

namespace SvelteSyntax.Text

structure Position where
  line : Nat
  column : Nat
  deriving DecidableEq, Repr, Inhabited

structure Location where
  start : Position
  stop : Position
  deriving DecidableEq, Repr, Inhabited

/-- One line of a text: its first offset and its characters, the terminator included. -/
structure Line where
  start : Nat
  chars : List Char
  deriving DecidableEq, Repr

/-- The lines from offset `start` on. A text that ends in a terminator has an empty last line. -/
def linesFrom (start : Nat) : List Char → List Line
  | [] => [⟨start, []⟩]
  | '\r' :: '\n' :: cs => ⟨start, ['\r', '\n']⟩ :: linesFrom (start + 2) cs
  | c :: cs =>
    if isLineTerminator c then ⟨start, [c]⟩ :: linesFrom (start + c.utf8Size) cs
    else match linesFrom (start + c.utf8Size) cs with
      | line :: lines => ⟨start, c :: line.chars⟩ :: lines
      | [] => [⟨start, [c]⟩]

def linesOf (cs : List Char) : List Line := linesFrom 0 cs

/-- The number of characters in the first `n` bytes, if they end at a border. -/
def columnAt : Nat → List Char → Option Nat
  | 0, _ => some 0
  | _ + 1, [] => none
  | n + 1, c :: cs =>
    if c.utf8Size ≤ n + 1 then (columnAt (n + 1 - c.utf8Size) cs).map (· + 1) else none

def locateIn (offset number : Nat) : List Line → Option Position
  | [] => none
  | [line] => (columnAt (offset - line.start) line.chars).map (⟨number, ·⟩)
  | line :: next :: lines =>
    if next.start ≤ offset then locateIn offset (number + 1) (next :: lines)
    else (columnAt (offset - line.start) line.chars).map (⟨number, ·⟩)

/-- A text cut into lines, to look up many offsets. -/
structure LineIndex where
  lines : List Line
  size : Nat
  deriving Repr

def LineIndex.ofText (cs : List Char) : LineIndex := ⟨linesOf cs, byteLength cs⟩

/-- The position of an offset: none when it lies outside the text or inside a character. -/
def LineIndex.locate? (index : LineIndex) (offset : Nat) : Option Position :=
  locateIn offset 1 index.lines

end SvelteSyntax.Text
