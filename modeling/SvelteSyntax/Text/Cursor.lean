import SvelteSyntax.Text.Bytes

namespace SvelteSyntax.Text

structure Cursor where
  offset : Nat := 0
  prev : Option Char := none
  rest : List Char
  deriving DecidableEq, Repr, Inhabited

namespace Cursor

/-- The place before the first character. -/
def ofText (cs : List Char) : Cursor := { rest := cs }

/-- The place `n` characters further on, or the end of the text if there are fewer. -/
def skip (n : Nat) (c : Cursor) : Cursor where
  offset := c.offset + byteLength (c.rest.take n)
  prev := (c.rest.take n).getLast?.or c.prev
  rest := c.rest.drop n

def peek? (c : Cursor) : Option Char := c.rest.head?

def atEnd (c : Cursor) : Bool := c.rest.isEmpty

/-- The place lies in the text. -/
def In (c : Cursor) (text : List Char) : Prop :=
  ∃ before, text = before ++ c.rest ∧ c.offset = byteLength before ∧ c.prev = before.getLast?

theorem in_ofText (cs : List Char) : (ofText cs).In cs := ⟨[], rfl, rfl, rfl⟩

/-- Moving forward does not leave the text. -/
theorem In.skip {c : Cursor} {text : List Char} (h : c.In text) (n : Nat) : (c.skip n).In text := by
  obtain ⟨before, ht, ho, hp⟩ := h
  refine ⟨before ++ c.rest.take n, ?_, ?_, ?_⟩
  · simp [Cursor.skip, ht]
  · simp [Cursor.skip, ho]
  · simp [Cursor.skip, hp, List.getLast?_append]

end Cursor

end SvelteSyntax.Text
