import SvelteSyntax.Markup.Balanced
import SvelteSyntax.Proofs.Text.Scan

namespace SvelteSyntax.Markup.Balanced

open Text

variable {stop : Stop} {frames : List Frame} {prev : Option Char} {marks cs : List Char}

/-- Script text is the beginning of what it is taken from. It ends where to stop, outside all
brackets, or takes everything. -/
theorem takeFrom_append (stop : Stop) (frames : List Frame) (prev : Option Char) (cs : List Char) :
    ∃ rest, cs = takeFrom stop frames prev cs ++ rest ∧
      (rest ≠ [] → ∃ prev', stop prev' rest) := by
  induction cs generalizing frames prev with
  | nil => exact ⟨[], by simp [takeFrom]⟩
  | cons c cs ih =>
    rw [takeFrom]
    split
    · rename_i hstop
      exact ⟨c :: cs, rfl, fun _ => ⟨prev, hstop.2⟩⟩
    · obtain ⟨rest, hrest, hstop⟩ := ih (step frames c cs.head?) (some c)
      refine ⟨rest, ?_, hstop⟩
      rw [List.cons_append, ← hrest]

theorem takeUntil_append (stop : Stop) (prev : Option Char) (cs : List Char) :
    ∃ rest, cs = takeUntil stop prev cs ++ rest ∧ (rest ≠ [] → ∃ prev', stop prev' rest) :=
  takeFrom_append ..

theorem length_takeUntil_le (stop : Stop) (prev : Option Char) (cs : List Char) :
    (takeUntil stop prev cs).length ≤ cs.length := by
  obtain ⟨rest, hrest, -⟩ := takeUntil_append stop prev cs
  have := congrArg List.length hrest
  rw [List.length_append] at this
  omega

theorem take_length_takeUntil (stop : Stop) (prev : Option Char) (cs : List Char) :
    cs.take (takeUntil stop prev cs).length = takeUntil stop prev cs := by
  obtain ⟨rest, hrest, -⟩ := takeUntil_append stop prev cs
  have := congrArg (List.take (takeUntil stop prev cs).length) hrest
  rwa [List.take_left] at this

theorem takeUntil_append_drop (stop : Stop) (prev : Option Char) (cs : List Char) :
    takeUntil stop prev cs ++ cs.drop (takeUntil stop prev cs).length = cs := by
  have := List.take_append_drop (takeUntil stop prev cs).length cs
  rwa [take_length_takeUntil] at this

theorem head?_drop_takeUntil_atAny (marks : List Char) (prev : Option Char) (cs : List Char) :
    (cs.drop (takeUntil (atAny marks) prev cs).length).head?.all marks.contains := by
  obtain ⟨rest, hrest, hstop⟩ := takeUntil_append (atAny marks) prev cs
  have hdrop := congrArg (List.drop (takeUntil (atAny marks) prev cs).length) hrest
  rw [List.drop_left] at hdrop
  rw [hdrop]
  cases rest with
  | nil => rfl
  | cons d rest =>
    obtain ⟨prev', h⟩ := hstop (by simp)
    simpa [atAny] using h

/-- What stands before a text does not matter if only characters are looked for. -/
theorem takeFrom_atAny_prev (marks : List Char) (frames : List Frame) (prev prev' : Option Char)
    (cs : List Char) :
    takeFrom (atAny marks) frames prev cs = takeFrom (atAny marks) frames prev' cs := by
  cases cs <;> simp [takeFrom, atAny]

theorem takeUntil_atAny_prev (marks : List Char) (prev prev' : Option Char) (cs : List Char) :
    takeUntil (atAny marks) prev cs = takeUntil (atAny marks) prev' cs :=
  takeFrom_atAny_prev ..

/-- The characters that mean something in code. -/
def isMeaningful (c : Char) : Bool :=
  ['"', '\'', '`', '/', '{', '[', '(', '}', ']', ')'].contains c

theorem stepCode_of_meaningless {c} (h : isMeaningful c = false) (depth : Nat) (outer : List Frame)
    (next : Option Char) :
    stepCode depth outer c next = .code depth :: outer := by
  simp [isMeaningful] at h
  unfold stepCode
  split <;> simp_all

end SvelteSyntax.Markup.Balanced
