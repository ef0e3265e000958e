import SvelteSyntax.Proofs.Markup.Progress

namespace SvelteSyntax.Markup

open Text Run

/-- The most constructs that can stand around one, the text among them. -/
def Mode.level : Mode → Nat
  | .text => 0
  | .tag _ | .closingTag => 1
  | .attributes | .closingTagEnd => 2
  | .attribute => 3
  | .attributeName | .attributeValue => 4
  | .directiveName | .quotedValue _ => 5
  | .directiveModifiers | .mustache _ => 6
  | .expression | .elseBranch | .each _ | .await _ | .blockValue _ false | .debug | .blockEnd => 7
  | .elseCondition | .eachExpression | .eachContext | .eachIndex | .eachGroupedKey | .eachNamedKey
  | .awaitExpression | .blockValue _ true => 8

/-- The most that a construct and those around it can weigh together. -/
def Mode.load : Mode → Nat
  | .text => 0
  | .tag _ | .closingTag => 1
  | .attributes | .closingTagEnd => 2
  | .attribute => 3
  | .attributeName | .attributeValue => 4
  | .directiveName | .quotedValue _ => 5
  | .directiveModifiers => 6
  | .mustache true => 8
  | .mustache false => 10
  | .expression | .elseBranch | .each .tail | .await .middle | .await .tail | .blockValue _ false
  | .debug | .blockEnd => 9
  | .each .middle | .await .start => 11
  | .each .start => 13
  | .elseCondition | .eachContext | .eachIndex | .eachGroupedKey | .eachNamedKey | .awaitExpression
  | .blockValue _ true => 10
  | .eachExpression => 12

theorem Mode.level_lt_and_load_le {inner outer : Mode} (h : inner.nestsIn outer) :
    outer.level < inner.level ∧ inner.weight + outer.load ≤ inner.load := by
  revert h
  cases inner with
  | text => simp [Mode.nestsIn]
  | mustache entered =>
    simp only [Mode.nestsIn]
    cases entered <;> split <;> simp [level, load, weight]
  | each phase =>
    simp only [Mode.nestsIn]
    cases phase <;> split <;> simp [level, load, weight]
  | await phase =>
    simp only [Mode.nestsIn]
    cases phase <;> split <;> simp [level, load, weight]
  | blockValue kind compact =>
    cases compact <;> simp only [Mode.nestsIn] <;> split <;> simp [level, load, weight]
  | _ =>
    simp only [Mode.nestsIn]
    split <;> simp [level, load, weight]

theorem Mode.level_le (mode : Mode) : mode.level ≤ 8 := by
  unfold Mode.level
  split <;> omega

theorem Mode.load_add_eagerness_lt (mode : Mode) (head : Option Char) :
    mode.load + mode.eagerness head < movesPerChar := by
  unfold Mode.load Mode.eagerness movesPerChar
  split <;> simp <;> split <;> omega

namespace Modes.Path

variable {modes : Modes}

theorem length_le (h : modes.Path) : modes.length ≤ (Modes.top modes).level := by
  induction modes with
  | nil => exact Nat.zero_le _
  | cons mode outer ih =>
    have hlevel := (Mode.level_lt_and_load_le h.1).1
    have houter := ih h.2
    simp only [List.length_cons, Modes.top, List.head?_cons, Option.getD_some] at *
    omega

theorem weight_le (h : modes.Path) : modes.weight ≤ (Modes.top modes).load := by
  induction modes with
  | nil => exact Nat.zero_le _
  | cons mode outer ih =>
    have hload := (Mode.level_lt_and_load_le h.1).2
    have houter := ih h.2
    simp only [Modes.weight_cons, Modes.top, List.head?_cons, Option.getD_some] at *
    omega

end Modes.Path

/-- The readings that the lexer goes through on its way through a text. -/
inductive Reached (source : List Char) : Reading → Prop
  | start : Reached source { cursor := .ofText source }
  | step {r r' l} (h : Reached source r) (hrest : r.cursor.rest ≠ [])
      (hstep : r.step = .ok (l, r')) : Reached source r'

variable {r : Reading}

theorem Reached.path {source} (h : Reached source r) : r.modes.Path := by
  induction h with
  | start => trivial
  | step _ hrest hstep ih =>
    obtain ⟨move, hmove, -, rfl⟩ := Reading.step_eq_ok.mp hstep
    exact (sound_move ih hrest hmove).1.path

/-- The reading after some moves, unless one of them is refused. -/
def Reading.after : Nat → Reading → Except Refusal Reading
  | 0, r => .ok r
  | n + 1, r => do
    let (_, r) ← r.step
    r.after n

/-- After so many moves one has been refused or the lexer is further on. -/
def Reading.LeadsOn (n : Nat) (r : Reading) : Prop :=
  (∃ place, r.after n = .error place) ∨ ∃ r', r.after n = .ok r' ∧ r.cursor.offset < r'.cursor.offset

theorem exists_leadsOn (hp : r.modes.Path) (hrest : r.cursor.rest ≠ []) :
    ∃ n ≤ r.modes.weight + (Modes.top r.modes).eagerness r.cursor.rest.head? + 1, r.LeadsOn n := by
  induction hk : r.modes.weight + (Modes.top r.modes).eagerness r.cursor.rest.head?
    using Nat.strongRecOn generalizing r with
  | _ k ih =>
    cases hstep : r.step with
    | error place =>
      exact ⟨1, by omega, .inl ⟨place, by simp [Reading.after, hstep, bind, Except.bind]⟩⟩
    | ok out =>
      obtain ⟨l, r'⟩ := out
      have hafter (n : Nat) : r.after (n + 1) = r'.after n := by
        simp [Reading.after, hstep, bind, Except.bind]
      obtain ⟨move, hmove, -, rfl⟩ := Reading.step_eq_ok.mp hstep
      have hpays := (sound_move hp hrest hmove).1
      have hcursor : Reading.cursorAfter move r.cursor = r.cursor.skip move.length := by
        simp [Reading.cursorAfter, Move.length]
      by_cases hlt : r.cursor.offset < (r.cursor.skip move.length).offset
      · exact ⟨1, by omega, .inr ⟨_, hafter 0, by rwa [hcursor]⟩⟩
      · -- The place is the same, so the move has opened or left a construct.
        have hsame : r.cursor.skip move.length = r.cursor := by
          have hle := r.cursor.offset_le_skip move.length
          simpa using Cursor.skip_eq_of_offset (m := move.length) (n := 0)
            (by rw [Cursor.skip_zero]; omega)
        have hdue := hpays.due
        rw [← Cursor.rest_skip, hsame] at hdue
        have hless : (move.change r.modes).weight +
            (Modes.top (move.change r.modes)).eagerness r.cursor.rest.head? < k := by
          simp only [movesDue] at hdue
          omega
        obtain ⟨n, hn, hleads⟩ :=
          ih _ hless (r := ⟨r.cursor, move.change r.modes⟩) hpays.path hrest rfl
        refine ⟨n + 1, by omega, ?_⟩
        simpa only [Reading.LeadsOn, hafter, hcursor, hsame] using hleads

inductive Refuses : Reading → Refusal → Prop
  | here {r place} (hrest : r.cursor.rest ≠ []) (hstep : r.step = .error place) : Refuses r place
  | move {r r' l place} (hrest : r.cursor.rest ≠ [])
      (hstep : r.step = .ok (l, r')) (h : Refuses r' place) : Refuses r place

theorem refuses_of_run {fuel place} (h : Reading.run fuel r = .error place) :
    Refuses r place := by
  induction fuel generalizing r with
  | zero => cases h
  | succ fuel ih =>
    cases hend : r.cursor.atEnd with
    | true => simp [Reading.run, hend] at h
    | false =>
      have hrest : r.cursor.rest ≠ [] := fun hnil => by simp [Cursor.atEnd, hnil] at hend
      cases hstep : r.step with
      | error place' =>
        simp [Reading.run, hend, hstep, bind, Except.bind] at h
        exact .here hrest (h ▸ hstep)
      | ok out =>
        obtain ⟨l, r'⟩ := out
        refine .move hrest hstep (ih ?_)
        cases hrun : r'.run fuel with
        | error place' => simpa [Reading.run, hend, hstep, hrun, bind, Except.bind] using h
        | ok ls => simp [Reading.run, hend, hstep, hrun, bind, Except.bind, pure, Except.pure] at h

/-- Whatever the text is, the open constructs are a path of at most nine with the text itself, a few
moves lead on from every place before the end, and in the end the whole text is read or refused. -/
theorem lex_terminates (index : LineIndex) (source : List Char) :
    (∀ r, Reached source r → r.modes.Path ∧ r.modes.length + 1 ≤ 9 ∧
      (r.cursor.rest ≠ [] → ∃ n ≤ movesPerChar, r.LeadsOn n)) ∧
    ((∃ ls, lex index source = .ok ls ∧ Lexes { cursor := .ofText source } ls) ∨
      ∃ e place, lex index source = .error e ∧ Refuses { cursor := .ofText source } place) := by
  constructor
  · intro r hr
    have hp := hr.path
    have hlength := hp.length_le
    have hlevel := (Modes.top r.modes).level_le
    refine ⟨hp, by omega, fun hrest => ?_⟩
    obtain ⟨n, hn, hleads⟩ := exists_leadsOn hp hrest
    have hweight := hp.weight_le
    have hload := (Modes.top r.modes).load_add_eagerness_lt r.cursor.rest.head?
    exact ⟨n, by omega, hleads⟩
  · unfold lex
    cases hscan : scan source with
    | ok ls => exact .inl ⟨ls, rfl, lexes_of_scan hscan⟩
    | error place => exact .inr ⟨_, place, rfl, refuses_of_run hscan⟩

end SvelteSyntax.Markup
