import SvelteSyntax.Markup.Lexer
import SvelteSyntax.Proofs.Run

namespace SvelteSyntax.Markup

open Text Run

def Lexeme.In (l : Lexeme) (text : List Char) : Prop :=
  ∃ before after, text = before ++ l.value ++ after ∧ l.offset = byteLength before

variable {text source : List Char} {r : Reading} {ls : List Lexeme} {l : Lexeme} {c : Cursor}
  {fuel : Nat} {index : LineIndex}

theorem Lexeme.In.slice? (h : l.In text) :
    slice? l.offset l.stop text = some l.value := by
  obtain ⟨before, after, rfl, ho⟩ := h
  rw [Lexeme.stop, ho, slice?_append]

namespace Reading

def lexemeOf (move : Move) (c : Cursor) : Option Lexeme :=
  move.lexeme.map fun (kind, n) =>
    { kind, value := (c.skip move.before).rest.take n, offset := (c.skip move.before).offset }

/-- The place that a move leads to. -/
def cursorAfter (move : Move) (c : Cursor) : Cursor :=
  ((c.skip move.before).skip ((move.lexeme.map (·.2)).getD 0)).skip move.after

theorem step_eq_ok {r'} {l : Option Lexeme} :
    r.step = .ok (l, r') ↔
      ∃ move, r.modes.top.move r.cursor.prev r.cursor.rest = .ok move ∧
        l = lexemeOf move r.cursor ∧
        r' = { cursor := cursorAfter move r.cursor, modes := move.change r.modes } := by
  unfold step lexemeOf cursorAfter
  cases hm : r.modes.top.move r.cursor.prev r.cursor.rest with
  | error n => simp
  | ok move =>
    cases hl : move.lexeme with
    | none => simp [hl, eq_comm]
    | some p => simp [hl, eq_comm]

theorem in_cursorAfter (h : c.In text) (move : Move) :
    (cursorAfter move c).In text :=
  ((h.skip _).skip _).skip _

theorem in_lexemeOf (h : c.In text) {move} (hl : lexemeOf move c = some l) : l.In text := by
  obtain ⟨⟨kind, n⟩, -, rfl⟩ := Option.map_eq_some_iff.mp hl
  obtain ⟨before, ht, ho, -⟩ := h.skip move.before
  refine ⟨before, (c.skip move.before).rest.drop n, ?_, ho⟩
  rw [List.append_assoc, List.take_append_drop, ht]

theorem run_eq_ok_cons (hend : r.cursor.atEnd = false) (h : run (fuel + 1) r = .ok ls) :
    ∃ l r' ls', r.step = .ok (l, r') ∧ run fuel r' = .ok ls' ∧ ls = l.toList ++ ls' := by
  simp only [run, hend] at h
  obtain ⟨⟨l, r'⟩, hstep, h⟩ := bind_eq_ok.mp h
  obtain ⟨ls', hrun, h⟩ := bind_eq_ok.mp h
  cases h
  exact ⟨l, r', ls', hstep, hrun, rfl⟩

theorem run_in (hr : r.cursor.In text) (h : run fuel r = .ok ls) : ∀ l ∈ ls, l.In text := by
  induction fuel generalizing r ls with
  | zero =>
    cases h
    simp
  | succ fuel ih =>
    cases hend : r.cursor.atEnd with
    | true =>
      simp only [run, hend] at h
      cases h
      simp
    | false =>
      obtain ⟨first, r', ls', hstep, hrun, rfl⟩ := run_eq_ok_cons hend h
      obtain ⟨move, -, rfl, rfl⟩ := step_eq_ok.mp hstep
      intro l hl
      rcases List.mem_append.mp hl with hl | hl
      · exact in_lexemeOf hr (Option.mem_toList.mp hl)
      · exact ih (in_cursorAfter hr move) hrun l hl

end Reading

theorem scan_of_lex (h : lex index source = .ok ls) :
    scan source = .ok ls := by
  unfold lex at h
  split at h
  · cases h
    assumption
  · cases h

theorem lex_in (h : lex index source = .ok ls) :
    ∀ l ∈ ls, l.In source :=
  Reading.run_in (Cursor.in_ofText source) (scan_of_lex h)

end SvelteSyntax.Markup
