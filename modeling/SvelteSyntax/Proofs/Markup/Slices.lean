import SvelteSyntax.Proofs.Markup.Encoded
import SvelteSyntax.Proofs.Markup.Termination
import SvelteSyntax.Proofs.Text.Position

namespace SvelteSyntax.Markup

open Text

/-- The same place in a text and in its bytes. -/
structure SamePlace (text : List Char) (c c' : Cursor) : Prop where
  rest : c'.rest = encoded c.rest
  prev : AsciiEq c.prev c'.prev
  offset : ∃ before, text = before ++ c.rest ∧ c.offset = byteLength before ∧
    c'.offset = byteLength (encoded before)

/-- A lexeme of a text and one of its bytes: the same characters at the same place. -/
structure SameLexeme (text : List Char) (l l' : Lexeme) : Prop where
  kind : l'.kind = l.kind
  value : l'.value = encoded l.value
  offset : ∃ before after, text = before ++ l.value ++ after ∧ l.offset = byteLength before ∧
    l'.offset = byteLength (encoded before)

structure SameReading (text : List Char) (r r' : Reading) : Prop where
  place : SamePlace text r.cursor r'.cursor
  modes : r'.modes = r.modes
  asks : r.modes.AskAscii

variable {text source : List Char} {c c' : Cursor} {n m : Nat} {r r' : Reading} {ls : List Lexeme}
  {place : Refusal}

theorem SamePlace.ofText (text : List Char) : SamePlace text (.ofText text) (.ofText (encoded text)) :=
  ⟨rfl, .inl rfl, [], rfl, rfl, rfl⟩

theorem SamePlace.skip (h : SamePlace text c c') (hn : Measures c.rest n m) :
    SamePlace text (c.skip n) (c'.skip m) := by
  obtain ⟨before, htext, hoffset, hoffset'⟩ := h.offset
  have htake : c'.rest.take m = encoded (c.rest.take n) := by rw [h.rest, hn]
  refine ⟨?_, ?_, before ++ c.rest.take n, ?_, ?_, ?_⟩
  · rw [Cursor.rest_skip, Cursor.rest_skip, h.rest, hn.drop]
  · simp only [Cursor.skip, htake]
    exact (getLast?_encoded _).or h.prev
  · rw [Cursor.rest_skip, List.append_assoc, List.take_append_drop, htext]
  · rw [Cursor.offset_skip, hoffset, byteLength_append]
  · rw [Cursor.offset_skip, hoffset', htake, encoded_append, byteLength_append]

theorem SamePlace.lexeme (h : SamePlace text c c') (hn : Measures c.rest n m) (kind : LexemeKind) :
    SameLexeme text ⟨kind, c.rest.take n, c.offset⟩ ⟨kind, c'.rest.take m, c'.offset⟩ := by
  obtain ⟨before, htext, hoffset, hoffset'⟩ := h.offset
  refine ⟨rfl, ?_, before, c.rest.drop n, ?_, hoffset, hoffset'⟩
  · rw [h.rest, hn]
  · rw [List.append_assoc, List.take_append_drop, htext]

theorem Modes.AskAscii.top {modes} (h : modes.AskAscii) : (Modes.top modes).asksAscii := by
  cases modes with
  | nil => rfl
  | cons mode outer => exact h mode (by simp)

theorem Reading.step_eq_error (h : r.modes.top.move r.cursor.prev r.cursor.rest = .error n) :
    r.step = .error (r.cursor.skip n) := by
  rw [Reading.step, h]

theorem SameReading.step (h : SameReading text r r') :
    (∃ place place', r.step = .error place ∧ r'.step = .error place' ∧
      SamePlace text place place') ∨
    ∃ l s l' s', r.step = .ok (l, s) ∧ r'.step = .ok (l', s') ∧
      Option.Rel (SameLexeme text) l l' ∧ SameReading text s s' := by
  have hmove := move_encoded h.asks.top h.place.prev r.cursor.rest
  rw [← h.place.rest, ← h.modes] at hmove
  generalize ho : r'.modes.top.move r.cursor.prev r.cursor.rest = o at hmove
  generalize ho' : r'.modes.top.move r'.cursor.prev r'.cursor.rest = o' at hmove
  rw [h.modes] at ho
  cases hmove with
  | refused hn =>
    exact .inl ⟨_, _, Reading.step_eq_error ho, Reading.step_eq_error ho', h.place.skip hn⟩
  | @moved move move' hm =>
    have hbefore := h.place.skip hm.before
    have hlexeme := hbefore.skip hm.lexeme
    refine .inr ⟨_, _, _, _, Reading.step_eq_ok.mpr ⟨move, ho, rfl, rfl⟩,
      Reading.step_eq_ok.mpr ⟨move', ho', rfl, rfl⟩, ?_, ?_⟩
    · have hkind := hm.kind
      have hlength := hm.lexeme
      unfold Move.lexemeLength at hlength
      unfold Reading.lexemeOf
      cases hl : move.lexeme with
      | none =>
        rw [hl, Option.map_none, Option.map_eq_none_iff] at hkind
        rw [hkind]
        exact .none
      | some p =>
        obtain ⟨kind, n⟩ := p
        rw [hl, Option.map_some, Option.map_eq_some_iff] at hkind
        obtain ⟨⟨kind', m⟩, hl', hkind⟩ := hkind
        obtain rfl : kind' = kind := hkind
        rw [hl, hl'] at hlength
        rw [hl']
        exact .some (hbefore.lexeme hlength kind')
    · refine ⟨hlexeme.skip hm.after, ?_, hm.asks _ h.asks⟩
      rw [hm.change, h.modes]

theorem SameReading.lexes (hls : Lexes r ls) (h : SameReading text r r') :
    ∃ ls', Lexes r' ls' ∧ List.Forall₂ (SameLexeme text) ls ls' := by
  induction hls generalizing r' with
  | atEnd hend => exact ⟨[], .atEnd (by rw [h.place.rest, hend, encoded_nil]), .nil⟩
  | move hrest hstep _ ih =>
    obtain ⟨place, _, herror, -⟩ | ⟨l, s, l', s', hok, hok', hlexeme, hsame⟩ := h.step
    · rw [hstep] at herror
      cases herror
    · obtain ⟨rfl, rfl⟩ := Prod.mk.inj (Except.ok.inj (hstep.symm.trans hok))
      obtain ⟨ls', hls', hall⟩ := ih hsame
      refine ⟨l'.toList ++ ls', .move ?_ hok' hls', ?_⟩
      · rwa [h.place.rest, ne_eq, encoded_eq_nil]
      · cases hlexeme with
        | none => exact hall
        | some hl => exact .cons hl hall

theorem SameReading.refuses (hplace : Refuses r place) (h : SameReading text r r') :
    ∃ place', Refuses r' place' ∧ SamePlace text place place' := by
  induction hplace generalizing r' with
  | here hrest hstep =>
    obtain ⟨place, place', herror, herror', hplace⟩ | ⟨_, _, _, _, hok, -⟩ := h.step
    · obtain rfl := Except.error.inj (hstep.symm.trans herror)
      exact ⟨place', .here (by rwa [h.place.rest, ne_eq, encoded_eq_nil]) herror', hplace⟩
    · rw [hstep] at hok
      cases hok
  | move hrest hstep _ ih =>
    obtain ⟨place, _, herror, -⟩ | ⟨l, s, l', s', hok, hok', -, hsame⟩ := h.step
    · rw [hstep] at herror
      cases herror
    · obtain ⟨rfl, rfl⟩ := Prod.mk.inj (Except.ok.inj (hstep.symm.trans hok))
      obtain ⟨place', hplace', hsame'⟩ := ih hsame
      exact ⟨place', .move (by rwa [h.place.rest, ne_eq, encoded_eq_nil]) hok' hplace', hsame'⟩

theorem Lexes.eq {ls'} (h : Lexes r ls) (h' : Lexes r ls') :
    ls = ls' := by
  induction h generalizing ls' with
  | atEnd hend =>
    cases h' with
    | atEnd => rfl
    | move hrest => exact absurd hend hrest
  | move hrest hstep _ ih =>
    cases h' with
    | atEnd hend => exact absurd hend hrest
    | move _ hstep' h' =>
      obtain ⟨rfl, rfl⟩ := Prod.mk.inj (Except.ok.inj (hstep.symm.trans hstep'))
      rw [ih h']

theorem Refuses.eq {place'} (h : Refuses r place) (h' : Refuses r place') :
    place = place' := by
  induction h with
  | here _ hstep =>
    cases h' with
    | here _ hstep' => exact Except.error.inj (hstep.symm.trans hstep')
    | move _ hstep' => cases hstep.symm.trans hstep'
  | move _ hstep _ ih =>
    cases h' with
    | here _ hstep' => cases hstep.symm.trans hstep'
    | move _ hstep' h' =>
      obtain ⟨rfl, rfl⟩ := Prod.mk.inj (Except.ok.inj (hstep.symm.trans hstep'))
      exact ih h'

theorem Lexes.not_refuses (h : Lexes r ls) :
    ¬Refuses r place := by
  induction h with
  | atEnd hend =>
    rintro (⟨hrest, -⟩ | ⟨hrest, -⟩)
    all_goals exact hrest hend
  | move _ hstep _ ih =>
    rintro (⟨-, hstep'⟩ | ⟨-, hstep', h'⟩)
    · cases hstep.symm.trans hstep'
    · obtain ⟨rfl, rfl⟩ := Prod.mk.inj (Except.ok.inj (hstep.symm.trans hstep'))
      exact ih h'

theorem scan_eq_ok_of_lexes (h : Lexes { cursor := .ofText source } ls) : scan source = .ok ls := by
  cases hscan : scan source with
  | ok ls' => rw [h.eq (lexes_of_scan hscan)]
  | error place => exact absurd (refuses_of_run hscan) h.not_refuses

theorem scan_eq_error_of_refuses (h : Refuses { cursor := .ofText source } place) :
    scan source = .error place := by
  cases hscan : scan source with
  | ok ls => exact absurd h (lexes_of_scan hscan).not_refuses
  | error place' => rw [h.eq (refuses_of_run hscan)]

theorem scan_encoded_of_ok (h : scan source = .ok ls) :
    ∃ ls', scan (encoded source) = .ok ls' ∧ List.Forall₂ (SameLexeme source) ls ls' := by
  have hsame : SameReading source ⟨.ofText source, []⟩ ⟨.ofText (encoded source), []⟩ :=
    ⟨.ofText source, rfl, by simp [Modes.AskAscii]⟩
  obtain ⟨ls', hls', hall⟩ := hsame.lexes (lexes_of_scan h)
  exact ⟨ls', scan_eq_ok_of_lexes hls', hall⟩

theorem scan_encoded_of_error (h : scan source = .error place) :
    ∃ place', scan (encoded source) = .error place' ∧ SamePlace source place place' := by
  have hsame : SameReading source ⟨.ofText source, []⟩ ⟨.ofText (encoded source), []⟩ :=
    ⟨.ofText source, rfl, by simp [Modes.AskAscii]⟩
  obtain ⟨place', hplace', hall⟩ := hsame.refuses (refuses_of_run h)
  exact ⟨place', scan_eq_error_of_refuses hplace', hall⟩

theorem Lexeme.In.border {l : Lexeme} (h : l.In text) :
    Border text l.offset ∧ Border text l.stop := by
  obtain ⟨before, after, htext, hoffset⟩ := h
  refine ⟨⟨before, l.value ++ after, ?_, hoffset⟩, before ++ l.value, after, htext, ?_⟩
  · rw [htext, List.append_assoc]
  · rw [Lexeme.stop, hoffset, byteLength_append]

theorem Lexes.value_ne_nil (h : Lexes r ls) (hp : r.modes.Path) :
    ∀ l ∈ ls, l.value ≠ [] := by
  induction h with
  | atEnd => simp
  | @move r _ _ _ hrest hstep _ ih =>
    obtain ⟨move, hmove, rfl, rfl⟩ := Reading.step_eq_ok.mp hstep
    have hpays := (sound_move hp hrest hmove).1
    intro l hl
    rcases List.mem_append.mp hl with hl | hl
    · obtain ⟨⟨kind, n⟩, hkind, rfl⟩ := Option.map_eq_some_iff.mp (Option.mem_toList.mp hl)
      obtain ⟨hn, hbefore⟩ := hpays.fills kind n hkind
      simp only [Cursor.rest_skip, ne_eq, List.take_eq_nil_iff, List.drop_eq_nil_iff]
      omega
    · exact ih hpays.path l hl

theorem Cursor.In.border (h : c.In text) : Border text c.offset := by
  obtain ⟨before, htext, hoffset, -⟩ := h
  exact ⟨before, c.rest, htext, hoffset⟩

theorem Refuses.in (h : Refuses r place) (hr : r.cursor.In text) :
    place.In text := by
  induction h with
  | @here r place _ hstep =>
    cases hmove : r.modes.top.move r.cursor.prev r.cursor.rest with
    | error n =>
      rw [Reading.step_eq_error hmove] at hstep
      cases hstep
      exact hr.skip n
    | ok move =>
      have hok := Reading.step_eq_ok.mpr ⟨move, hmove, rfl, rfl⟩
      cases hstep.symm.trans hok
  | move _ hstep _ ih =>
    obtain ⟨move, -, -, rfl⟩ := Reading.step_eq_ok.mp hstep
    exact ih (Reading.in_cursorAfter hr move)

theorem error_at_border {offset} (h : Border text offset) (message : String) (origin : Origin) :
    ∃ e : SyntaxError, Error.at (.ofText text) offset message origin = .malformed e ∧
      e.offset = offset ∧ e.origin = origin := by
  obtain ⟨p, hp⟩ := h.locate?
  refine ⟨⟨message, p.line, p.column + 1, offset, origin⟩, ?_, rfl, rfl⟩
  rw [Error.at, SyntaxError.at, locate, hp]
  rfl

theorem offset_cursorAfter (move : Move) (c : Cursor) :
    c.offset ≤ (Reading.cursorAfter move c).offset ∧
      ∀ l ∈ Reading.lexemeOf move c,
        c.offset ≤ l.offset ∧ l.stop ≤ (Reading.cursorAfter move c).offset := by
  constructor
  · simpa [Reading.cursorAfter] using c.offset_le_skip _
  · intro l hl
    obtain ⟨⟨kind, n⟩, hkind, rfl⟩ := Option.map_eq_some_iff.mp hl
    refine ⟨c.offset_le_skip _, ?_⟩
    simp only [Reading.cursorAfter, hkind, Option.map_some, Option.getD_some]
    exact Cursor.offset_le_skip ((c.skip move.before).skip n) move.after

theorem Lexes.ordered (h : Lexes r ls) :
    (∀ l ∈ ls, r.cursor.offset ≤ l.offset) ∧ ls.Pairwise fun a b => a.stop ≤ b.offset := by
  induction h with
  | atEnd => simp
  | move _ hstep _ ih =>
    obtain ⟨move, -, rfl, rfl⟩ := Reading.step_eq_ok.mp hstep
    obtain ⟨hcursor, hlexeme⟩ := offset_cursorAfter move _
    obtain ⟨hahead, hpair⟩ := ih
    constructor
    · intro l hl
      rcases List.mem_append.mp hl with hl | hl
      · exact (hlexeme l (Option.mem_toList.mp hl)).1
      · exact Nat.le_trans hcursor (hahead l hl)
    · refine List.pairwise_append.mpr ⟨?_, hpair, fun a ha b hb => ?_⟩
      · cases Reading.lexemeOf move _ <;> simp
      · exact Nat.le_trans (hlexeme a (Option.mem_toList.mp ha)).2 (hahead b hb)

/-- The lexer cuts a component between its characters only, also when it reads the bytes: every
lexeme is a piece of the text that is not empty, the pieces follow one another, and if the component
is refused, it is with a syntax error at a border. -/
theorem lex_slices (source : List Char) :
    (∀ ls, lex (.ofText source) source = .ok ls →
      (∀ l ∈ ls, l.value ≠ [] ∧ slice? l.offset l.stop source = some l.value ∧
        Border source l.offset ∧ Border source l.stop) ∧
      ls.Pairwise (fun a b => a.stop ≤ b.offset) ∧
      ∃ ls', scan (encoded source) = .ok ls' ∧ List.Forall₂ (SameLexeme source) ls ls') ∧
    ∀ e, lex (.ofText source) source = .error e →
      ∃ (s : SyntaxError) (place place' : Refusal), e = .malformed s ∧ s.origin = .lexer ∧
        Border source s.offset ∧ s.offset ≤ byteLength source ∧ s.offset = place.offset ∧
        scan (encoded source) = .error place' ∧ SamePlace source place place' := by
  unfold lex
  cases hscan : scan source with
  | ok ls =>
    refine ⟨?_, by simp⟩
    rintro _ ⟨⟩
    have hlexes := lexes_of_scan hscan
    refine ⟨fun l hl => ?_, hlexes.ordered.2, scan_encoded_of_ok hscan⟩
    have hin := Reading.run_in (Cursor.in_ofText source) hscan l hl
    exact ⟨hlexes.value_ne_nil trivial l hl, hin.slice?, hin.border⟩
  | error place =>
    refine ⟨by simp, ?_⟩
    rintro _ ⟨⟩
    have hborder := Cursor.In.border ((refuses_of_run hscan).in (Cursor.in_ofText source))
    obtain ⟨s, hs, hoffset, horigin⟩ := error_at_border hborder
      ("Unexpected token " ++ Quoted.encode (place.rest.take quotedLength)) .lexer
    obtain ⟨place', hplace', hsame⟩ := scan_encoded_of_error hscan
    rw [← hoffset] at hborder
    exact ⟨s, place, place', hs, horigin, hborder, hborder.le, hoffset, hplace', hsame⟩

end SvelteSyntax.Markup
