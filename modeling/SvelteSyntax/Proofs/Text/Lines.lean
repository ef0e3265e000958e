import Mathlib.Data.List.Infix
import Mathlib.Data.Prod.Lex
import SvelteSyntax.Proofs.Text.Position
import SvelteSyntax.Tree.Token
import SvelteSyntax.Error

namespace SvelteSyntax.Text

/-- Whether a line terminator ends between two parts of a text. CR and LF together are one. -/
def endsTerminator (before after : List Char) : Bool :=
  match before.getLast? with
  | some '\n' | some '\u2028' | some '\u2029' => true
  | some '\r' => after.head? != some '\n'
  | _ => false

/-- The offsets at which the line terminators of a text end. -/
def terminatorEnds (text : List Char) : List Nat :=
  (text.inits.filter fun before => endsTerminator before (text.drop before.length)).map byteLength

/-- The end of the last line terminator up to an offset, or the start of the text. -/
def lineStart (text : List Char) (offset : Nat) : Nat :=
  ((terminatorEnds text).filter (· ≤ offset)).getLast?.getD 0

theorem endsTerminator_nil (after : List Char) : endsTerminator [] after = false := rfl

theorem endsTerminator_concat (before : List Char) (c : Char) (after : List Char) :
    endsTerminator (before ++ [c]) after = endsLine c after.head? := by
  simp only [endsTerminator, endsLine, isLineTerminator, List.getLast?_concat]
  split <;> simp_all
  grind

theorem filter_inits (before after : List Char) :
    (before ++ after).inits.filter (byteLength · ≤ byteLength before) = before.inits := by
  have hin : before.inits.filter (byteLength · ≤ byteLength before) = before.inits := by
    refine List.filter_eq_self.mpr fun part hpart => decide_eq_true ?_
    obtain ⟨rest, rfl⟩ := (List.mem_inits _ _).mp hpart
    rw [byteLength_append]
    exact Nat.le_add_right ..
  have hout :
      (after.inits.tail.map (before ++ ·)).filter (byteLength · ≤ byteLength before) = [] := by
    refine List.filter_eq_nil_iff.mpr fun part hpart => ?_
    obtain ⟨more, hmore, rfl⟩ := List.mem_map.mp hpart
    have hpos : 0 < more.length := by
      refine List.length_pos_iff.mpr fun hnil => ?_
      cases after <;> simp [hnil] at hmore
    have := length_le_byteLength more
    rw [decide_eq_true_eq, byteLength_append]
    omega
  rw [List.inits_append, List.filter_append, hin, hout, List.append_nil]

theorem filter_terminatorEnds (before after : List Char) :
    (terminatorEnds (before ++ after)).filter (· ≤ byteLength before) =
      (before.inits.filter fun part =>
        endsTerminator part ((before ++ after).drop part.length)).map byteLength := by
  rw [terminatorEnds, List.filter_map, List.filter_comm, Function.comp_def, filter_inits]

theorem filter_terminatorEnds_concat (before : List Char) (c : Char) (after : List Char) :
    (terminatorEnds (before ++ c :: after)).filter (· ≤ byteLength (before ++ [c])) =
      (terminatorEnds (before ++ c :: after)).filter (· ≤ byteLength before) ++
        if endsLine c after.head? then [byteLength (before ++ [c])] else [] := by
  have hconcat := filter_terminatorEnds (before ++ [c]) after
  rw [List.append_assoc, List.singleton_append] at hconcat
  have hlast : (before ++ c :: after).drop (before ++ [c]).length = after := by simp
  rw [hconcat, filter_terminatorEnds, List.inits_append, List.filter_append, List.map_append]
  simp only [List.inits, List.map_cons, List.map_nil, List.tail_cons, List.filter_cons,
    List.filter_nil, hlast, endsTerminator_concat]
  split <;> rfl

/-- Walking up to a border counts the terminators that end up to it and the characters after the
last of them. -/
theorem pastAll_counts (before after : List Char) :
    (Position.pastAll ⟨1, 0⟩ before after).line =
        1 + (terminatorEnds (before ++ after)).countP (· ≤ byteLength before) ∧
      (slice? (lineStart (before ++ after) (byteLength before)) (byteLength before)
        (before ++ after)).map List.length =
          some (Position.pastAll ⟨1, 0⟩ before after).column := by
  -- The characters after the last terminator are a last part of the text before the border.
  suffices h : (Position.pastAll ⟨1, 0⟩ before after).line =
        1 + ((terminatorEnds (before ++ after)).filter (· ≤ byteLength before)).length ∧
      ∃ head tail, before = head ++ tail ∧
        lineStart (before ++ after) (byteLength before) = byteLength head ∧
        (Position.pastAll ⟨1, 0⟩ before after).column = tail.length by
    obtain ⟨hline, head, tail, rfl, hstart, hcolumn⟩ := h
    rw [List.countP_eq_length_filter, hstart, hcolumn, byteLength_append, slice?_append]
    exact ⟨by rwa [← byteLength_append], rfl⟩
  induction before using List.reverseRecOn generalizing after with
  | nil =>
    have hnone : (terminatorEnds ([] ++ after)).filter (· ≤ byteLength []) = [] := by
      rw [filter_terminatorEnds, List.inits, List.filter_singleton, endsTerminator_nil]
      rfl
    refine ⟨by rw [hnone]; rfl, [], [], rfl, ?_, rfl⟩
    rw [lineStart, hnone]
    rfl
  | append_singleton before c ih =>
    obtain ⟨hline, head, tail, hbefore, hstart, hcolumn⟩ := ih (c :: after)
    rw [List.append_assoc, List.singleton_append, lineStart, filter_terminatorEnds_concat,
      Position.pastAll_append, List.singleton_append, Position.pastAll, Position.pastAll,
      List.nil_append, Position.past]
    cases endsLine c after.head? with
    | true =>
      refine ⟨?_, before ++ [c], [], (List.append_nil _).symm, ?_, rfl⟩
      · simp [hline, Nat.add_assoc]
      · simp
    | false =>
      refine ⟨by simp [hline], head, tail ++ [c], ?_, ?_, ?_⟩
      · simp [hbefore]
      · simpa [lineStart] using hstart
      · simp [hcolumn]

section Located

variable {text : List Char} {offset : Nat} {p : Position}

theorem locate_eq_ok :
    locate (.ofText text) offset = .ok p ↔ (LineIndex.ofText text).locate? offset = some p := by
  unfold locate
  split <;> simp_all

/-- An offset is refused unless it is a border, and then its position is where walking leads. -/
theorem locate_eq_ok_iff :
    locate (.ofText text) offset = .ok p ↔
      ∃ before after, text = before ++ after ∧ offset = byteLength before ∧
        p = Position.pastAll ⟨1, 0⟩ before after := by
  rw [locate_eq_ok]
  constructor
  · intro h
    obtain ⟨before, after, rfl, rfl⟩ := border_of_locate? h
    rw [locate?_append] at h
    exact ⟨before, after, rfl, rfl, (Option.some.inj h).symm⟩
  · rintro ⟨before, after, rfl, rfl, rfl⟩
    exact locate?_append before after

end Located

/-- Exactly the borders of a text have positions. The line is one more than the number of line
terminators that end up to the offset, and the column is the number of characters between the last
of them and the offset. -/
theorem locate_counts_lines (text : List Char) (offset : Nat) :
    (∀ p, locate (.ofText text) offset = .ok p ↔
      Border text offset ∧ p.line = 1 + (terminatorEnds text).countP (· ≤ offset) ∧
        (slice? (lineStart text offset) offset text).map List.length = some p.column) ∧
    (¬Border text offset →
      locate (.ofText text) offset = .error (.outOfRange offset (byteLength text))) := by
  constructor
  · intro p
    rw [locate_eq_ok_iff]
    constructor
    · rintro ⟨before, after, rfl, rfl, rfl⟩
      exact ⟨⟨before, after, rfl, rfl⟩, pastAll_counts before after⟩
    · rintro ⟨⟨before, after, rfl, rfl⟩, hline, hcolumn⟩
      obtain ⟨hline', hcolumn'⟩ := pastAll_counts before after
      exact ⟨before, after, rfl, rfl, congrArg₂ Position.mk (hline.trans hline'.symm)
        (Option.some.inj (hcolumn.symm.trans hcolumn'))⟩
  · intro hborder
    unfold locate
    split
    · exact absurd (border_of_locate? ‹_›) hborder
    · rfl

example : terminatorEnds "a\r\nb\rc\n".toList = [3, 5, 7] := by decide

namespace Position

/-- By line, and within a line by column. -/
instance : LinearOrder Position :=
  LinearOrder.lift' (fun p => toLex (p.line, p.column)) fun p q h => by
    cases p
    cases q
    simpa using h

theorem lt_iff {p q : Position} :
    p < q ↔ p.line < q.line ∨ p.line = q.line ∧ p.column < q.column := Prod.Lex.lt_iff

theorem lt_past (p : Position) (c : Char) (next : Option Char) : p < p.past c next := by
  unfold past
  split
  · exact lt_iff.mpr (.inl (Nat.lt_succ_self _))
  · exact lt_iff.mpr (.inr ⟨rfl, Nat.lt_succ_self _⟩)

theorem lt_pastAll (p : Position) {before} (after : List Char) (h : before ≠ []) :
    p < p.pastAll before after := by
  induction before generalizing p with
  | nil => exact absurd rfl h
  | cons c before ih =>
    have hc := p.lt_past c (before ++ after).head?
    cases before with
    | nil => exact hc
    | cons d before => exact lt_trans hc (ih _ (List.cons_ne_nil d before))

end Position

section Order

variable {text : List Char} {a b : Nat} {p q : Position}

theorem lt_of_locate_of_lt (hp : locate (.ofText text) a = .ok p)
    (hq : locate (.ofText text) b = .ok q) (h : a < b) : p < q := by
  obtain ⟨xs, ys, rfl, rfl, rfl⟩ := locate_eq_ok_iff.mp hp
  obtain ⟨zs, ws, htext, rfl, rfl⟩ := locate_eq_ok_iff.mp hq
  rcases List.append_eq_append_iff.mp htext with ⟨more, rfl, rfl⟩ | ⟨more, rfl, rfl⟩
  · have hne : more ≠ [] := by
      rintro rfl
      simp at h
    rw [Position.pastAll_append]
    exact Position.lt_pastAll _ ws hne
  · rw [byteLength_append] at h
    omega

theorem locate_inj (hp : locate (.ofText text) a = .ok p)
    (hq : locate (.ofText text) b = .ok p) : a = b := by
  rcases Nat.lt_trichotomy a b with h | h | h
  · exact absurd (lt_of_locate_of_lt hp hq h) (lt_irrefl p)
  · exact h
  · exact absurd (lt_of_locate_of_lt hq hp h) (lt_irrefl p)

theorem locate_le_of_le (hp : locate (.ofText text) a = .ok p)
    (hq : locate (.ofText text) b = .ok q) (h : a ≤ b) : p ≤ q := by
  rcases Nat.lt_or_eq_of_le h with h | rfl
  · exact (lt_of_locate_of_lt hp hq h).le
  · cases hp.symm.trans hq
    exact le_refl p

theorem locate_lt_iff (hp : locate (.ofText text) a = .ok p)
    (hq : locate (.ofText text) b = .ok q) : p < q ↔ a < b := by
  refine ⟨fun hlt => ?_, lt_of_locate_of_lt hp hq⟩
  by_contra hle
  exact absurd hlt (locate_le_of_le hq hp (Nat.not_lt.mp hle)).not_gt

end Order

theorem Border.locate {text : List Char} {offset : Nat} (h : Border text offset) :
    ∃ p, locate (.ofText text) offset = .ok p := by
  obtain ⟨p, hp⟩ := h.locate?
  exact ⟨p, locate_eq_ok.mpr hp⟩

theorem exists_locations {text : List Char} {a : Nat} {p : Position}
    (hp : locate (.ofText text) a = .ok p) {tokens : List Token}
    (hin : ∀ t ∈ tokens, t.start ≤ t.stop ∧ Border text t.start ∧ Border text t.stop)
    (hafter : ∀ t ∈ tokens, a ≤ t.start) (horder : tokens.Pairwise fun t u => t.stop ≤ u.start) :
    ∃ locs, tokens.mapM (fun t => locateSpan (.ofText text) t.start t.stop) = .ok locs ∧
      (∀ l ∈ locs, p ≤ l.start ∧ l.start ≤ l.stop) ∧
      locs.Pairwise fun l m => l.start ≤ m.start ∧ l.stop ≤ m.start := by
  induction tokens generalizing a p with
  | nil => exact ⟨[], rfl, by simp, .nil⟩
  | cons t tokens ih =>
    rw [List.forall_mem_cons] at hin hafter
    obtain ⟨⟨hle, hstart, hstop⟩, hin⟩ := hin
    obtain ⟨hnext, horder⟩ := List.pairwise_cons.mp horder
    obtain ⟨q, hq⟩ := hstart.locate
    obtain ⟨r, hr⟩ := hstop.locate
    obtain ⟨locs, hlocs, hafter', horder'⟩ := ih hr hin hnext horder
    have hpq := locate_le_of_le hp hq hafter.1
    have hqr := locate_le_of_le hq hr hle
    refine ⟨⟨q, r⟩ :: locs, ?_, ?_, ?_⟩
    · rw [List.mapM_cons, hlocs, locateSpan, hq, hr]
      rfl
    · rw [List.forall_mem_cons]
      exact ⟨⟨hpq, hqr⟩, fun m hm =>
        ⟨hpq.trans (hqr.trans (hafter' m hm).1), (hafter' m hm).2⟩⟩
    · exact List.pairwise_cons.mpr
        ⟨fun m hm => ⟨hqr.trans (hafter' m hm).1, (hafter' m hm).1⟩, horder'⟩

/-- Offsets and their positions are in the same order, so different offsets have different
positions, and tokens that come one after the other have locations that do. -/
theorem locate_keeps_order (text : List Char) :
    (∀ a b, Border text a → Border text b →
      ∃ p q, locate (.ofText text) a = .ok p ∧ locate (.ofText text) b = .ok q ∧
        (p < q ↔ a < b) ∧ (p = q ↔ a = b)) ∧
    ∀ tokens : List Token,
      (∀ t ∈ tokens, t.start ≤ t.stop ∧ Border text t.start ∧ Border text t.stop) →
      tokens.Pairwise (fun t u => t.stop ≤ u.start) →
      ∃ locs, tokens.mapM (fun t => locateSpan (.ofText text) t.start t.stop) = .ok locs ∧
        (∀ l ∈ locs, l.start ≤ l.stop) ∧
        locs.Pairwise fun l m => l.start ≤ m.start ∧ l.stop ≤ m.start := by
  constructor
  · intro a b ha hb
    obtain ⟨p, hp⟩ := ha.locate
    obtain ⟨q, hq⟩ := hb.locate
    refine ⟨p, q, hp, hq, locate_lt_iff hp hq, fun h => locate_inj hp (h ▸ hq), ?_⟩
    rintro rfl
    cases hp.symm.trans hq
    rfl
  · intro tokens hin horder
    have hzero : Border text 0 := ⟨[], text, rfl, rfl⟩
    obtain ⟨p, hp⟩ := hzero.locate
    obtain ⟨locs, hlocs, hle, horder⟩ :=
      exists_locations hp hin (fun t _ => Nat.zero_le t.start) horder
    exact ⟨locs, hlocs, fun l hl => (hle l hl).2, horder⟩

end SvelteSyntax.Text
