import SvelteSyntax.Text.Position

namespace SvelteSyntax.Text

/-- An offset between two characters of a text, or at one of its ends. -/
def Border (text : List Char) (offset : Nat) : Prop :=
  ∃ before after, text = before ++ after ∧ offset = byteLength before

variable {offset : Nat} {text cs : List Char} {p : Position}

theorem Border.le (h : Border text offset) :
    offset ≤ byteLength text := by
  obtain ⟨before, after, rfl, rfl⟩ := h
  rw [byteLength_append]
  exact Nat.le_add_right ..

/-- Whether a line ends after a character. CR and LF together end one line. -/
def endsLine (c : Char) (next : Option Char) : Bool :=
  isLineTerminator c && !(c == '\r' && next == some '\n')

theorem endsLine_iff {c next} :
    endsLine c next ↔ isLineTerminator c ∧ (c = '\r' → next ≠ some '\n') := by
  simp [endsLine, Decidable.imp_iff_not_or]

namespace Position

/-- The position after one more character. -/
def past (p : Position) (c : Char) (next : Option Char) : Position :=
  if endsLine c next then ⟨p.line + 1, 0⟩ else ⟨p.line, p.column + 1⟩

/-- The position after the characters `before`, which `after` follows. -/
def pastAll (p : Position) : (before after : List Char) → Position
  | [], _ => p
  | c :: before, after => (p.past c (before ++ after).head?).pastAll before after

theorem pastAll_append (p : Position) (xs ys after : List Char) :
    p.pastAll (xs ++ ys) after = (p.pastAll xs (ys ++ after)).pastAll ys after := by
  induction xs generalizing p with
  | nil => rfl
  | cons c xs ih => rw [List.cons_append, pastAll, pastAll, ih, List.append_assoc]

end Position

theorem columnAt_append (xs ys : List Char) :
    columnAt (byteLength xs) (xs ++ ys) = some xs.length := by
  induction xs with
  | nil => simp [columnAt]
  | cons c cs ih =>
    have hc := c.utf8Size_pos
    obtain ⟨n, hn⟩ : ∃ n, c.utf8Size + byteLength cs = n + 1 :=
      ⟨c.utf8Size + byteLength cs - 1, by omega⟩
    rw [byteLength_cons, List.cons_append, hn, columnAt, if_pos (by omega),
      show n + 1 - c.utf8Size = byteLength cs by omega, ih]
    rfl

theorem border_of_columnAt {n k} (h : columnAt n cs = some k) :
    Border cs n := by
  fun_induction columnAt n cs generalizing k with
  | case1 cs => exact ⟨[], cs, rfl, rfl⟩
  | case2 => cases h
  | case3 n c cs hle ih =>
    obtain ⟨k, hk, -⟩ := Option.map_eq_some_iff.mp h
    obtain ⟨before, after, rfl, hn⟩ := ih hk
    exact ⟨c :: before, after, rfl, by rw [byteLength_cons]; omega⟩
  | case4 => cases h

theorem linesFrom_eq_cons (start : Nat) (cs : List Char) :
    ∃ line lines, linesFrom start cs = line :: lines ∧ line.start = start ∧
      ∀ next ∈ lines, start < next.start := by
  fun_induction linesFrom start cs with
  | case1 start => exact ⟨_, [], rfl, rfl, by simp⟩
  | case2 start cs ih =>
    obtain ⟨line, lines, hlines, hstart, hafter⟩ := ih
    refine ⟨_, _, rfl, rfl, ?_⟩
    rw [hlines]
    rintro next (_ | ⟨_, hnext⟩)
    · omega
    · have := hafter next hnext
      omega
  | case3 start c cs hcr hterminator ih =>
    have hc := c.utf8Size_pos
    obtain ⟨line, lines, hlines, hstart, hafter⟩ := ih
    refine ⟨_, _, rfl, rfl, ?_⟩
    rw [hlines]
    rintro next (_ | ⟨_, hnext⟩)
    · omega
    · have := hafter next hnext
      omega
  | case4 start c cs hcr hterminator line lines hlines ih =>
    have hc := c.utf8Size_pos
    obtain ⟨line', lines', hlines', -, hafter⟩ := ih
    obtain ⟨rfl, rfl⟩ := List.cons.inj (hlines.symm.trans hlines')
    refine ⟨_, _, rfl, rfl, fun next hnext => ?_⟩
    have := hafter next hnext
    omega
  | case5 start c cs hcr hterminator hlines ih =>
    obtain ⟨line, lines, hlines', -⟩ := ih
    rw [hlines] at hlines'
    cases hlines'

theorem part_of_mem_linesFrom {start : Nat} {line : Line} (h : line ∈ linesFrom start cs) :
    ∃ before after, cs = before ++ line.chars ++ after ∧
      line.start = start + byteLength before := by
  have hlater {start : Nat} {cs : List Char} {line : Line} (xs : List Char)
      (h : ∃ before after, cs = before ++ line.chars ++ after ∧
        line.start = start + byteLength xs + byteLength before) :
      ∃ before after, xs ++ cs = before ++ line.chars ++ after ∧
        line.start = start + byteLength before := by
    obtain ⟨before, after, rfl, hstart⟩ := h
    refine ⟨xs ++ before, after, by simp, ?_⟩
    rw [hstart, byteLength_append, Nat.add_assoc]
  fun_induction linesFrom start cs generalizing line with
  | case1 start =>
    cases List.mem_singleton.mp h
    exact ⟨[], [], rfl, rfl⟩
  | case2 start cs ih =>
    rcases List.mem_cons.mp h with rfl | h
    · exact ⟨[], cs, rfl, rfl⟩
    · exact hlater ['\r', '\n'] (ih h)
  | case3 start c cs hcr hterminator ih =>
    rcases List.mem_cons.mp h with rfl | h
    · exact ⟨[], cs, rfl, rfl⟩
    · exact hlater [c] (ih h)
  | case4 start c cs hcr hterminator first lines hlines ih =>
    rw [hlines] at ih
    rcases List.mem_cons.mp h with rfl | h
    · obtain ⟨first', lines', hlines', hstart, -⟩ := linesFrom_eq_cons (start + c.utf8Size) cs
      obtain ⟨rfl, rfl⟩ := List.cons.inj (hlines.symm.trans hlines')
      obtain ⟨before, after, hcs, hbefore⟩ := ih (List.mem_cons_self ..)
      have hnil : before = [] := by
        have := length_le_byteLength before
        exact List.length_eq_zero_iff.mp (by omega)
      exact ⟨[], after, by simp [hcs, hnil], rfl⟩
    · exact hlater [c] (ih (List.mem_cons_of_mem _ h))
  | case5 start c cs hcr hterminator hlines ih =>
    cases List.mem_singleton.mp h
    exact ⟨[], cs, rfl, rfl⟩

section Located

variable {offset start : Nat} (number : Nat) {line : Line} {lines : List Line}
  {xs ys cs : List Char}

theorem locateIn_first (hchars : line.chars = xs ++ ys)
    (hoffset : offset = line.start + byteLength xs)
    (h : ∀ next ∈ lines, offset < next.start) :
    locateIn offset number (line :: lines) = some ⟨number, xs.length⟩ := by
  have hcolumn : (columnAt (offset - line.start) line.chars).map (Position.mk number) =
      some ⟨number, xs.length⟩ := by
    rw [hoffset, Nat.add_sub_cancel_left, hchars, columnAt_append]
    rfl
  cases lines with
  | nil => exact hcolumn
  | cons next lines =>
    rw [locateIn, if_neg (Nat.not_le.mpr (h next (List.mem_cons_self ..))), hcolumn]

theorem locateIn_before (hchars : line.chars = xs ++ ys)
    (hoffset : offset = line.start + byteLength xs) (h : offset < start) :
    locateIn offset number (line :: linesFrom start cs) = some ⟨number, xs.length⟩ := by
  refine locateIn_first number hchars hoffset fun next hnext => ?_
  obtain ⟨before, after, -, hstart⟩ := part_of_mem_linesFrom hnext
  omega

theorem locateIn_after (line : Line) (cs : List Char) (h : start ≤ offset) :
    locateIn offset number (line :: linesFrom start cs) =
      locateIn offset (number + 1) (linesFrom start cs) := by
  obtain ⟨next, lines, hlines, hstart, -⟩ := linesFrom_eq_cons start cs
  rw [hlines, locateIn, if_pos (hstart ▸ h)]

/-- The lines of a text give the position that walking through it leads to. In the line where the
walk begins, `passed` stands before it. -/
theorem locateIn_linesFrom {first passed before after} (hcs : cs = before ++ after)
    (hlines : linesFrom start cs = line :: lines) (hstart : start = first.start + byteLength passed)
    (hchars : first.chars = passed ++ line.chars) :
    locateIn (start + byteLength before) number (first :: lines) =
      some (Position.pastAll ⟨number, passed.length⟩ before after) := by
  fun_induction linesFrom start cs generalizing number first passed before line lines with
  | case1 start =>
    obtain ⟨rfl, rfl⟩ := List.append_eq_nil_iff.mp hcs.symm
    obtain ⟨rfl, rfl⟩ := List.cons.inj hlines
    exact locateIn_first number hchars hstart (by simp)
  | case2 start cs ih =>
    obtain ⟨rfl, rfl⟩ := List.cons.inj hlines
    obtain ⟨next, lines, hnext, hnextStart, -⟩ := linesFrom_eq_cons (start + 2) cs
    rcases before with _ | ⟨c, _ | ⟨d, before⟩⟩
    · exact locateIn_before number hchars hstart (Nat.lt_add_of_pos_right (by decide))
    · obtain ⟨rfl, rfl⟩ := List.cons.inj hcs
      have hcr := @locateIn_before (start + 1) (start + 2) number first (passed ++ ['\r']) ['\n'] cs
        (by simp [hchars]) (by rw [hstart, byteLength_append]; rfl) (Nat.lt_succ_self _)
      rw [List.length_append] at hcr
      exact hcr
    · obtain ⟨rfl, htail⟩ := List.cons.inj hcs
      obtain ⟨rfl, rfl⟩ := List.cons.inj htail
      have hoffset :
          start + byteLength ('\r' :: '\n' :: before) = start + 2 + byteLength before := by
        simp only [byteLength_cons, ← Nat.add_assoc]
        rfl
      rw [hoffset, locateIn_after number first _ (Nat.le_add_right ..), hnext]
      exact @ih (number + 1) next lines next [] before rfl hnext hnextStart.symm rfl
  | case3 start c cs hcr hterminator ih =>
    obtain ⟨rfl, rfl⟩ := List.cons.inj hlines
    obtain ⟨next, lines, hnext, hnextStart, -⟩ := linesFrom_eq_cons (start + c.utf8Size) cs
    cases before with
    | nil => exact locateIn_before number hchars hstart (Nat.lt_add_of_pos_right c.utf8Size_pos)
    | cons d before =>
      obtain ⟨rfl, rfl⟩ := List.cons.inj hcs
      rw [byteLength_cons, ← Nat.add_assoc, locateIn_after number first _ (Nat.le_add_right ..),
        hnext]
      have hends : endsLine c (before ++ after).head? := by
        refine endsLine_iff.mpr ⟨hterminator, fun hc hhead => ?_⟩
        obtain ⟨rest, hrest⟩ := List.head?_eq_some_iff.mp hhead
        exact hcr rest hc hrest
      rw [Position.pastAll, Position.past, if_pos hends]
      exact @ih (number + 1) next lines next [] before rfl hnext hnextStart.symm rfl
  | case4 start c cs hcr hterminator line' lines' hlines' ih =>
    obtain ⟨rfl, rfl⟩ := List.cons.inj hlines
    cases before with
    | nil =>
      refine locateIn_first number hchars hstart fun next hnext => ?_
      obtain ⟨line'', lines'', h'', -, hafter⟩ := linesFrom_eq_cons (start + c.utf8Size) cs
      obtain ⟨rfl, rfl⟩ := List.cons.inj (hlines'.symm.trans h'')
      have := hafter next hnext
      rw [byteLength_nil]
      omega
    | cons d before =>
      obtain ⟨rfl, rfl⟩ := List.cons.inj hcs
      have hends : endsLine c (before ++ after).head? = false := by
        simp [endsLine, hterminator]
      rw [Position.pastAll, Position.past, hends, byteLength_cons, ← Nat.add_assoc]
      have hrest := @ih number line' lines' first (passed ++ [c]) before rfl hlines'
        (by simp [hstart, Nat.add_assoc]) (by simp [hchars])
      rw [List.length_append] at hrest
      exact hrest
  | case5 start c cs hcr hterminator hlines' ih =>
    obtain ⟨line, lines, hlines'', -⟩ := linesFrom_eq_cons (start + c.utf8Size) cs
    rw [hlines'] at hlines''
    cases hlines''

theorem columnAt_of_locateIn (hfirst : ∀ line ∈ lines.head?, line.start ≤ offset)
    (h : locateIn offset number lines = some p) :
    ∃ line ∈ lines, line.start ≤ offset ∧
      columnAt (offset - line.start) line.chars = some p.column := by
  fun_induction locateIn offset number lines with
  | case1 => cases h
  | case2 number line =>
    obtain ⟨column, hcolumn, rfl⟩ := Option.map_eq_some_iff.mp h
    exact ⟨line, List.mem_singleton_self line, hfirst line rfl, hcolumn⟩
  | case3 number line next lines hnext ih =>
    obtain ⟨line', hmem, hline'⟩ := ih (by simpa using hnext) h
    exact ⟨line', List.mem_cons_of_mem line hmem, hline'⟩
  | case4 number line next lines hnext =>
    obtain ⟨column, hcolumn, rfl⟩ := Option.map_eq_some_iff.mp h
    exact ⟨line, List.mem_cons_self .., hfirst line rfl, hcolumn⟩

end Located

theorem locate?_append (before after : List Char) :
    (LineIndex.ofText (before ++ after)).locate? (byteLength before) =
      some (Position.pastAll ⟨1, 0⟩ before after) := by
  obtain ⟨line, lines, hlines, hstart, -⟩ := linesFrom_eq_cons 0 (before ++ after)
  have hlocate :=
    @locateIn_linesFrom 0 1 line lines _ line [] before after rfl hlines hstart.symm rfl
  rw [Nat.zero_add] at hlocate
  rw [LineIndex.locate?, LineIndex.ofText, linesOf, hlines, hlocate]
  rfl

theorem Border.locate? (h : Border text offset) :
    ∃ p, (LineIndex.ofText text).locate? offset = some p := by
  obtain ⟨before, after, rfl, rfl⟩ := h
  exact ⟨_, locate?_append before after⟩

theorem border_of_locate? (h : (LineIndex.ofText text).locate? offset = some p) :
    Border text offset := by
  obtain ⟨first, lines, hlines, hfirst, -⟩ := linesFrom_eq_cons 0 text
  obtain ⟨line, hline, hle, hcolumn⟩ :=
    columnAt_of_locateIn 1 (by simp [LineIndex.ofText, linesOf, hlines, hfirst]) h
  obtain ⟨before, after, htext, hstart⟩ := part_of_mem_linesFrom hline
  obtain ⟨inside, rest, hchars, hoffset⟩ := border_of_columnAt hcolumn
  refine ⟨before ++ inside, rest ++ after, by simp [htext, hchars], ?_⟩
  rw [byteLength_append]
  omega

end SvelteSyntax.Text
