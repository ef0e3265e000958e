import Mathlib.Data.List.TakeWhile
import SvelteSyntax.Text.CharClass
import SvelteSyntax.Text.Cursor

namespace SvelteSyntax.Text

variable {ys cs before xs rest : List Char} {d : Char} {n : Nat}

namespace Cursor

variable (c : Cursor)

theorem rest_skip (n : Nat) : (c.skip n).rest = c.rest.drop n := rfl

@[simp] theorem skip_zero : c.skip 0 = c := by
  simp [skip]

@[simp] theorem skip_skip (m n : Nat) : (c.skip m).skip n = c.skip (m + n) := by
  simp only [skip, List.take_add, List.drop_drop, byteLength_append, List.getLast?_append,
    Option.or_assoc, Nat.add_assoc]

theorem rest_skip_length {c : Cursor} (h : c.rest = xs ++ ys) :
    (c.skip xs.length).rest = ys := by
  rw [rest_skip, h, List.drop_left]

theorem skip_of_rest_eq_nil {c : Cursor} (h : c.rest = []) (n : Nat) : c.skip n = c := by
  cases c
  simp_all [skip]

theorem offset_skip (n : Nat) : (c.skip n).offset = c.offset + byteLength (c.rest.take n) := rfl

theorem offset_skip_length {c : Cursor} (h : c.rest = xs ++ ys) :
    (c.skip xs.length).offset = c.offset + byteLength xs := by
  rw [offset_skip, h, List.take_left]

theorem offset_le_skip (n : Nat) : c.offset ≤ (c.skip n).offset := Nat.le_add_right ..

theorem offset_lt_skip (hn : 0 < n) (hrest : c.rest ≠ []) :
    c.offset < (c.skip n).offset := by
  obtain ⟨d, cs, hcs⟩ := List.exists_cons_of_ne_nil hrest
  obtain ⟨m, rfl⟩ := Nat.exists_eq_succ_of_ne_zero (Nat.ne_of_gt hn)
  have := d.utf8Size_pos
  simp only [offset_skip, hcs, List.take_succ_cons, byteLength_cons]
  omega

theorem skip_eq_of_offset {c : Cursor} {m} (h : (c.skip m).offset = (c.skip n).offset) :
    c.skip m = c.skip n := by
  have hself {c : Cursor} {n : Nat} (h : (c.skip n).offset = c.offset) : c.skip n = c := by
    by_cases hrest : c.rest = []
    · exact skip_of_rest_eq_nil hrest n
    · rcases Nat.eq_zero_or_pos n with rfl | hn
      · exact c.skip_zero
      · exact absurd h (Nat.ne_of_gt (c.offset_lt_skip hn hrest))
  rcases Nat.le_total m n with hle | hle
  · obtain ⟨k, rfl⟩ := Nat.exists_eq_add_of_le hle
    rw [← skip_skip] at h ⊢
    exact (hself h.symm).symm
  · obtain ⟨k, rfl⟩ := Nat.exists_eq_add_of_le hle
    rw [← skip_skip] at h ⊢
    exact hself h

end Cursor

section

variable {p : Char → Bool} {xs ys cs : List Char}

theorem takeWhile_append_of_head (hxs : ∀ c ∈ xs, p c) (hys : ys.head?.all (!p ·)) :
    (xs ++ ys).takeWhile p = xs := by
  rw [List.takeWhile_append_of_pos hxs]
  cases ys with
  | nil => simp
  | cons y ys => simp_all

theorem drop_length_takeWhile (p : Char → Bool) (cs : List Char) :
    cs.drop (cs.takeWhile p).length = cs.dropWhile p := by
  induction cs with
  | nil => rfl
  | cons c cs ih => by_cases hc : p c <;> simp [hc, ih]

theorem head?_dropWhile (p : Char → Bool) (cs : List Char) :
    (cs.dropWhile p).head?.all (!p ·) := by
  induction cs with
  | nil => rfl
  | cons c cs ih => by_cases hc : p c <;> simp [hc, ih]

end

theorem startsWith_iff {pre} : startsWith pre cs ↔ ∃ rest, cs = pre ++ rest := by
  induction pre generalizing cs with
  | nil => simp [startsWith]
  | cons p pre ih =>
    cases cs with
    | nil => simp [startsWith]
    | cons c cs =>
      simp only [startsWith, Bool.and_eq_true, beq_iff_eq, ih, List.cons_append, List.cons.injEq]
      constructor
      · rintro ⟨rfl, rest, rfl⟩
        exact ⟨rest, rfl, rfl⟩
      · rintro ⟨rest, rfl, rfl⟩
        exact ⟨rfl, rest, rfl⟩

theorem startsWith_append_self (pre rest : List Char) : startsWith pre (pre ++ rest) :=
  startsWith_iff.mpr ⟨rest, rfl⟩

theorem splitAt?_eq_some_iff {needle} (hneedle : needle ≠ []) :
    splitAt? needle cs = some (before, rest) ↔
      cs = before ++ rest ∧ startsWith needle rest ∧
        ∀ n < before.length, startsWith needle (cs.drop n) = false := by
  induction cs generalizing before with
  | nil =>
    have hempty : needle.isEmpty = false := by simpa using hneedle
    simp only [splitAt?, hempty, Bool.false_eq_true, ↓reduceIte, reduceCtorEq, false_iff]
    rintro ⟨hnil, hstart, -⟩
    obtain ⟨rfl, rfl⟩ := List.append_eq_nil_iff.mp hnil.symm
    obtain ⟨rest, hrest⟩ := startsWith_iff.mp hstart
    exact hneedle (List.append_eq_nil_iff.mp hrest.symm).1
  | cons c cs ih =>
    simp only [splitAt?]
    cases hstart : startsWith needle (c :: cs) with
    | true =>
      simp only [↓reduceIte, Option.some.injEq, Prod.mk.injEq]
      constructor
      · rintro ⟨rfl, rfl⟩
        simp [hstart]
      · rintro ⟨hcs, -, hbefore⟩
        cases before with
        | nil => exact ⟨rfl, hcs⟩
        | cons d before => simpa [hstart] using hbefore 0 (by simp)
    | false =>
      simp only [Bool.false_eq_true, ↓reduceIte, Option.map_eq_some_iff, Prod.mk.injEq,
        Prod.exists]
      constructor
      · rintro ⟨before', rest', hsplit, rfl, rfl⟩
        obtain ⟨rfl, hrest, hbefore⟩ := ih.mp hsplit
        refine ⟨rfl, hrest, fun n hn => ?_⟩
        cases n with
        | zero => exact hstart
        | succ n => exact hbefore n (by simpa using hn)
      · rintro ⟨hcs, hrest, hbefore⟩
        cases before with
        | nil =>
          obtain rfl : c :: cs = rest := hcs
          rw [hstart] at hrest
          cases hrest
        | cons d before =>
          obtain ⟨rfl, rfl⟩ := List.cons.inj hcs
          refine ⟨before, rest, ih.mpr ⟨rfl, hrest, fun n hn => ?_⟩, rfl, rfl⟩
          exact hbefore (n + 1) (by simpa using hn)

/-- A part whose first character does not come again in it cannot overlap itself, so it is found at the
end of a text without it. -/
theorem splitAt?_append {tail} (hd : d ∉ tail) (hbefore : ¬ d :: tail <:+: before)
    (rest : List Char) :
    splitAt? (d :: tail) (before ++ (d :: tail ++ rest)) = some (before, d :: tail ++ rest) := by
  rw [splitAt?_eq_some_iff (by simp)]
  refine ⟨rfl, startsWith_append_self .., fun n hn => ?_⟩
  rw [Bool.eq_false_iff, ne_eq, startsWith_iff, List.drop_append_of_le_length (Nat.le_of_lt hn)]
  rintro ⟨after, hafter⟩
  rcases List.append_eq_append_iff.mp hafter with ⟨shared, hneedle, hshared⟩ | ⟨after, hdrop, -⟩
  · cases shared with
    | nil =>
      rw [List.append_nil] at hneedle
      exact hbefore (hneedle ▸ (List.drop_suffix n before).isInfix)
    | cons x shared =>
      obtain ⟨rfl, -⟩ := List.cons.inj hshared
      have hne : before.drop n ≠ [] := by simpa using hn
      obtain ⟨c, cs, hcs⟩ := List.exists_cons_of_ne_nil hne
      rw [hcs] at hneedle
      exact hd (by simp [(List.cons.inj hneedle).2])
  · exact hbefore ((hdrop ▸ List.prefix_append ..).isInfix.trans (List.drop_suffix n before).isInfix)

theorem startsWith_singleton :
    startsWith [d] cs ↔ cs.head? = some d := by
  cases cs with
  | nil => simp [startsWith]
  | cons c cs =>
    simp only [startsWith, Bool.and_true, beq_iff_eq, List.head?_cons, Option.some.injEq]
    exact eq_comm

theorem splitAt?_singleton :
    splitAt? [d] cs = some (before, rest) ↔
      cs = before ++ rest ∧ rest.head? = some d ∧ d ∉ before := by
  rw [splitAt?_eq_some_iff (by simp), startsWith_singleton]
  refine and_congr_right fun hcs => and_congr_right fun _ => ?_
  subst hcs
  have hget (n : Nat) (hn : n < before.length) :
      ((before ++ rest).drop n).head? = some before[n] := by
    rw [List.head?_drop, List.getElem?_append_left hn, List.getElem?_eq_getElem hn]
  constructor
  · intro h hmem
    obtain ⟨n, hn, rfl⟩ := List.mem_iff_getElem.mp hmem
    have := h n hn
    rw [Bool.eq_false_iff, ne_eq, startsWith_singleton] at this
    exact this (hget n hn)
  · intro h n hn
    rw [Bool.eq_false_iff, ne_eq, startsWith_singleton, hget n hn, Option.some.injEq]
    rintro rfl
    exact h (List.getElem_mem hn)

theorem intercalate_splitOn (d : Char) (cs : List Char) :
    [d].intercalate (splitOn d cs) = cs ∧ splitOn d cs ≠ [] := by
  induction cs with
  | nil => simp [splitOn]
  | cons c cs ih =>
    obtain ⟨ih, hne⟩ := ih
    rw [splitOn]
    cases hparts : splitOn d cs with
    | nil => exact absurd hparts hne
    | cons part parts =>
      rw [hparts] at ih
      simp only
      split
      · rename_i hc
        simp [List.intercalate_cons_cons, ih, hc]
      · rw [← ih]
        cases parts <;> simp [List.intercalate_cons_cons]

end SvelteSyntax.Text
