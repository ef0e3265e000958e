import Mathlib.Data.List.Chain
import Mathlib.Data.List.Sort
import SvelteSyntax.Program.Disjoint
import SvelteSyntax.Proofs.Run

namespace SvelteSyntax.Program

open Run

variable {α : Type} [Spanned α]

theorem spanLe_iff {a b : α} :
    spanLe a b = true ↔
      Spanned.start a < Spanned.start b ∨
        Spanned.start a = Spanned.start b ∧ Spanned.stop a ≤ Spanned.stop b := by
  simp [spanLe]

theorem spanLe_trans (a b c : α) (hab : spanLe a b = true) (hbc : spanLe b c = true) :
    spanLe a c = true := by
  rw [spanLe_iff] at *
  omega

theorem spanLe_total (a b : α) : (spanLe a b || spanLe b a) = true := by
  rw [Bool.or_eq_true, spanLe_iff, spanLe_iff]
  omega

structure Ordered (xs : List α) : Prop where
  sorted : xs.Pairwise fun a b => Spanned.start a ≤ Spanned.start b
  apart : xs.IsChain fun a b => Spanned.stop a ≤ Spanned.start b

theorem checkDisjoint_eq_ok {what : String} {xs : List α} :
    checkDisjoint what xs = .ok () ↔ xs.IsChain fun a b => Spanned.stop a ≤ Spanned.start b := by
  fun_induction checkDisjoint what xs with
  | case1 a b rest h => simp [Nat.not_le.mpr h]
  | case2 a b rest h ih => simp [ih, Nat.not_lt.mp h]
  | case3 xs h =>
    cases xs with
    | nil => simp
    | cons a xs =>
      cases xs with
      | nil => simp
      | cons b rest => exact absurd rfl (h a b rest)

section Sorted

variable {what : String} {xs ys : List α} (h : sortDisjoint what xs = .ok ys)
include h

theorem eq_mergeSort_of_sortDisjoint :
    ys = xs.mergeSort spanLe ∧ ys.IsChain fun a b => Spanned.stop a ≤ Spanned.start b := by
  obtain ⟨⟨⟩, hcheck, h⟩ := bind_eq_ok.mp h
  cases h
  exact ⟨rfl, checkDisjoint_eq_ok.mp hcheck⟩

theorem perm_of_sortDisjoint : ys.Perm xs := by
  rw [(eq_mergeSort_of_sortDisjoint h).1]
  exact List.mergeSort_perm xs spanLe

theorem ordered_of_sortDisjoint : Ordered ys := by
  obtain ⟨rfl, happart⟩ := eq_mergeSort_of_sortDisjoint h
  refine ⟨?_, happart⟩
  refine (List.pairwise_mergeSort spanLe_trans spanLe_total xs).imp fun hab => ?_
  rw [spanLe_iff] at hab
  omega

end Sorted

omit [Spanned α] in
theorem orderedInsert_append {r : α → α → Prop} [DecidableRel r] {a : α} {xs ys : List α}
    (hxs : ∀ b ∈ xs, ¬r a b) (hys : ∀ b ∈ ys, r a b) :
    (xs ++ ys).orderedInsert r a = xs ++ a :: ys := by
  induction xs with
  | nil =>
    cases ys with
    | nil => rfl
    | cons b ys => simp [hys b (by simp)]
  | cons b xs ih =>
    rw [List.forall_mem_cons] at hxs
    rw [List.cons_append, List.orderedInsert, if_neg hxs.1, ih hxs.2, List.cons_append]

/-- Both sorts are stable, so they agree although different things may have one place. -/
theorem mergeSort_eq_insertionSort (xs : List α) :
    xs.mergeSort spanLe = xs.insertionSort (spanLe · · = true) := by
  induction xs with
  | nil => simp
  | cons a xs ih =>
    obtain ⟨before, after, hcons, hrest, hbefore⟩ :=
      List.mergeSort_cons spanLe_trans spanLe_total a xs
    have hsorted := List.pairwise_mergeSort spanLe_trans spanLe_total (a :: xs)
    rw [hcons, List.pairwise_append, List.pairwise_cons] at hsorted
    rw [hcons, List.insertionSort_cons, ← ih, hrest]
    exact (orderedInsert_append (by simpa using hbefore) hsorted.2.1.1).symm

theorem sortDisjoint_eq_insertionSort (what : String) (xs : List α) :
    sortDisjoint what xs = (do
      checkDisjoint what (xs.insertionSort (spanLe · · = true))
      return xs.insertionSort (spanLe · · = true)) := by
  simp only [sortDisjoint, mergeSort_eq_insertionSort]

/-- Where nothing ends before it starts, it is enough to look at neighbours. -/
theorem Ordered.pairwise {xs : List α} (h : Ordered xs)
    (hle : ∀ a ∈ xs, Spanned.start a ≤ Spanned.stop a) :
    xs.Pairwise fun a b => Spanned.stop a ≤ Spanned.start b := by
  obtain ⟨hsorted, hchain⟩ := h
  induction hchain with
  | nil => exact .nil
  | singleton a => exact List.pairwise_singleton _ a
  | @cons_cons a b rest hab _ ih =>
    obtain ⟨-, hsorted⟩ := List.pairwise_cons.mp hsorted
    refine List.pairwise_cons.mpr ⟨fun c hc => ?_, ih (fun c hc => hle c (.tail a hc)) hsorted⟩
    rcases List.mem_cons.mp hc with rfl | hc
    · exact hab
    · have hbc := (List.pairwise_cons.mp hsorted).1 c hc
      omega

theorem Ordered.congr {xs ys : List α}
    (hsame : List.Forall₂ (fun a b => Spanned.start b = Spanned.start a ∧
      Spanned.stop b = Spanned.stop a) xs ys) (h : Ordered xs) : Ordered ys := by
  let span (a : α) : Nat × Nat := (Spanned.start a, Spanned.stop a)
  have hspans : ys.map span = xs.map span := by
    induction hsame with
    | nil => rfl
    | cons hab _ ih =>
      obtain ⟨hsorted, happart⟩ := h
      rw [List.map_cons, List.map_cons, ih ⟨hsorted.tail, happart.tail⟩]
      exact congrArg (· :: _) (Prod.ext hab.1 hab.2)
  constructor
  · have hsorted := h.sorted
    rw [← List.pairwise_map (f := span) (R := fun a b => a.1 ≤ b.1)] at hsorted ⊢
    rwa [hspans]
  · have happart := h.apart
    rw [← List.isChain_map span (R := fun a b => a.2 ≤ b.1)] at happart ⊢
    rwa [hspans]

/-- One of the two ends before the other one starts. -/
def Apart (a b : α) : Prop := Spanned.stop a ≤ Spanned.start b ∨ Spanned.stop b ≤ Spanned.start a

theorem pairwise_apart_perm {xs ys : List α} (h : xs.Perm ys) : xs.Pairwise Apart ↔ ys.Pairwise Apart :=
  h.pairwise_iff Or.symm

/-- Of two things that are apart the one in front ends before the other starts. Where both start at one
place the first is empty, and only the order by ends puts it in front. -/
theorem Apart.stop_le_start {a b : α} (h : Apart a b) (hb : Spanned.start b ≤ Spanned.stop b)
    (hab : spanLe a b = true) : Spanned.stop a ≤ Spanned.start b := by
  rw [spanLe_iff] at hab
  rcases h with h | h
  · exact h
  · omega

/-- Sorting always gives the things in the order of their starts and ends, and it is enough to look at
neighbours there: all pairs are apart if and only if no neighbour is refused. -/
theorem sortDisjoint_ok_iff_apart (what : String) (xs : List α)
    (hle : ∀ a ∈ xs, Spanned.start a ≤ Spanned.stop a) :
    ∃ sorted : List α, sorted.Perm xs ∧
      sorted.Pairwise (fun a b => Spanned.start a < Spanned.start b ∨
        Spanned.start a = Spanned.start b ∧ Spanned.stop a ≤ Spanned.stop b) ∧
      sortDisjoint what xs = (checkDisjoint what sorted).map (fun _ => sorted) ∧
      (sortDisjoint what xs = .ok sorted ↔ xs.Pairwise Apart) ∧
      ((∃ ys, sortDisjoint what xs = .ok ys) ↔ xs.Pairwise Apart) := by
  let sorted := xs.mergeSort spanLe
  have hperm : sorted.Perm xs := List.mergeSort_perm xs spanLe
  have hsorted := List.pairwise_mergeSort spanLe_trans spanLe_total xs
  have hsound : ∀ ys, sortDisjoint what xs = .ok ys → xs.Pairwise Apart := by
    intro ys h
    have hys := perm_of_sortDisjoint h
    have hpairs := (ordered_of_sortDisjoint h).pairwise fun a ha => hle a (hys.mem_iff.mp ha)
    exact (pairwise_apart_perm hys).mp (hpairs.imp .inl)
  have hcomplete : xs.Pairwise Apart → sortDisjoint what xs = .ok sorted := by
    intro h
    have hapart := (pairwise_apart_perm hperm).mpr h
    have hends : sorted.Pairwise fun a b => Spanned.stop a ≤ Spanned.start b := by
      refine (hapart.and hsorted).imp_of_mem fun _ hb hab => ?_
      exact hab.1.stop_le_start (hle _ (hperm.mem_iff.mp hb)) hab.2
    exact bind_eq_ok.mpr ⟨(), checkDisjoint_eq_ok.mpr hends.isChain, rfl⟩
  refine ⟨sorted, hperm, hsorted.imp spanLe_iff.mp, ?_, ⟨hsound sorted, hcomplete⟩, ?_, ?_⟩
  · change (checkDisjoint what sorted >>= fun _ => .ok sorted) = _
    cases checkDisjoint what sorted <;> rfl
  · rintro ⟨ys, h⟩
    exact hsound ys h
  · exact fun h => ⟨sorted, hcomplete h⟩

/-- Empty things, twice at one place and in front of another one that starts there. -/
theorem sortDisjoint_ok_iff_apart_empty :
    let at_ (start stop : Nat) : Comment := { kind := .line, value := "", start, stop }
    let xs := [at_ 3 5, at_ 3 3, at_ 0 3, at_ 3 3]
    (∀ a ∈ xs, Spanned.start a ≤ Spanned.stop a) ∧ xs.Pairwise Apart ∧
      ∃ ys, sortDisjoint "comment" xs = .ok ys ∧ ys.Perm xs := by
  intro at_ xs
  have hle : ∀ a ∈ xs, Spanned.start a ≤ Spanned.stop a := by decide
  have hapart : xs.Pairwise Apart := by simp [xs, at_, Apart, Spanned.start, Spanned.stop]
  obtain ⟨sorted, hperm, -, -, hok, -⟩ := sortDisjoint_ok_iff_apart "comment" xs hle
  exact ⟨hle, hapart, sorted, hok.mpr hapart, hperm⟩

end SvelteSyntax.Program
