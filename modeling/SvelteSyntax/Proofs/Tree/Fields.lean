import SvelteSyntax.Tree.Fields

namespace SvelteSyntax

variable {key old : String}

namespace Fields

variable {α : Type}

theorem get?_eq_none_iff {fs : Fields α} : get? key fs = none ↔ key ∉ names fs := by
  induction fs with
  | nil => simp [names]
  | cons f fs ih =>
    obtain ⟨k, v⟩ := f
    by_cases hk : k = key
    · simp [get?, names, hk]
    · simpa [get?, names, hk, Ne.symm hk] using ih

theorem names_erase (key : String) (fs : Fields α) : names (erase key fs) = (names fs).erase key := by
  induction fs with
  | nil => rfl
  | cons f fs ih =>
    obtain ⟨k, v⟩ := f
    by_cases hk : k = key
    · simp [erase, names, hk]
    · simpa [erase, names, hk] using ih

theorem nodup_names_set {value : α} {fs : Fields α} (h : (names fs).Nodup) :
    (names (set key value fs)).Nodup := by
  rw [names_set]
  split
  · exact h
  · rename_i hk
    have hne : ∀ a ∈ names fs, a ≠ key := fun a ha hak => hk (hak ▸ ha)
    simpa [List.nodup_append, h] using hne

theorem get?_erase_self {fs : Fields α} (h : (names fs).Nodup) :
    get? key (erase key fs) = none := by
  rw [get?_eq_none_iff, names_erase]
  exact h.not_mem_erase

theorem set_of_get?_eq_none {fs : Fields α} (value : α) (h : get? key fs = none) :
    set key value fs = fs ++ [(key, value)] := by
  induction fs with
  | nil => rfl
  | cons f fs ih =>
    obtain ⟨k, v⟩ := f
    by_cases hk : k = key
    · simp [get?, hk] at h
    · simp only [get?, hk, if_false] at h
      simp [set, hk, ih h]

theorem set_of_get? {value : α} {fs : Fields α} (h : get? key fs = some value) :
    set key value fs = fs := by
  induction fs with
  | nil => cases h
  | cons f fs ih =>
    obtain ⟨k, v⟩ := f
    by_cases hk : k = key
    · simp only [get?, hk, if_true, Option.some.injEq] at h
      simp [set, hk, h]
    · simp only [get?, hk, if_false] at h
      simp [set, hk, ih h]

theorem mem_of_get? {value : α} {fs : Fields α} (h : get? key fs = some value) :
    (key, value) ∈ fs := by
  induction fs with
  | nil => cases h
  | cons f fs ih =>
    obtain ⟨k, v⟩ := f
    rw [get?] at h
    split at h
    · rename_i hk
      cases h
      rw [hk]
      exact .head _
    · exact .tail _ (ih h)

theorem get?_of_mem {value : α} {fs : Fields α} (hnodup : (names fs).Nodup) (h : (key, value) ∈ fs) :
    get? key fs = some value := by
  induction fs with
  | nil => cases h
  | cons f fs ih =>
    obtain ⟨k, v⟩ := f
    have hnot : k ∉ names fs ∧ (names fs).Nodup := List.nodup_cons.mp hnodup
    rcases List.mem_cons.mp h with he | hmem
    · cases he
      simp [get?]
    · have hk : k ≠ key := by
        rintro rfl
        exact hnot.1 (List.mem_map.mpr ⟨_, hmem, rfl⟩)
      simp [get?, hk, ih hnot.2 hmem]

theorem mem_set {k} {value v : α} {fs : Fields α} (h : (k, v) ∈ set key value fs) :
    (k, v) = (key, value) ∨ (k, v) ∈ fs := by
  induction fs with
  | nil => exact .inl (List.mem_singleton.mp h)
  | cons f fs ih =>
    obtain ⟨k₀, v₀⟩ := f
    rw [set] at h
    split at h
    · rename_i hk
      rcases List.mem_cons.mp h with he | hmem
      · exact .inl (hk ▸ he)
      · exact .inr (.tail _ hmem)
    · rcases List.mem_cons.mp h with he | hmem
      · exact .inr (he ▸ .head _)
      · exact (ih hmem).imp_right (.tail _)

theorem erase_sublist (key : String) (fs : Fields α) : (erase key fs).Sublist fs := by
  induction fs with
  | nil => exact .slnil
  | cons f fs ih =>
    obtain ⟨k, v⟩ := f
    rw [erase]
    split
    · exact List.sublist_cons_self ..
    · exact ih.cons_cons _

theorem nodup_names_erase {fs : Fields α} (h : (names fs).Nodup) :
    (names (erase key fs)).Nodup := by
  rw [names_erase]
  exact h.erase key

theorem set_set (key : String) (value value' : α) (fs : Fields α) :
    set key value' (set key value fs) = set key value' fs := by
  induction fs with
  | nil => simp [set]
  | cons f fs ih =>
    obtain ⟨k, v⟩ := f
    by_cases hk : k = key
    · simp [set, hk]
    · simp [set, hk, ih]

theorem erase_set_of_not_mem {value : α} {fs : Fields α} (h : key ∉ names fs) :
    erase key (set key value fs) = fs := by
  induction fs with
  | nil => simp [set, erase]
  | cons f fs ih =>
    obtain ⟨k, v⟩ := f
    obtain ⟨hk, hrest⟩ := List.ne_and_not_mem_of_not_mem_cons h
    simp [set, erase, Ne.symm hk, ih hrest]

theorem get?_rename_new {new} {fs : Fields α} (hnew : get? new fs = none) :
    get? new (rename old new fs) = get? old fs := by
  induction fs with
  | nil => rfl
  | cons f fs ih =>
    obtain ⟨k, v⟩ := f
    rw [get?] at hnew
    split at hnew
    · cases hnew
    · rename_i hk
      by_cases hold : k = old
      · simp [rename, get?, hold]
      · simp [rename, get?, hold, hk, ih hnew]

theorem get?_rename_of_ne {new} (hold : key ≠ old) (hnew : key ≠ new) (fs : Fields α) :
    get? key (rename old new fs) = get? key fs := by
  induction fs with
  | nil => rfl
  | cons f fs ih =>
    obtain ⟨k, v⟩ := f
    by_cases hk : k = old
    · simp [rename, get?, hk, Ne.symm hold, Ne.symm hnew]
    · simp [rename, get?, hk, ih]

end Fields

end SvelteSyntax
