namespace SvelteSyntax

abbrev Fields (α : Type) := List (String × α)

namespace Fields

variable {α : Type}

def get? (key : String) : Fields α → Option α
  | [] => none
  | (k, v) :: fs => if k = key then some v else get? key fs

/-- Replaces the value of a field where it stands, or adds the field at the end. -/
def set (key : String) (value : α) : Fields α → Fields α
  | [] => [(key, value)]
  | (k, v) :: fs => if k = key then (k, value) :: fs else (k, v) :: set key value fs

def erase (key : String) : Fields α → Fields α
  | [] => []
  | (k, v) :: fs => if k = key then fs else (k, v) :: erase key fs

def rename (old new : String) : Fields α → Fields α
  | [] => []
  | (k, v) :: fs => if k = old then (new, v) :: fs else (k, v) :: rename old new fs

def names (fs : Fields α) : List String := fs.map (·.1)

@[simp] theorem get?_nil (key : String) : get? key ([] : Fields α) = none := rfl

theorem get?_set_self (key : String) (value : α) (fs : Fields α) :
    get? key (set key value fs) = some value := by
  induction fs with
  | nil => simp [set, get?]
  | cons f fs ih =>
    obtain ⟨k, v⟩ := f
    by_cases h : k = key <;> simp [set, get?, h, ih]

theorem get?_set_of_ne {key other : String} (h : other ≠ key) (value : α) (fs : Fields α) :
    get? other (set key value fs) = get? other fs := by
  induction fs with
  | nil => simp [set, get?, Ne.symm h]
  | cons f fs ih =>
    obtain ⟨k, v⟩ := f
    by_cases hk : k = key
    · subst hk
      simp [set, get?, Ne.symm h]
    · simp [set, get?, hk, ih]

theorem get?_erase_of_ne {key other : String} (h : other ≠ key) (fs : Fields α) :
    get? other (erase key fs) = get? other fs := by
  induction fs with
  | nil => rfl
  | cons f fs ih =>
    obtain ⟨k, v⟩ := f
    by_cases hk : k = key
    · simp [erase, get?, hk, Ne.symm h]
    · simp [erase, get?, hk, ih]

/-- A field that is present keeps its place, and all other names keep theirs. -/
theorem names_set (key : String) (value : α) (fs : Fields α) :
    names (set key value fs) = if key ∈ names fs then names fs else names fs ++ [key] := by
  induction fs with
  | nil => simp [set, names]
  | cons f fs ih =>
    obtain ⟨k, v⟩ := f
    by_cases hk : k = key
    · simp [set, names, hk]
    · simp only [names] at ih
      by_cases hm : key ∈ List.map (fun x => x.1) fs
      · simp [set, names, hk, ih, hm]
      · simp [set, names, hk, ih, hm, Ne.symm hk]

end Fields

end SvelteSyntax
