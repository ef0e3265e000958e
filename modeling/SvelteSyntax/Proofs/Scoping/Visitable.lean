import SvelteSyntax.Proofs.Program.Settled
import SvelteSyntax.Scoping.Analysis

namespace SvelteSyntax.Scoping

open Program

/-- A tree in its last form that is not all of the markup. -/
structure Fit (n : Node) : Prop where
  staged : Staged .embedded n
  inner : n.kind ≠ "Fragment"

variable {key : String}

section Trees

variable {n c m : Node}

theorem fit_of_scripted (h : Scripted n) : Fit n :=
  ⟨.scripted h, fun he => (scripted_iff.mp h).1.2 (he ▸ by decide)⟩

theorem scripted_inTree (h : Scripted n) (hm : n.InTree m) : Scripted m := by
  induction hm with
  | root => exact h
  | child _ hc ih => exact ih.child hc

theorem scripted_of_fit (h : Fit n) (hkind : n.kind ∉ markupKinds) : Scripted n := by
  cases h.staged with
  | pending hs => exact absurd rfl hs
  | scripted h => exact h
  | markup h => exact absurd h.kind hkind

theorem fit_of_child (h : Staged .embedded n) (hc : n.HasChild c) : Fit c := by
  refine ⟨h.child hc, ?_⟩
  cases h with
  | pending hs => exact absurd rfl hs
  | scripted h => exact (fit_of_scripted (h.child hc)).inner
  | markup h =>
    obtain ⟨key, v, hv, hc⟩ := h.get?_of_hasChild hc
    have hbranch : ∀ field ∈ branchFields, field.2.2 ≠ "Fragment" := by decide
    have hleaf : ∀ {key c}, Leaf .embedded n.kind key c → c.kind ≠ "Fragment" := fun hleaf he =>
      hleaf.not_markup (he ▸ by decide)
    cases h.fields key v hv with
    | bare _ h => exact absurd hc (h c)
    | name hs | pattern hs | unboundYet hs => cases hs
    | unbound => simp at hc
    | script _ h =>
      rw [Value.holds_node] at hc
      exact hc ▸ hleaf h
    | scripts _ _ h =>
      rw [Value.holds_nodes] at hc
      exact hleaf (h c hc)
    | child hkey =>
      rw [Value.holds_node] at hc
      exact hc ▸ hbranch _ hkey
    | children _ _ h =>
      rw [Value.holds_nodes] at hc
      exact fun he => (h c hc).2 (he ▸ List.mem_cons_self ..)

theorem mem_branchFields_of_section (h : Staged .embedded n) {v} (hv : n.get? key = some v)
    (hc : v.Holds c) (hsection : c.kind ∈ sectionKinds) : (n.kind, key, c.kind) ∈ branchFields := by
  cases h with
  | pending hs => exact absurd rfl hs
  | scripted h =>
    have hscripted := h.child (Node.hasChild_of_get? hv hc)
    exact absurd (sectionKinds_subset hsection) (scripted_iff.mp hscripted).1.2
  | markup h => exact ((h.fields key v hv).of_section hc hsection).2

theorem not_section_of_child (h : Staged .embedded n) (hkind : n.kind ≠ "AwaitBlock")
    (hc : n.HasChild c) : c.kind ∉ sectionKinds := by
  cases h with
  | pending hs => exact absurd rfl hs
  | scripted h =>
    intro hsection
    exact (scripted_iff.mp (h.child hc)).1.2 (sectionKinds_subset hsection)
  | markup h => exact h.child_kind hkind hc

theorem scripted_of_child (h : Staged .embedded n) (hkey : ∀ field ∈ branchFields, field.2.1 ≠ key)
    (hc : n.child? key = some c) : Scripted c := by
  cases h with
  | pending hs => exact absurd rfl hs
  | scripted h => exact h.child (Node.hasChild_of_child? hc)
  | markup h =>
    cases h.fields key _ (Node.get?_of_child? hc) with
    | bare _ h => exact absurd .node (h c)
    | pattern hs => cases hs
    | script _ h =>
      cases h with
      | pending hs => exact absurd rfl hs
      | scripted h => exact h
    | child h => exact absurd rfl (hkey _ h)

theorem inTree_of_evaluated (h : m ∈ n.evaluatedExpressions) : n.InTree m := by
  have hwithin : ∀ depth root n, Node.InTree root n → m ∈ n.evaluatedWithin depth → root.InTree m := by
    intro depth root
    induction depth with
    | zero => intro n _ hm; simp [Node.evaluatedWithin] at hm
    | succ depth ih =>
      intro n hn hm
      have hfield : ∀ {n key}, root.InTree n →
          m ∈ ((n.child? key).map (Node.evaluatedWithin depth)).getD [] → root.InTree m := by
        intro n key hn hm
        cases hc : n.child? key with
        | none => simp [hc] at hm
        | some c =>
          rw [hc, Option.map_some, Option.getD_some] at hm
          exact ih c (hn.child (Node.hasChild_of_child? hc)) hm
      unfold Node.evaluatedWithin at hm
      split at hm
      · obtain ⟨property, hproperty, hm⟩ := List.mem_flatMap.mp hm
        have hproperty := hn.child (Node.hasChild_of_children hproperty)
        rcases List.mem_append.mp hm with hm | hm
        · split at hm
          · exact hproperty.child (Node.hasChild_of_child? (Option.mem_toList.mp hm))
          · cases hm
        · cases hvalue : property.child? "value" with
          | none =>
            rw [hvalue, Option.none_or] at hm
            exact hfield hproperty hm
          | some v =>
            rw [hvalue, Option.some_or, ← hvalue] at hm
            exact hfield hproperty hm
      · obtain ⟨element, helement, hm⟩ := List.mem_flatMap.mp hm
        obtain ⟨v, hv, hc⟩ := Node.holds_of_nodesAt helement
        exact ih element (hn.child (Node.hasChild_of_get? hv hc)) hm
      · rcases List.mem_append.mp hm with hm | hm
        · exact hfield hn hm
        · exact hn.child (Node.hasChild_of_child? (Option.mem_toList.mp hm))
      · exact hfield hn hm
      · rw [List.mem_singleton] at hm
        exact hm ▸ hn
      · cases hm
  exact hwithin _ n n .root h

end Trees

section Walk

variable {fits : Prop} {kind kind' : ScopeKind} {n c : Node}

def Loose (fits : Prop) (n : Node) : Prop := fits → Scripted n

/-- A tree without sections of its own. -/
def Open (fits : Prop) (n : Node) : Prop := fits → Fit n ∧ n.kind ≠ "AwaitBlock"

/-- A tree that may stand directly in a scope. -/
def Visitable (fits : Prop) (kind : ScopeKind) (n : Node) : Prop :=
  fits → Fit n ∧ (n.kind ∈ sectionKinds → kind = .await)

theorem Loose.child (h : Loose fits n) (hc : n.HasChild c) : Loose fits c :=
  fun hfits => (h hfits).child hc

theorem Loose.visitable (h : Loose fits n) : Visitable fits kind n := fun hfits =>
  ⟨fit_of_scripted (h hfits), fun hsection =>
    absurd (sectionKinds_subset hsection) (scripted_iff.mp (h hfits)).1.2⟩

theorem visitable_of_child (h : fits → Staged .embedded n) (hkind : fits → n.kind ≠ "AwaitBlock")
    (hc : n.HasChild c) : Visitable fits kind c := fun hfits =>
  ⟨fit_of_child (h hfits) hc, fun hsection =>
    absurd hsection (not_section_of_child (h hfits) (hkind hfits) hc)⟩

theorem Open.child (h : Open fits n) (hc : n.HasChild c) : Visitable fits kind c :=
  visitable_of_child (fun hfits => (h hfits).1.staged) (fun hfits => (h hfits).2) hc

theorem Visitable.isOpen (h : Visitable fits kind n) (hkind : n.kind ≠ "AwaitBlock") : Open fits n :=
  fun hfits => ⟨(h hfits).1, hkind⟩

theorem Visitable.loose (h : Visitable fits kind n) (hkind : n.kind ∉ markupKinds) : Loose fits n :=
  fun hfits => scripted_of_fit (h hfits).1 hkind

theorem Visitable.section (h : Visitable fits kind n) (hc : n.HasChild c) : Visitable fits .await c :=
  fun hfits => ⟨fit_of_child (h hfits).1.staged hc, fun _ => rfl⟩

theorem Visitable.field (h : Visitable fits kind n) (hkey : ∀ field ∈ branchFields, field.2.1 ≠ key)
    (hc : c ∈ n.nodesAt key) :
    Visitable fits kind' c := by
  obtain ⟨v, hv, hc⟩ := Node.holds_of_nodesAt hc
  refine fun hfits =>
    ⟨fit_of_child (h hfits).1.staged (Node.hasChild_of_get? hv hc), fun hsection => ?_⟩
  exact absurd rfl (hkey _ (mem_branchFields_of_section (h hfits).1.staged hv hc hsection))

theorem Visitable.script (h : Visitable fits kind n) (hkey : ∀ field ∈ branchFields, field.2.1 ≠ key)
    (hc : n.child? key = some c) : Loose fits c :=
  fun hfits => scripted_of_child (h hfits).1.staged hkey hc

theorem Visitable.declares (h : Visitable fits kind n) (hfits : fits) (hkind : n.kind ∈ markupKinds) :
    Declares .embedded n :=
  ((h hfits).1.staged.formed hkind).1.declares

end Walk

end SvelteSyntax.Scoping
