import SvelteSyntax.Proofs.Scoping.Graph
import SvelteSyntax.Scoping.Analysis

namespace SvelteSyntax.Scoping

/-- A graph that the steps of a walk lead to, and the scopes that are open then, the innermost
first. -/
inductive Built : List ScopeId → Graph → Prop
  | root (kind : ScopeKind) (blockKind : String) (blockStart : Nat) :
    Built [Graph.globalScope] (Graph.pushScope {} kind none blockKind blockStart)
  | pushScope {current outer g} (kind : ScopeKind)
    (blockKind : String) (blockStart : Nat) (h : Built (current :: outer) g) :
    Built (g.scopes.length :: current :: outer) (g.pushScope kind (some current) blockKind blockStart)
  | declare {opens g scope} (name : String) (d : Definition)
    (hs : scope ∈ opens) (h : Built opens g) : Built opens (g.declare scope name d).2
  | addReference {current outer g} (name : String)
    (start stop : Nat) (access : Access) (init : Bool) (h : Built (current :: outer) g) :
    Built (current :: outer) (g.addReference current name start stop access init)
  | markUsed {opens g} (v : VariableId)
    (hv : ∀ w, g.variableAt? v = some w → g.kindAt? w.scope = some .each) (h : Built opens g) :
    Built opens (g.modifyVariable v ({ · with used := true }))
  | close {current outer g} (h : Built (current :: outer) g) :
    Built outer (g.close current)

/-- Each scope of a list is inside the next one, and the last one is inside none. -/
def Nested (g : Graph) : List ScopeId → Prop
  | [] => True
  | id :: outer => (∃ s, g.scopeAt? id = some s ∧ s.parent = outer.head?) ∧ Nested g outer

variable {opens outer : List ScopeId} {g g' : Graph} {id x current : ScopeId}

theorem Nested.exists_scope (h : Nested g opens) (hid : id ∈ opens) : ∃ s, g.scopeAt? id = some s := by
  induction opens with
  | nil => simp at hid
  | cons o outer ih =>
    rcases List.mem_cons.mp hid with rfl | hid
    · obtain ⟨⟨s, hs, -⟩, -⟩ := h
      exact ⟨s, hs⟩
    · exact ih h.2 hid

theorem Nested.congr
    (hg : ∀ x s, g.scopeAt? x = some s → ∃ s', g'.scopeAt? x = some s' ∧ s'.parent = s.parent)
    (h : Nested g opens) : Nested g' opens := by
  induction opens with
  | nil => trivial
  | cons o outer ih =>
    obtain ⟨⟨s, hs, hp⟩, hout⟩ := h
    obtain ⟨s', hs', hp'⟩ := hg o s hs
    exact ⟨⟨s', hs', hp'.trans hp⟩, ih hout⟩

def Rooted (g : Graph) : Prop :=
  ∀ x s, g.scopeAt? x = some s →
    (∀ p, s.parent = some p → p < x) ∧ (s.parent = none ↔ x = Graph.globalScope)

theorem Rooted.congr
    (hg : ∀ x s', g'.scopeAt? x = some s' → ∃ s, g.scopeAt? x = some s ∧ s'.parent = s.parent)
    (h : Rooted g) : Rooted g' := by
  intro x s' hs'
  obtain ⟨s, hs, hp⟩ := hg x s' hs'
  rw [hp]
  exact h x s hs

theorem Rooted.parent_ne (h : Rooted g) {s} (hs : g.scopeAt? x = some s) :
    s.parent ≠ some x :=
  fun hp => Nat.lt_irrefl x ((h x s hs).1 x hp)

theorem Nested.lt (hg : Rooted g) (h : Nested g (id :: outer)) (hx : x ∈ outer) :
    x < id := by
  induction outer generalizing id with
  | nil => simp at hx
  | cons o outer ih =>
    obtain ⟨⟨s, hs, hp⟩, hout⟩ := h
    have ho : o < id := (hg id s hs).1 o hp
    rcases List.mem_cons.mp hx with rfl | hx
    · exact ho
    · exact Nat.lt_trans (ih hout hx) ho

theorem Nested.global_mem (hg : Rooted g) (h : Nested g (id :: outer)) :
    Graph.globalScope ∈ id :: outer := by
  induction outer generalizing id with
  | nil =>
    obtain ⟨⟨s, hs, hp⟩, -⟩ := h
    rw [(hg id s hs).2.mp hp]
    exact List.mem_cons_self ..
  | cons o outer ih => exact List.mem_cons_of_mem _ (ih h.2)

theorem same_parents {f : ScopeId → Scope → Scope} (hf : ∀ x s, (f x s).parent = s.parent)
    (hg : ∀ x, g'.scopeAt? x = (g.scopeAt? x).map (f x)) (h : Nested g opens ∧ Rooted g) :
    Nested g' opens ∧ Rooted g' := by
  refine ⟨h.1.congr fun x s hs => ?_, h.2.congr fun x s' hs' => ?_⟩
  · exact ⟨f x s, by rw [hg, hs]; rfl, hf x s⟩
  · rw [hg] at hs'
    obtain ⟨s, hs, rfl⟩ := Option.map_eq_some_iff.mp hs'
    exact ⟨s, hs, hf x s⟩

theorem nested_pushScope (h : Nested g (current :: outer) ∧ Rooted g) (kind : ScopeKind)
    (blockKind : String) (blockStart : Nat) :
    Nested (g.pushScope kind (some current) blockKind blockStart)
        (g.scopes.length :: current :: outer) ∧
      Rooted (g.pushScope kind (some current) blockKind blockStart) := by
  obtain ⟨s, hs⟩ := h.1.exists_scope (List.mem_cons_self ..)
  have hlt : current < g.scopes.length := Graph.scopeAt?_lt hs
  have hne : some current ≠ some g.scopes.length := by
    intro he
    exact Nat.ne_of_lt hlt (Option.some.inj he)
  have hat := Graph.scopeAt?_pushScope g kind hne blockKind blockStart
  refine ⟨⟨⟨_, by rw [hat, if_pos rfl], rfl⟩, h.1.congr fun x t ht => ?_⟩, fun x t ht => ?_⟩
  · have hx : x ≠ g.scopes.length := Nat.ne_of_lt (Graph.scopeAt?_lt ht)
    refine ⟨_, by rw [hat, if_neg hx, ht]; rfl, ?_⟩
    split <;> rfl
  · rw [hat] at ht
    split at ht
    · rename_i hx
      cases ht
      refine ⟨fun p hp => ?_, fun hn => by simp at hn, fun h₀ => ?_⟩
      · cases hp
        exact hx ▸ hlt
      · have hlt₀ : current < Graph.globalScope := h₀ ▸ hx ▸ hlt
        exact absurd hlt₀ (Nat.not_lt_zero current)
    · obtain ⟨u, hu, rfl⟩ := Option.map_eq_some_iff.mp ht
      have hr := h.2 x u hu
      split <;> exact hr

theorem Built.nested (h : Built opens g) :
    Nested g opens ∧ Rooted g := by
  induction h with
  | root kind blockKind blockStart =>
    have hat := @Graph.scopeAt?_pushScope {} kind none (by simp) blockKind blockStart
    refine ⟨⟨⟨_, hat 0, rfl⟩, trivial⟩, fun x s hs => ?_⟩
    rw [hat] at hs
    split at hs
    · rename_i hx
      cases hs
      exact ⟨fun p hp => by simp at hp, fun _ => hx, fun _ => rfl⟩
    · simp [Graph.scopeAt?] at hs
  | pushScope kind blockKind blockStart _ ih => exact nested_pushScope ih kind blockKind blockStart
  | declare name d _ _ ih =>
    refine same_parents (fun x s => ?_) (Graph.scopeAt?_declare _ _ name d) ih
    split <;> rfl
  | addReference name start stop access init _ ih =>
    refine same_parents (fun x s => ?_)
      (Graph.scopeAt?_addReference _ _ name start stop access init) ih
    split <;> rfl
  | markUsed v _ _ ih =>
    refine same_parents (f := fun _ s => s) (fun _ _ => rfl) (fun x => ?_) ih
    simp
  | close _ ih =>
    obtain ⟨⟨⟨s, hs, -⟩, hout⟩, hr⟩ := ih
    refine same_parents (fun x t => ?_) (Graph.scopeAt?_close hs (hr.parent_ne hs)) ⟨hout, hr⟩
    rfl

theorem variableScopeWithin_mem (h : Nested g (current :: outer)) (fuel : Nat) :
    variableScopeWithin g fuel current ∈ current :: outer := by
  induction fuel generalizing current outer with
  | zero => exact List.mem_cons_self ..
  | succ fuel ih =>
    obtain ⟨⟨s, hs, hp⟩, hout⟩ := h
    simp only [variableScopeWithin, hs]
    split
    · exact List.mem_cons_self ..
    · cases outer with
      | nil => simp [hp]
      | cons p outer => simpa [hp] using List.mem_cons_of_mem current (ih hout)

end SvelteSyntax.Scoping
