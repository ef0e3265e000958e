import SvelteSyntax.Proofs.Scoping.Tables

namespace SvelteSyntax.Scoping

open Run

inductive Graph.Within (g : Graph) (x : ScopeId) : ScopeId → Prop
  | self : Within g x x
  | inner {y p} (hp : g.parent? y = some p) (h : Within g x p) : Within g x y

/-- A scope lists once each reference that is made in it, at any depth, and means no variable in it. -/
def Graph.PassesOn (g : Graph) : Prop :=
  ∀ x s, g.scopeAt? x = some s → s.through.Nodup ∧
    ∀ i, i ∈ s.through ↔ ∃ r, g.referenceAt? i = some r ∧ g.Within x r.scope ∧
      ∀ v w, r.resolved = some v → g.variableAt? v = some w → ¬ g.Within x w.scope

namespace Clear

variable {g g' : Graph} {opens opens' : List ScopeId} {name : String} {a b c x : ScopeId}

theorem comparable (h : Clear g opens name a b) (h' : Clear g opens name a c) :
    Clear g opens name b c ∨ Clear g opens name c b := by
  induction h with
  | refl a => exact .inl h'
  | up hp hn ha h ih =>
    cases h' with
    | refl => exact .inr (up hp hn ha h)
    | up hp' _ _ h' =>
      cases Option.some.inj (hp.symm.trans hp')
      exact ih h'

theorem eq_of_open (h : Clear g opens name a b) (ha : a ∈ opens) : a = b := by
  cases h with
  | refl => rfl
  | up _ _ hnot _ => exact absurd ha hnot

/-- Only closed scopes lie on a way up, so what a change finds as it was leads on as it did. -/
theorem back {P : ScopeId → Prop} (ha : P a)
    (hstep : ∀ x p, P x → x ∉ opens' → g'.parent? x = some p → g'.variableIn? x name = none →
      x ∉ opens ∧ g.parent? x = some p ∧ g.variableIn? x name = none ∧ P p)
    (h : Clear g' opens' name a b) : Clear g opens name a b := by
  induction h with
  | refl a => exact refl a
  | up hp hn hnot _ ih =>
    obtain ⟨hnot', hp', hn', hP⟩ := hstep _ _ ha hnot hp hn
    exact up hp' hn' hnot' (ih hP)

end Clear

/-- An open scope has passed on nothing yet; a closed one has passed on what came to it by a clear way
and found nothing there. -/
structure Passed (opens : List ScopeId) (g : Graph) : Prop where
  opened : ∀ x ∈ opens, g.throughOf x = []
  closed : ∀ x s, g.scopeAt? x = some s → x ∉ opens → (g.throughOf x).Nodup ∧
    ∀ i, i ∈ g.throughOf x ↔ ∃ r, g.referenceAt? i = some r ∧ Clear g opens r.name r.scope x ∧
      g.variableIn? x r.name = none

variable {g : Graph} {name : String} {opens : List ScopeId} {x : ScopeId}

theorem Frame.passed {opens' : List ScopeId} {g' : Graph} (f : Frame opens opens' g g')
    (hroot : Rooted g) (htabled : Tabled g) (hopen : ∀ x ∈ opens', x ∈ opens ∨ g.scopeAt? x = none)
    (hold : ∀ x s', g'.scopeAt? x = some s' → x ∉ opens' → ∃ s, g.scopeAt? x = some s)
    (h : Passed opens g) : Passed opens' g' := by
  constructor
  · intro x hx
    rw [f.through]
    rcases hopen x hx with hx | hnone
    · exact h.opened x hx
    · simp [Graph.throughOf, hnone]
  · intro x s' hs' hx'
    obtain ⟨s, hs⟩ := hold x s' hs' hx'
    have hx : x ∉ opens := fun hm => hx' (f.stays x hm)
    obtain ⟨-, -, hin⟩ := f.closed x s hs hx
    obtain ⟨hnodup, hmem⟩ := h.closed x s hs hx
    rw [f.through]
    refine ⟨hnodup, fun i => (hmem i).trans ?_⟩
    rw [f.references, hin]
    constructor
    · rintro ⟨r, hr, hc, hv⟩
      exact ⟨r, hr, f.clear hc, hv⟩
    · rintro ⟨r, hr, hc, hv⟩
      obtain ⟨t, ht⟩ := Graph.exists_scope_of_listed (((htabled.references r.scope).2 i).mpr ⟨r, hr, rfl⟩)
      refine ⟨r, hr, Clear.back (P := fun y => ∃ u, g.scopeAt? y = some u) ⟨t, ht⟩ ?_ hc, hv⟩
      rintro y p ⟨u, hu⟩ hy hp hn
      have hy' : y ∉ opens := fun hm => hy (f.stays y hm)
      obtain ⟨-, hpar, hsame⟩ := f.closed y u hu hy'
      rw [hpar] at hp
      rw [hsame] at hn
      obtain ⟨u', hu', hup⟩ := Graph.parent?_eq_some.mp hp
      cases hu.symm.trans hu'
      have hlt : p < y := (hroot y u hu).1 p hup
      have hlen : p < g.scopes.length := Nat.lt_trans hlt (Graph.scopeAt?_lt hu)
      exact ⟨hy', hp, hn, _, List.getElem?_eq_getElem hlen⟩

section Steps

variable {g : Graph} {current : ScopeId} {outer : List ScopeId}

theorem Passed.addReference (h : Passed (current :: outer) g) (name : String) (start stop : Nat)
    (access : Access) (init : Bool) :
    Passed (current :: outer) (g.addReference current name start stop access init) := by
  have hrefs := Graph.referenceAt?_addReference g current name start stop access init
  have hfresh : g.referenceAt? g.references.length = none := List.getElem?_eq_none (Nat.le_refl _)
  have hclear : ∀ {n a b}, Clear (g.addReference current name start stop access init)
      (current :: outer) n a b ↔ Clear g (current :: outer) n a b := by
    intro n a b
    constructor
    · exact Clear.mono fun x p hx hp hn => ⟨by simpa using hp, by simpa using hn, hx⟩
    · exact Clear.mono fun x p hx hp hn => ⟨by simpa using hp, by simpa using hn, hx⟩
  constructor
  · simpa using h.opened
  · intro x s' hs' hx
    rw [Graph.scopeAt?_addReference] at hs'
    obtain ⟨s, hs, -⟩ := Option.map_eq_some_iff.mp hs'
    obtain ⟨hnodup, hmem⟩ := h.closed x s hs hx
    rw [Graph.throughOf_addReference, Graph.variableIn?_addReference]
    refine ⟨hnodup, fun i => (hmem i).trans ?_⟩
    rw [hrefs]
    simp only [hclear]
    by_cases hi : i = g.references.length
    · rw [if_pos hi, hi, hfresh]
      constructor
      · rintro ⟨r, hr, -⟩
        cases hr
      · rintro ⟨r, hr, hc, -⟩
        cases hr
        have hcx := hc.eq_of_open (List.mem_cons_self ..)
        exact absurd (hcx ▸ List.mem_cons_self ..) hx
    · rw [if_neg hi]

variable (hn : Nested g (current :: outer)) (hg : Rooted g) (hs : Sound (current :: outer) g)
include hn hg hs

theorem mem_leftOf_iff (hx : x ∈ current :: outer) (i : ReferenceId) :
    i ∈ g.leftOf x ↔ ∃ r, g.referenceAt? i = some r ∧ Clear g (current :: outer) r.name r.scope x := by
  constructor
  · intro hi
    obtain ⟨r, hr, -, -, hc⟩ := hs.left x i hi
    exact ⟨r, hr, hc⟩
  · rintro ⟨r, hr, hc⟩
    cases hs.standing i r hr with
    | waiting hc' hx' hl _ => exact hc.unique hx hc' hx' ▸ hl
    | @resolved y v hc' hy hv _ =>
      rcases hc.comparable hc' with hxy | hyx
      · exact absurd (hxy.eq_of_open hx ▸ hx) hy
      · cases hyx with
        | refl => exact absurd hx hy
        | up _ hnone _ _ => cases hnone.symm.trans hv
    | unfound _ hglobal _ _ _ => exact absurd (hn.global_mem hg) hglobal

omit hs in
theorem Clear.of_close {a : ScopeId} (hx : x ∉ outer) (h : Clear (g.close current) outer name a x) :
    Clear g (current :: outer) name a x := by
  obtain ⟨⟨s, hscope, -⟩, -⟩ := id hn
  have hparent := Graph.parent?_close hscope (hg.parent_ne hscope)
  have hin := Graph.variableIn?_close hscope (hg.parent_ne hscope)
  induction h with
  | refl a => exact .refl a
  | @up a p b hp hnone ha hrest ih =>
    rw [hparent] at hp
    rw [hin] at hnone
    refine .up hp hnone (fun hm => ?_) (ih hx)
    rcases List.mem_cons.mp hm with rfl | hm
    · rw [parent?_current hn] at hp
      have hpo : p ∈ outer := List.mem_of_head? hp
      exact hx (hrest.eq_of_open hpo ▸ hpo)
    · exact ha hm

theorem Passed.close (h : Passed (current :: outer) g) : Passed outer (g.close current) := by
  obtain ⟨⟨s, hscope, -⟩, -⟩ := id hn
  have hat := Graph.scopeAt?_close hscope (hg.parent_ne hscope)
  have hcurrent := current_not_mem_outer hn hg
  have hthrough := throughOf_close hn hg
  have hin := variableIn?_close hn hg
  have hrefs : ∀ (i : ReferenceId) (P : String → ScopeId → Prop),
      (∃ r, (g.close current).referenceAt? i = some r ∧ P r.name r.scope) ↔
        ∃ r, g.referenceAt? i = some r ∧ P r.name r.scope := by
    intro i P
    rw [referenceAt?_close hn]
    constructor
    · rintro ⟨r', hr', hP⟩
      obtain ⟨r, hr, rfl⟩ := Option.map_eq_some_iff.mp hr'
      refine ⟨r, hr, ?_⟩
      split at hP <;> exact hP
    · rintro ⟨r, hr, hP⟩
      refine ⟨_, by rw [hr]; rfl, ?_⟩
      split <;> exact hP
  constructor
  · intro x hx
    have hne : x ≠ current := fun he => hcurrent (he ▸ hx)
    rw [hthrough, if_neg hne]
    exact h.opened x (List.mem_cons_of_mem _ hx)
  · intro x t ht hx
    rw [hat] at ht
    obtain ⟨u, hu, -⟩ := Option.map_eq_some_iff.mp ht
    rw [hthrough, hin]
    split
    · rename_i hxc
      subst hxc
      rw [h.opened x (List.mem_cons_self ..), List.nil_append]
      refine ⟨(hs.leftNodup x).filter _, fun i => ?_⟩
      rw [hrefs i fun name scope =>
        Clear (g.close x) outer name scope x ∧ g.variableIn? x name = none]
      rw [Graph.unresolved, List.mem_filter, mem_leftOf_iff hn hg hs (List.mem_cons_self ..)]
      constructor
      · rintro ⟨⟨r, hr, hc⟩, hnone⟩
        exact ⟨r, hr, hc.close hn hg, by simpa [Graph.target?, hr] using hnone⟩
      · rintro ⟨r, hr, hc, hnone⟩
        refine ⟨⟨r, hr, ?_⟩, by simp [Graph.target?, hr, hnone]⟩
        exact Clear.of_close hn hg hx hc
    · rename_i hxc
      have hx' : x ∉ current :: outer := by simp [hxc, hx]
      obtain ⟨hnodup, hmem⟩ := h.closed x u hu hx'
      refine ⟨hnodup, fun i => (hmem i).trans ?_⟩
      rw [hrefs i fun name scope =>
        Clear (g.close current) outer name scope x ∧ g.variableIn? x name = none]
      constructor
      · rintro ⟨r, hr, hc, hnone⟩
        exact ⟨r, hr, hc.close hn hg, hnone⟩
      · rintro ⟨r, hr, hc, hnone⟩
        exact ⟨r, hr, Clear.of_close hn hg hx hc, hnone⟩

end Steps

theorem Built.passed (h : Built opens g) : Passed opens g := by
  induction h with
  | root kind blockKind blockStart =>
    have hne : (none : Option ScopeId) ≠ some (Graph.scopes {}).length := by simp
    have hthrough : ∀ x, (Graph.pushScope {} kind none blockKind blockStart).throughOf x = [] :=
      fun x => congrFun (Graph.throughOf_pushScope {} kind hne blockKind blockStart) x
    refine ⟨fun x _ => hthrough x, fun x s _ _ => ⟨by simp [hthrough], fun i => ?_⟩⟩
    rw [hthrough]
    refine ⟨fun hi => by simp at hi, ?_⟩
    rintro ⟨r, hr, -⟩
    rw [Graph.referenceAt?_pushScope] at hr
    cases hr
  | @pushScope current outer g kind blockKind blockStart h ih =>
    have hfresh : g.scopeAt? g.scopes.length = none := List.getElem?_eq_none (Nat.le_refl _)
    obtain ⟨s, hs⟩ := h.nested.1.exists_scope (List.mem_cons_self ..)
    have hne : some current ≠ some g.scopes.length := by
      intro he
      exact Nat.ne_of_lt (Graph.scopeAt?_lt hs) (Option.some.inj he)
    refine (frame_pushScope h.nested.1 kind blockKind blockStart).passed h.nested.2 h.tabled
      (fun x hx => ?_) (fun x t ht hx => ?_) ih
    · rcases List.mem_cons.mp hx with rfl | hx
      · exact .inr hfresh
      · exact .inl hx
    · have hx' : x ≠ g.scopes.length := fun he => hx (he ▸ List.mem_cons_self ..)
      rw [Graph.scopeAt?_pushScope g kind hne, if_neg hx'] at ht
      obtain ⟨u, hu, -⟩ := Option.map_eq_some_iff.mp ht
      exact ⟨u, hu⟩
  | @declare opens g scope name d hs h ih =>
    refine (frame_declare h.nested.1 hs name d).passed h.nested.2 h.tabled (fun x hx => .inl hx)
      (fun x t ht _ => ?_) ih
    rw [Graph.scopeAt?_declare] at ht
    obtain ⟨u, hu, -⟩ := Option.map_eq_some_iff.mp ht
    exact ⟨u, hu⟩
  | addReference name start stop access init h ih => exact ih.addReference name start stop access init
  | markUsed v _ h ih =>
    exact (frame_modifyVariable v _).passed h.nested.2 h.tabled (fun x hx => .inl hx)
      (fun x t ht _ => ⟨t, ht⟩) ih
  | close h ih => exact ih.close h.nested.1 h.nested.2 h.sound

namespace Graph.Within

variable {g : Graph} {x y : ScopeId}

theorem le (hg : Rooted g) (h : g.Within x y) : x ≤ y := by
  induction h with
  | self => exact Nat.le_refl x
  | inner hp _ ih =>
    obtain ⟨s, hs, hp⟩ := Graph.parent?_eq_some.mp hp
    exact Nat.le_trans ih (Nat.le_of_lt ((hg _ s hs).1 _ hp))

theorem of_clear (h : Clear g [] name y x) : g.Within x y := by
  induction h with
  | refl a => exact .self
  | up hp _ _ _ ih => exact .inner hp ih

theorem clear (hg : Rooted g) (hreg : Registered g) (h : g.Within x y)
    (hout : ∀ v w, g.lookup? y name = some v → g.variableAt? v = some w → ¬ g.Within x w.scope) :
    Clear g [] name y x ∧ g.variableIn? x name = none := by
  have hlacks : ∀ z, g.Within x z →
      (∀ v w, g.lookup? z name = some v → g.variableAt? v = some w → ¬ g.Within x w.scope) →
      g.variableIn? z name = none := by
    intro z hz hout
    cases hv : g.variableIn? z name with
    | none => rfl
    | some v =>
      obtain ⟨w, hw, -, hscope⟩ := hreg.1 z name v hv
      have hfound : g.lookup? z name = some v := by rw [lookup?_eq hg, hv, Option.some_or]
      exact absurd (hscope ▸ hz) (hout v w hfound hw)
  induction h with
  | self => exact ⟨.refl x, hlacks x .self hout⟩
  | @inner z p hp h ih =>
    have hnone := hlacks z (.inner hp h) hout
    have hup : g.lookup? z name = g.lookup? p name := by
      rw [lookup?_eq hg, hnone, hp, Option.none_or, Option.bind_some]
    obtain ⟨hc, hx⟩ := ih (by rwa [hup] at hout)
    exact ⟨.up hp hnone (by simp) hc, hx⟩

end Graph.Within

theorem exists_le_of_lookup? (hg : Rooted g) {v} (x : ScopeId) (h : g.lookup? x name = some v) :
    ∃ y ≤ x, g.variableIn? y name = some v := by
  induction x using Nat.strongRecOn with
  | ind x ih =>
    rw [lookup?_eq hg] at h
    cases hv : g.variableIn? x name with
    | some u =>
      rw [hv, Option.some_or] at h
      exact ⟨x, Nat.le_refl x, h ▸ hv⟩
    | none =>
      rw [hv, Option.none_or] at h
      obtain ⟨p, hp, hl⟩ := Option.bind_eq_some_iff.mp h
      obtain ⟨s, hs, hsp⟩ := Graph.parent?_eq_some.mp hp
      have hlt : p < x := (hg x s hs).1 p hsp
      obtain ⟨y, hy, hvy⟩ := ih p hlt hl
      exact ⟨y, Nat.le_trans hy (Nat.le_of_lt hlt), hvy⟩

theorem Built.passesOn (h : Built [] g) : g.PassesOn := by
  intro x s hs
  have hg := h.nested.2
  have hreg := h.registered
  obtain ⟨hnodup, hmem⟩ := h.passed.closed x s hs (by simp)
  have hthrough : g.throughOf x = s.through := by simp [Graph.throughOf, hs]
  rw [hthrough] at hnodup hmem
  refine ⟨hnodup, fun i => (hmem i).trans ?_⟩
  constructor
  · rintro ⟨r, hr, hc, hnone⟩
    refine ⟨r, hr, .of_clear hc, fun v w hv hw hin => ?_⟩
    -- the variable is found strictly above the scope
    rw [h.resolved.lookup i r hr, hc.lookup?_eq hg, lookup?_eq hg, hnone, Option.none_or] at hv
    obtain ⟨p, hp, hl⟩ := Option.bind_eq_some_iff.mp hv
    obtain ⟨y, hy, hvy⟩ := exists_le_of_lookup? hg p hl
    obtain ⟨t, ht, hpt⟩ := Graph.parent?_eq_some.mp hp
    have hlt : p < x := (hg x t ht).1 p hpt
    obtain ⟨w', hw', -, hscope⟩ := hreg.1 y r.name v hvy
    cases hw.symm.trans hw'
    have hle : x ≤ y := hscope ▸ hin.le hg
    exact Nat.not_lt.mpr hle (Nat.lt_of_le_of_lt hy hlt)
  · rintro ⟨r, hr, hin, hout⟩
    rw [h.resolved.lookup i r hr] at hout
    obtain ⟨hc, hnone⟩ := hin.clear hg hreg hout
    exact ⟨r, hr, hc, hnone⟩

/-- The tables of a scope graph agree with one another, both as the walk leaves it and after any number
of reconciliations; what a scope passes on after the walk is what it does not resolve; and no variable is
ever missing from its scope when it is to be moved. -/
theorem scope_tables_agree {options : Options} {program : Node} {g : Graph}
    (h : analyze options program = .ok g) :
    g.PassesOn ∧ ∀ (vss : List (List Component.Variable)) (g' : Graph),
      vss.foldlM Graph.applyVariables g = .ok g' →
      g'.Consistent ∧
      (∀ id target name, g'.hoist id target ≠ .error (.unregisteredVariable name)) ∧
      ∀ vs name, g'.applyVariables vs ≠ .error (.unregisteredVariable name) := by
  have hbuilt : Built [] g := built_of_analyze h
  refine ⟨hbuilt.passesOn, fun vss g' hok => ?_⟩
  have hsteady : Steady g' := hbuilt.steady.foldlM_applyVariables hok
  refine ⟨hsteady.consistent, fun id target name herror => ?_, fun vs name herror => ?_⟩
  · obtain ⟨g'', hhoist⟩ := hsteady.tabled.exists_hoist id target
    cases hhoist.symm.trans herror
  · rcases hsteady.applyVariables vs with ⟨missing, hmissing⟩ | ⟨g'', hok', -⟩
    · cases hmissing.symm.trans herror
    · cases hok'.symm.trans herror

/-- The component exports `x` and adds `y`: `x` moves from the module to the global scope, and both
scopes agree with it about that. -/
theorem scope_tables_agree_exported :
    ∃ g g', analyze {} blockReadingThreeNames = .ok g ∧
      g.applyVariables [{ name := "x", exportName := some "x" }, { name := "y", injected := true }] =
        .ok g' ∧
      g.PassesOn ∧ g.Consistent ∧ g'.Consistent ∧
      g.scopes.map Scope.vars = [[], [0], []] ∧ g'.scopes.map Scope.vars = [[0, 1], [], []] ∧
      g.scopes.map Scope.through = [[1, 2], [1, 2], [0, 1, 2]] := by
  have hrun : ((analyze {} blockReadingThreeNames).toOption.bind fun g =>
      (g.applyVariables [{ name := "x", exportName := some "x" },
        { name := "y", injected := true }]).toOption.map fun g' =>
          (g.scopes.map Scope.vars, g'.scopes.map Scope.vars, g.scopes.map Scope.through)) =
      some ([[], [0], []], [[0, 1], [], []], [[1, 2], [1, 2], [0, 1, 2]]) := by decide +kernel
  obtain ⟨g, hg, hrun⟩ := Option.bind_eq_some_iff.mp hrun
  obtain ⟨g', hg', hrun⟩ := Option.map_eq_some_iff.mp hrun
  rw [toOption_eq_some] at hg hg'
  obtain ⟨hpasses, hall⟩ := scope_tables_agree hg
  have hone : [[{ name := "x", exportName := some "x" }, { name := "y", injected := true }]].foldlM
      Graph.applyVariables g = .ok g' := by
    rw [List.foldlM_cons, hg']
    rfl
  exact ⟨g, g', hg, hg', hpasses, (hall [] g rfl).1, (hall _ g' hone).1, congrArg Prod.fst hrun,
    congrArg (·.2.1) hrun, congrArg (·.2.2) hrun⟩

end SvelteSyntax.Scoping
