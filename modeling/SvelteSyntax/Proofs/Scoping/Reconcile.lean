import SvelteSyntax.Proofs.Scoping.Walks

namespace SvelteSyntax.Scoping

open Run

/-- Every reference means what a walk up the scopes finds, and the global scope lists each reference
that means nothing once. -/
structure Graph.Resolved (g : Graph) : Prop where
  lookup : ∀ i r, g.referenceAt? i = some r → r.resolved = g.lookup? r.scope r.name
  through : ∃ s, g.scopeAt? Graph.globalScope = some s ∧ s.through.Nodup ∧
    ∀ i, i ∈ s.through ↔ ∃ r, g.referenceAt? i = some r ∧ r.resolved = none

def Lineage (g : Graph) : Prop :=
  (∃ s, g.scopeAt? Graph.globalScope = some s) ∧
  ∀ x s, g.scopeAt? x = some s → ∀ c ∈ s.children, g.parent? c = some x

variable {f : ScopeId → Scope → Scope} {g g' : Graph} {id : VariableId} {v : Component.Variable}

theorem Lineage.congr (hat : ∀ x, g'.scopeAt? x = (g.scopeAt? x).map (f x))
    (hf : ∀ x s, (f x s).parent = s.parent ∧ (f x s).children = s.children) (h : Lineage g) :
    Lineage g' := by
  obtain ⟨⟨s, hs⟩, hchildren⟩ := h
  have hparent : g'.parent? = g.parent? :=
    Graph.parent?_congr (Graph.map_scopeAt?_congr hat fun x s => (hf x s).1)
  refine ⟨⟨f _ s, by rw [hat, hs]; rfl⟩, fun x t ht c hc => ?_⟩
  rw [hat] at ht
  obtain ⟨u, hu, rfl⟩ := Option.map_eq_some_iff.mp ht
  rw [hparent]
  exact hchildren x u hu c ((hf x u).2 ▸ hc)

theorem lineage_pushScope {current} {s : Scope} (hs : g.scopeAt? current = some s)
    (kind : ScopeKind) (blockKind : String) (blockStart : Nat) (h : Lineage g) :
    Lineage (g.pushScope kind (some current) blockKind blockStart) := by
  have hne : some current ≠ some g.scopes.length := by
    intro he
    exact Nat.ne_of_lt (Graph.scopeAt?_lt hs) (Option.some.inj he)
  have hat := Graph.scopeAt?_pushScope g kind hne blockKind blockStart
  have hparent := Graph.parent?_pushScope g kind hne blockKind blockStart
  obtain ⟨⟨t, ht⟩, hchildren⟩ := h
  have h₀ : Graph.globalScope ≠ g.scopes.length := Nat.ne_of_lt (Graph.scopeAt?_lt ht)
  refine ⟨⟨_, by rw [hat, if_neg h₀, ht]; rfl⟩, fun x u hu c hc => ?_⟩
  rw [hat] at hu
  split at hu
  · cases hu
    simp at hc
  · obtain ⟨w, hw, rfl⟩ := Option.map_eq_some_iff.mp hu
    have hold : c ∈ w.children → (g.pushScope kind (some current) blockKind blockStart).parent? c =
        some x := by
      intro hc
      have hcx := hchildren x w hw c hc
      obtain ⟨z, hz, -⟩ := Graph.parent?_eq_some.mp hcx
      rw [hparent, if_neg (Nat.ne_of_lt (Graph.scopeAt?_lt hz)), hcx]
    split at hc
    · rename_i hx
      rcases List.mem_append.mp hc with hc | hc
      · exact hold hc
      · rw [List.mem_singleton.mp hc, hparent, if_pos rfl, hx]
    · exact hold hc

theorem Built.lineage {opens} (h : Built opens g) : Lineage g := by
  induction h with
  | root kind blockKind blockStart =>
    have hat := @Graph.scopeAt?_pushScope {} kind none (by simp) blockKind blockStart
    refine ⟨⟨_, hat _⟩, fun x s hs c hc => ?_⟩
    rw [hat] at hs
    split at hs
    · cases hs
      simp at hc
    · simp [Graph.scopeAt?] at hs
  | pushScope kind blockKind blockStart h ih =>
    obtain ⟨s, hs⟩ := h.nested.1.exists_scope (List.mem_cons_self ..)
    exact lineage_pushScope hs kind blockKind blockStart ih
  | declare name d _ _ ih =>
    refine ih.congr (Graph.scopeAt?_declare _ _ name d) fun x s => ?_
    split <;> exact ⟨rfl, rfl⟩
  | addReference name start stop access init _ ih =>
    refine ih.congr (Graph.scopeAt?_addReference _ _ name start stop access init) fun x s => ?_
    split <;> exact ⟨rfl, rfl⟩
  | markUsed v _ _ ih => exact ih.congr (f := fun _ s => s) (by simp) (by simp)
  | close h ih =>
    obtain ⟨⟨⟨s, hs, -⟩, -⟩, hg⟩ := h.nested
    exact ih.congr (Graph.scopeAt?_close hs (hg.parent_ne hs)) fun x t => ⟨rfl, rfl⟩

inductive Answered (g : Graph) (i : ReferenceId) (r : Reference) : Prop
  | resolved {x v} (hc : Clear g [] r.name r.scope x)
    (hv : g.variableIn? x r.name = some v) (hr : r.resolved = some v)
  | waiting (hc : Clear g [] r.name r.scope Graph.globalScope) (hr : r.resolved = none)
    (ht : i ∈ g.throughOf Graph.globalScope)

structure Settled (g : Graph) : Prop where
  rooted : Rooted g
  registered : Registered g
  lineage : Lineage g
  answered : ∀ i r, g.referenceAt? i = some r → Answered g i r
  through : ∀ i ∈ g.throughOf Graph.globalScope, ∃ r, g.referenceAt? i = some r ∧ r.resolved = none
  throughNodup : (g.throughOf Graph.globalScope).Nodup

theorem Built.settled (h : Built [] g) : Settled g where
  rooted := h.nested.2
  registered := h.registered
  lineage := h.lineage
  answered i r hr := by
    cases h.sound.standing i r hr with
    | waiting _ hx => simp at hx
    | resolved hc _ hv hr => exact .resolved hc hv hr
    | unfound hc _ _ hr ht => exact .waiting hc hr ht
  through i hi := (h.sound.through i hi).2
  throughNodup := h.sound.throughNodup

theorem Settled.congr (h : Settled g) (hat : ∀ x, g'.scopeAt? x = (g.scopeAt? x).map (f x))
    (hf : ∀ x s, (f x s).parent = s.parent ∧ (f x s).children = s.children ∧
      (f x s).through = s.through) (hrefs : ∀ i, g'.referenceAt? i = g.referenceAt? i)
    (hreg : Registered g') (hans : ∀ i r, Answered g i r → Answered g' i r) : Settled g' := by
  have hthrough : g'.throughOf = g.throughOf :=
    Graph.throughOf_congr (Graph.map_scopeAt?_congr hat fun x s => (hf x s).2.2)
  refine ⟨h.rooted.congr fun x s' hs' => ?_, hreg,
    h.lineage.congr hat fun x s => ⟨(hf x s).1, (hf x s).2.1⟩,
    fun i r hr => hans i r (h.answered i r (hrefs i ▸ hr)), ?_, hthrough ▸ h.throughNodup⟩
  · rw [hat] at hs'
    obtain ⟨s, hs, rfl⟩ := Option.map_eq_some_iff.mp hs'
    exact ⟨s, hs, (hf x s).1⟩
  · intro i hi
    obtain ⟨r, hr, hn⟩ := h.through i (hthrough ▸ hi)
    exact ⟨r, (hrefs i).symm ▸ hr, hn⟩

theorem Rooted.parent?_global (h : Rooted g) : g.parent? Graph.globalScope = none := by
  unfold Graph.parent?
  cases hs : g.scopeAt? Graph.globalScope with
  | none => rfl
  | some s => exact (h _ s hs).2.mpr rfl

theorem Rooted.ne_global (h : Rooted g) {x p} (hp : g.parent? x = some p) :
    x ≠ Graph.globalScope := by
  rintro rfl
  cases h.parent?_global.symm.trans hp

section Change

variable {g : Graph} (h : Settled g)
include h

theorem Settled.modifyVariable (v : VariableId) {f : Variable → Variable}
    (hf : ∀ w, (f w).name = w.name ∧ (f w).scope = w.scope) : Settled (g.modifyVariable v f) := by
  refine h.congr (f := fun _ s => s) (by simp) (by simp) (by simp)
    (registered_modifyVariable v hf h.registered) fun i r hr => ?_
  have hclear : ∀ {n a b}, Clear g [] n a b → Clear (g.modifyVariable v f) [] n a b := by
    intro n a b hc
    refine Clear.mono (g := g) (fun x p hx hp hn => ?_) hc
    exact ⟨hp, hn, hx⟩
  cases hr with
  | resolved hc hv hr => exact .resolved (hclear hc) hv hr
  | waiting hc hr ht => exact .waiting (hclear hc) hr ht

theorem Settled.declare {name} (hnew : g.variableIn? Graph.globalScope name = none) (d : Definition) :
    Settled (g.declare Graph.globalScope name d).2 := by
  obtain ⟨s, hs⟩ := h.lineage.1
  have hin := Graph.variableIn?_declare hs name d
  refine h.congr (Graph.scopeAt?_declare g _ name d) (fun x t => ?_) (by simp)
    (registered_declare hs name d h.registered) fun i r hr => ?_
  · split <;> exact ⟨rfl, rfl, rfl⟩
  have hclear : ∀ {n a b}, Clear g [] n a b →
      Clear (g.declare Graph.globalScope name d).2 [] n a b := by
    refine fun hc => hc.mono fun x p hx hp hn => ?_
    rw [Graph.parent?_declare, hin, if_neg fun hc => h.rooted.ne_global hp hc.1]
    exact ⟨hp, hn, hx⟩
  cases hr with
  | @resolved x v hc hv hr =>
    refine .resolved (hclear hc) ?_ hr
    have hold : ¬(x = Graph.globalScope ∧ r.name = name ∧
        g.variableIn? Graph.globalScope name = none) := by
      rintro ⟨rfl, he, -⟩
      simp [he, hnew] at hv
    rw [hin, if_neg hold, hv]
  | waiting hc hr ht => exact .waiting (hclear hc) hr (by rwa [Graph.throughOf_declare])

/-- A variable of a scope right below the global one, which lacks its name. References that meant
the variable find it one scope further up. -/
theorem Settled.hoist {v : Variable} (hv : g.variableAt? id = some v)
    (hpar : g.parent? v.scope = some Graph.globalScope)
    (hfree : g.variableIn? Graph.globalScope v.name = none) (hok : g.hoist id Graph.globalScope = .ok g') :
    Settled g' := by
  obtain ⟨t, ht⟩ := h.lineage.1
  obtain ⟨s, hs, -⟩ := Graph.parent?_eq_some.mp hpar
  have hne : v.scope ≠ Graph.globalScope := h.rooted.ne_global hpar
  have hid := Graph.variableIn?_of_hoist hv hne hok
  have hin := Graph.variableIn?_hoist hv hne hok hs ht (h.registered.2 _ s hs)
  have hat := Graph.scopeAt?_hoist hv hne hok
  have hf : ∀ (x : ScopeId) (u : Scope),
      let u' := if x = Graph.globalScope then
          { u with names := Fields.set v.name id u.names, vars := u.vars ++ [id] }
        else if x = v.scope then
          { u with names := Fields.erase v.name u.names, vars := u.vars.filter (· ≠ id) }
        else u
      u'.parent = u.parent ∧ u'.children = u.children ∧ u'.through = u.through := by
    intro x u
    dsimp only
    split
    · exact ⟨rfl, rfl, rfl⟩
    · split <;> exact ⟨rfl, rfl, rfl⟩
  have hparent : g'.parent? = g.parent? :=
    Graph.parent?_congr (Graph.map_scopeAt?_congr hat fun x u => (hf x u).1)
  have hthrough : g'.throughOf = g.throughOf :=
    Graph.throughOf_congr (Graph.map_scopeAt?_congr hat fun x u => (hf x u).2.2)
  have hclear : ∀ {n a b}, Clear g [] n a b → Clear g' [] n a b := by
    refine fun hc => hc.mono fun x p hx hp hn => ⟨hparent ▸ hp, ?_, hx⟩
    rw [hin, hn, if_neg (h.rooted.ne_global hp)]
    simp
  refine h.congr hat hf (Graph.referenceAt?_hoist hv hne hok) ?_ fun i r hr => ?_
  · exact registered_hoist hv hne hok hs ht h.registered
  cases hr with
  | waiting hc hr ht => exact .waiting (hclear hc) hr (hthrough ▸ ht)
  | @resolved x u hc hu hr =>
    by_cases hn : r.name = v.name
    · by_cases hx : x = v.scope
      · subst hx
        have hup : Clear g' [] r.name v.scope Graph.globalScope :=
          .up (hparent ▸ hpar) (by rw [hin, if_pos hn, if_neg hne, if_pos rfl]) (by simp) (.refl _)
        refine .resolved ((hclear hc).trans hup) ?_ hr
        rw [hin, if_pos hn, if_pos rfl, ← hid, ← hn, hu]
      · have hx₀ : x ≠ Graph.globalScope := fun he => by simp [he, hn, hfree] at hu
        refine .resolved (hclear hc) ?_ hr
        rw [hin, if_pos hn, if_neg hx₀, if_neg hx, hu]
    · refine .resolved (hclear hc) ?_ hr
      rw [hin, if_neg hn, hu]

end Change

def Liftable (g : Graph) (w : Variable) : Prop :=
  w.scope = Graph.globalScope ∨
    (g.parent? w.scope = some Graph.globalScope ∧ g.variableIn? Graph.globalScope w.name = none)

theorem Graph.moduleScope?_congr (hat : ∀ x, g'.scopeAt? x = (g.scopeAt? x).map (f x))
    (hf : ∀ x s, (f x s).kind = s.kind ∧ (f x s).children = s.children) :
    g'.moduleScope? = g.moduleScope? := by
  have hkinds : (fun x => (g'.scopeAt? x).any (·.kind == .module)) =
      fun x => (g.scopeAt? x).any (·.kind == .module) := by
    funext x
    rw [hat]
    cases g.scopeAt? x with
    | none => rfl
    | some s => simp [(hf x s).1]
  unfold Graph.moduleScope?
  rw [hkinds, hat]
  cases g.scopeAt? Graph.globalScope with
  | none => rfl
  | some s => simp [(hf _ s).2]

theorem Lineage.parent?_moduleScope (h : Lineage g) {m} (hm : g.moduleScope? = some m) :
    g.parent? m = some Graph.globalScope := by
  obtain ⟨s, hs, hfind⟩ := Option.bind_eq_some_iff.mp hm
  exact h.2 _ s hs m (List.mem_of_find?_eq_some hfind)

theorem Settled.liftable_of_topLevel? (h : Settled g) {name} (hid : g.topLevel? name = some id) :
    ∃ w, g.variableAt? id = some w ∧ Liftable g w := by
  unfold Graph.topLevel? at hid
  cases hglobal : g.variableIn? Graph.globalScope name with
  | some u =>
    rw [hglobal, Option.some_or] at hid
    cases hid
    obtain ⟨w, hw, -, hscope⟩ := h.registered.1 _ name id hglobal
    exact ⟨w, hw, .inl hscope⟩
  | none =>
    rw [hglobal, Option.none_or] at hid
    obtain ⟨m, hm, hin⟩ := Option.bind_eq_some_iff.mp hid
    obtain ⟨w, hw, hname, hscope⟩ := h.registered.1 m name id hin
    exact ⟨w, hw, .inr ⟨hscope ▸ h.lineage.parent?_moduleScope hm, hname ▸ hglobal⟩⟩

theorem Settled.matching (h : Settled g) (hok : g.matching v = .ok (id, g')) :
    Settled g' ∧ ∃ w, g'.variableAt? id = some w ∧ Liftable g' w := by
  unfold Graph.matching at hok
  split at hok
  · rename_i hid
    cases hok
    exact ⟨h, h.liftable_of_topLevel? hid⟩
  · rename_i hnone
    split at hok
    · have hnew : g.variableIn? Graph.globalScope v.name = none :=
        (Option.or_eq_none_iff.mp hnone).1
      obtain ⟨s, hs⟩ := h.lineage.1
      let d : Definition := ⟨.injected, 0, 0, "Program"⟩
      have hdeclared : Settled (g.declare Graph.globalScope v.name d).2 := h.declare hnew d
      have hfound : (g.declare Graph.globalScope v.name d).2.variableIn? Graph.globalScope v.name =
          some (g.declare Graph.globalScope v.name d).1 := by
        rw [Graph.variableIn?_declare hs, if_pos ⟨rfl, rfl, hnew⟩, Graph.declare_of_new hnew]
      have heq : g.declare Graph.globalScope v.name d = (id, g') := Except.ok.inj hok
      rw [heq] at hdeclared hfound
      obtain ⟨w, hw, -, hscope⟩ := hdeclared.registered.1 _ _ _ hfound
      exact ⟨hdeclared, w, hw, .inl hscope⟩
    · cases hok

theorem Settled.lift (h : Settled g) {w} (hw : g.variableAt? id = some w) (hl : Liftable g w)
    (hok : g.hoist id Graph.globalScope = .ok g') : Settled g' := by
  rcases hl with howned | ⟨hpar, hfree⟩
  · rw [Graph.hoist_of_owned hw howned] at hok
    cases hok
    exact h
  · exact h.hoist hw hpar hfree hok

theorem Settled.applyVariable (h : Settled g) (hok : g.applyVariable v = .ok g') :
    Settled g' := by
  unfold Graph.applyVariable at hok
  obtain ⟨⟨id, g₁⟩, hmatch, hok⟩ := bind_eq_ok.mp hok
  obtain ⟨h₁, w, hw, hl⟩ := h.matching hmatch
  dsimp only at hok
  split at hok
  · obtain ⟨g₂, hhoist, hok⟩ := bind_eq_ok.mp hok
    cases hok
    exact (h₁.lift hw hl hhoist).modifyVariable id fun _ => ⟨rfl, rfl⟩
  · cases hok
    exact h₁.modifyVariable id fun _ => ⟨rfl, rfl⟩

theorem Settled.applyAll {vs : List Component.Variable} (h : Settled g)
    (hok : vs.foldlM Graph.applyVariable g = .ok g') : Settled g' := by
  induction vs generalizing g with
  | nil =>
    cases hok
    exact h
  | cons v vs ih =>
    rw [List.foldlM_cons] at hok
    obtain ⟨g₁, hv, hvs⟩ := bind_eq_ok.mp hok
    exact ih (h.applyVariable hv) hvs

theorem Settled.resolved (h : Settled g)
    (hfree : ∀ i ∈ g.throughOf Graph.globalScope, g.target? Graph.globalScope i = none) :
    g.Resolved where
  lookup i r hr := by
    cases h.answered i r hr with
    | resolved hc hv hres => rw [hres, hc.lookup?_eq h.rooted, lookup?_eq h.rooted, hv, Option.some_or]
    | waiting hc hres ht =>
      have hnone : g.variableIn? Graph.globalScope r.name = none := by
        simpa [Graph.target?, hr] using hfree i ht
      rw [hres, hc.lookup?_eq h.rooted, lookup?_eq h.rooted, hnone, h.rooted.parent?_global]
      rfl
  through := by
    obtain ⟨s, hs⟩ := h.lineage.1
    have hthrough : g.throughOf Graph.globalScope = s.through := by simp [Graph.throughOf, hs]
    refine ⟨s, hs, hthrough ▸ h.throughNodup, fun i => ?_⟩
    rw [← hthrough]
    refine ⟨h.through i, ?_⟩
    rintro ⟨r, hr, hnone⟩
    cases h.answered i r hr with
    | resolved _ _ hres => cases hnone.symm.trans hres
    | waiting _ _ ht => exact ht

theorem Built.resolved (h : Built [] g) : g.Resolved := by
  refine h.settled.resolved fun i hi => ?_
  obtain ⟨-, r, hr, hnone⟩ := h.sound.through i hi
  cases h.sound.standing i r hr with
  | waiting _ hx => simp at hx
  | resolved _ _ _ hres => cases hnone.symm.trans hres
  | unfound _ _ hv => simp [Graph.target?, hr, hv]

section Last

variable {g : Graph} {s : Scope} (h : Settled g) (hs : g.scopeAt? Graph.globalScope = some s)
include h hs

theorem Settled.throughOf_resolveThrough :
    g.resolveThrough.throughOf Graph.globalScope = g.unresolved Graph.globalScope s.through := by
  have hp := (h.rooted _ s hs).2.mpr rfl
  simp [Graph.throughOf, Graph.scopeAt?_resolveThrough hs hp, hs]

theorem Settled.resolveThrough : Settled g.resolveThrough := by
  have hp := (h.rooted _ s hs).2.mpr rfl
  have hat := Graph.scopeAt?_resolveThrough hs hp
  have hrefs := Graph.referenceAt?_resolveThrough hs hp
  have hin := Graph.variableIn?_resolveThrough hs hp
  have hpar := Graph.parent?_resolveThrough hs hp
  have hmem : ∀ i, i ∈ g.throughOf Graph.globalScope ↔ i ∈ s.through := by
    simp [Graph.throughOf, hs]
  have hclear : ∀ {n a b}, Clear g [] n a b → Clear g.resolveThrough [] n a b := by
    refine fun hc => hc.mono fun x p hx hp hn => ?_
    exact ⟨hpar ▸ hp, hin ▸ hn, hx⟩
  refine ⟨h.rooted.congr fun x t ht => ?_, ?_, h.lineage.congr hat fun x t => ⟨rfl, rfl⟩,
    fun i r' hr' => ?_, fun i hi => ?_, ?_⟩
  · rw [hat] at ht
    obtain ⟨u, hu, rfl⟩ := Option.map_eq_some_iff.mp ht
    exact ⟨u, hu, rfl⟩
  · exact h.registered.congr (Graph.map_scopeAt?_congr hat fun x t => rfl)
      (Graph.variableAt?_resolveThrough hs hp) fun v w => ⟨rfl, rfl⟩
  · rw [hrefs] at hr'
    obtain ⟨r, hr, rfl⟩ := Option.map_eq_some_iff.mp hr'
    cases h.answered i r hr with
    | @resolved x v hc hv hres =>
      -- it did not wait, so it is left as it was
      have hi : i ∉ s.through := by
        intro hi
        obtain ⟨r', hr', hnone⟩ := h.through i ((hmem i).mpr hi)
        cases hr.symm.trans hr'
        cases hnone.symm.trans hres
      rw [if_neg hi]
      exact .resolved (hclear hc) (hin ▸ hv) hres
    | waiting hc hres ht =>
      rw [if_pos ((hmem i).mp ht)]
      cases hv : g.variableIn? Graph.globalScope r.name with
      | some v => exact .resolved (hclear hc) (hin ▸ hv) rfl
      | none =>
        refine .waiting (hclear hc) hres ?_
        rw [h.throughOf_resolveThrough hs]
        simpa [Graph.unresolved, Graph.target?, hr, hv] using (hmem i).mp ht
  · rw [h.throughOf_resolveThrough hs] at hi
    obtain ⟨hi, hnone⟩ := List.mem_filter.mp hi
    obtain ⟨r, hr, hres⟩ := h.through i ((hmem i).mpr hi)
    refine ⟨_, by rw [hrefs, hr, Option.map_some, if_pos hi], ?_⟩
    simpa [Graph.target?, hr, hres] using hnone
  · rw [h.throughOf_resolveThrough hs]
    refine List.Pairwise.filter _ ?_
    rw [← show g.throughOf Graph.globalScope = s.through by simp [Graph.throughOf, hs]]
    exact h.throughNodup

theorem Settled.target?_resolveThrough {i} (hi : i ∈ g.resolveThrough.throughOf Graph.globalScope) :
    g.resolveThrough.target? Graph.globalScope i = none := by
  have hp := (h.rooted _ s hs).2.mpr rfl
  rw [h.throughOf_resolveThrough hs] at hi
  obtain ⟨hi, hnone⟩ := List.mem_filter.mp hi
  rw [Graph.target?, Graph.referenceAt?_resolveThrough hs hp, Graph.variableIn?_resolveThrough hs hp]
  cases hr : g.referenceAt? i with
  | none => rfl
  | some r => simpa [Graph.target?, hr, hi] using hnone

theorem Settled.resolved_resolveThrough : g.resolveThrough.Resolved :=
  (h.resolveThrough hs).resolved fun _ hi => h.target?_resolveThrough hs hi

end Last

/-- References mean the same by number and by name, and the global scope knows which mean nothing:
both as the walk leaves a graph and as the graph is once it knows the variables of its component. -/
theorem references_resolve_by_lookup {options : Options} {program : Node} {g : Graph}
    (h : analyze options program = .ok g) :
    g.Resolved ∧ ∀ vs g', g.applyVariables vs = .ok g' → g'.Resolved := by
  have hg : Built [] g := built_of_analyze h
  refine ⟨hg.resolved, fun vs g' hok => ?_⟩
  obtain ⟨g₁, hvs, hok⟩ := bind_eq_ok.mp hok
  cases hok
  have h₁ : Settled g₁ := hg.settled.applyAll hvs
  obtain ⟨s, hs⟩ := h₁.lineage.1
  exact h₁.resolved_resolveThrough hs

/-- A module with `let x`, which a block inside reads together with `y` and `z`. -/
def blockReadingThreeNames : Node :=
  let name (start : Nat) (text : String) : Node :=
    { kind := "Identifier", start, stop := start + 1, fields := [("name", .string text)] }
  let read (start : Nat) (text : String) : Node :=
    { kind := "ExpressionStatement", start, stop := start + 2,
      fields := [("expression", .node (name start text))] }
  let declarator : Node :=
    { kind := "VariableDeclarator", start := 4, stop := 5,
      fields := [("id", .node (name 4 "x")), ("init", .null)] }
  { kind := "Program", start := 0, stop := 17,
    fields := [("body", .nodes [
      { kind := "VariableDeclaration", start := 0, stop := 6,
        fields := [("kind", .string "let"), ("declarations", .nodes [declarator])] },
      { kind := "BlockStatement", start := 7, stop := 17,
        fields := [("body", .nodes [read 8 "x", read 11 "y", read 14 "z"])] }])] }

/-- The component exports `x` and adds `y`: the one is still found, the other is found now. -/
theorem references_resolve_by_lookup_exported :
    ∃ g g', analyze {} blockReadingThreeNames = .ok g ∧
      g.applyVariables [{ name := "x", exportName := some "x" }, { name := "y", injected := true }] =
        .ok g' ∧
      g.Resolved ∧ g'.Resolved ∧
      g.references.map Reference.resolved = [some 0, none, none] ∧
      g'.references.map Reference.resolved = [some 0, some 1, none] := by
  have hrun : ((analyze {} blockReadingThreeNames).toOption.bind fun g =>
      (g.applyVariables [{ name := "x", exportName := some "x" },
        { name := "y", injected := true }]).toOption.map fun g' =>
          (g.references.map Reference.resolved, g'.references.map Reference.resolved)) =
      some ([some 0, none, none], [some 0, some 1, none]) := by decide +kernel
  obtain ⟨g, hg, hrun⟩ := Option.bind_eq_some_iff.mp hrun
  obtain ⟨g', hg', hrun⟩ := Option.map_eq_some_iff.mp hrun
  rw [toOption_eq_some] at hg hg'
  have hresolved := references_resolve_by_lookup hg
  exact ⟨g, g', hg, hg', hresolved.1, hresolved.2 _ _ hg', congrArg Prod.fst hrun,
    congrArg Prod.snd hrun⟩

end SvelteSyntax.Scoping
