import SvelteSyntax.Proofs.Scoping.Tables

namespace SvelteSyntax.Scoping

open Run

/-- A variable of the graph after the component has said something about it. Of what is said about
assignments the last counts. -/
def Variable.informed (w : Variable) (vs : List Component.Variable) : Variable :=
  { w with
    writable := (vs.getLast?.map Component.Variable.writable).getD w.writable
    injected := w.injected || vs.any Component.Variable.injected
    used := w.used || vs.any fun v => v.referenced || v.exportName.isSome }

/-- All of it is known already. -/
structure Informed (vs : List Component.Variable) (w : Variable) : Prop where
  writable : ∀ v ∈ vs.getLast?, w.writable = v.writable
  injected : ∀ v ∈ vs, v.injected = true → w.injected = true
  used : ∀ v ∈ vs, (v.referenced || v.exportName.isSome) = true → w.used = true

theorem informed_cons (w : Variable) (v : Component.Variable) (vs : List Component.Variable) :
    w.informed (v :: vs) = (w.informed [v]).informed vs := by
  simp only [Variable.informed, List.any_cons, List.any_nil, Bool.or_false, Bool.or_assoc,
    List.getLast?_cons, List.getLast?_nil, Option.map_some, Option.getD_none, Option.getD_some]
  cases vs.getLast? <;> rfl

variable {w : Variable} {vs : List Component.Variable} {g g' : Graph} {name : String} {id : VariableId}
  {v : Component.Variable}

theorem Informed.informed_eq (h : Informed vs w) :
    w.informed vs = w := by
  have hwritable : (vs.getLast?.map Component.Variable.writable).getD w.writable = w.writable := by
    cases hlast : vs.getLast? with
    | none => rfl
    | some v => exact (h.writable v hlast).symm
  have hinjected : (w.injected || vs.any Component.Variable.injected) = w.injected :=
    Bool.or_eq_left_iff_imp.mpr fun hany => by
      obtain ⟨v, hv, hi⟩ := List.any_eq_true.mp hany
      exact h.injected v hv hi
  have hused : (w.used || vs.any fun v => v.referenced || v.exportName.isSome) = w.used :=
    Bool.or_eq_left_iff_imp.mpr fun hany => by
      obtain ⟨v, hv, hu⟩ := List.any_eq_true.mp hany
      exact h.used v hv hu
  rw [Variable.informed, hwritable, hinjected, hused]

theorem informed_nil (w : Variable) : Informed [] w := ⟨by simp, by simp, by simp⟩

theorem Informed.concat (h : Informed vs w) (v : Component.Variable) :
    Informed (vs ++ [v]) (w.informed [v]) where
  writable u hu := by
    rw [List.getLast?_concat] at hu
    cases hu
    rfl
  injected u hu hi := by
    rcases List.mem_append.mp hu with hu | hu
    · simp [Variable.informed, h.injected u hu hi]
    · simp [Variable.informed, ← List.mem_singleton.mp hu, hi]
  used u hu hi := by
    rcases List.mem_append.mp hu with hu | hu
    · simp [Variable.informed, h.used u hu hi]
    · simp [Variable.informed, ← List.mem_singleton.mp hu, hi]

structure Extends (g g' : Graph) : Prop where
  scopes : ∀ x, x ≠ Graph.globalScope → g.moduleScope? ≠ some x → g'.scopeAt? x = g.scopeAt? x
  module : g'.moduleScope? = g.moduleScope?
  references : ∀ i, g'.referenceAt? i = g.referenceAt? i
  topLevel : ∀ name id, g.topLevel? name = some id → g'.topLevel? name = some id

theorem Extends.refl (g : Graph) : Extends g g :=
  ⟨fun _ _ _ => rfl, rfl, fun _ => rfl, fun _ _ h => h⟩

theorem Extends.trans {g''} (h : Extends g g') (h' : Extends g' g'') :
    Extends g g'' where
  scopes x hx hm := (h'.scopes x hx (h.module ▸ hm)).trans (h.scopes x hx hm)
  module := h'.module.trans h.module
  references i := (h'.references i).trans (h.references i)
  topLevel name id hid := h'.topLevel name id (h.topLevel name id hid)

theorem extends_modifyVariable (g : Graph) (id : VariableId) (f : Variable → Variable) :
    Extends g (g.modifyVariable id f) :=
  ⟨fun _ _ _ => rfl, rfl, fun _ => rfl, fun _ _ h => h⟩

section Change

variable {g g' : Graph} (h : Settled g)
include h

theorem Settled.extends_declare (hnew : g.topLevel? name = none) (d : Definition) :
    Extends g (g.declare Graph.globalScope name d).2 ∧
      (g.declare Graph.globalScope name d).2.topLevel? name =
        some (g.declare Graph.globalScope name d).1 := by
  obtain ⟨s, hs⟩ := h.lineage.1
  obtain ⟨hglobal, -⟩ := Option.or_eq_none_iff.mp hnew
  have hat := Graph.scopeAt?_declare g Graph.globalScope name d
  have hin := Graph.variableIn?_declare hs name d
  have hmodule : (g.declare Graph.globalScope name d).2.moduleScope? = g.moduleScope? := by
    refine Graph.moduleScope?_congr hat fun x t => ?_
    split <;> exact ⟨rfl, rfl⟩
  refine ⟨⟨fun x hx _ => ?_, hmodule, by simp, fun n id hid => ?_⟩, ?_⟩
  · simp [hat, hx]
  · have hn : n ≠ name := by
      rintro rfl
      cases hnew.symm.trans hid
    simpa [Graph.topLevel?, hmodule, hin, hn] using hid
  · rw [Graph.topLevel?, hin, if_pos ⟨rfl, rfl, hglobal⟩, Option.some_or, Graph.declare_of_new hglobal]

theorem Settled.owner_of_topLevel? (hid : g.topLevel? name = some id) :
    ∃ w, g.variableAt? id = some w ∧ w.name = name ∧
      (w.scope = Graph.globalScope ∨ g.moduleScope? = some w.scope) := by
  unfold Graph.topLevel? at hid
  cases hglobal : g.variableIn? Graph.globalScope name with
  | some u =>
    rw [hglobal, Option.some_or] at hid
    cases hid
    obtain ⟨w, hw, hname, hscope⟩ := h.registered.1 _ name id hglobal
    exact ⟨w, hw, hname, .inl hscope⟩
  | none =>
    rw [hglobal, Option.none_or] at hid
    obtain ⟨m, hm, hin⟩ := Option.bind_eq_some_iff.mp hid
    obtain ⟨w, hw, hname, rfl⟩ := h.registered.1 m name id hin
    exact ⟨w, hw, hname, .inr hm⟩

theorem Settled.extends_hoist (hid : g.topLevel? name = some id)
    (hok : g.hoist id Graph.globalScope = .ok g') :
    Extends g g' ∧ ∀ u, g'.variableAt? u = (g.variableAt? u).map fun w =>
      if u = id then { w with scope := Graph.globalScope } else w := by
  obtain ⟨w, hw, rfl, howner⟩ := h.owner_of_topLevel? hid
  by_cases howned : w.scope = Graph.globalScope
  · rw [Graph.hoist_of_owned hw howned] at hok
    cases hok
    refine ⟨.refl g, fun u => ?_⟩
    by_cases hu : u = id
    · rw [hu, hw, Option.map_some, if_pos rfl, ← howned]
    · simp [hu]
  · have hm := howner.resolve_left howned
    obtain ⟨s, hs, -⟩ := Graph.parent?_eq_some.mp (h.lineage.parent?_moduleScope hm)
    obtain ⟨t, ht⟩ := h.lineage.1
    have hat := Graph.scopeAt?_hoist hw howned hok
    have hin := Graph.variableIn?_hoist hw howned hok hs ht (h.registered.2 _ s hs)
    have hmodule : g'.moduleScope? = g.moduleScope? := by
      refine Graph.moduleScope?_congr hat fun x u => ?_
      split
      · exact ⟨rfl, rfl⟩
      · split <;> exact ⟨rfl, rfl⟩
    refine ⟨⟨fun x hx hx' => ?_, hmodule, Graph.referenceAt?_hoist hw howned hok, fun n u hu => ?_⟩,
      Graph.variableAt?_hoist hw howned hok⟩
    · have hxm : x ≠ w.scope := fun he => hx' (he ▸ hm)
      simp [hat, hx, hxm]
    · by_cases hn : n = w.name
      · obtain rfl : id = u := Option.some.inj (hid.symm.trans (hn ▸ hu))
        rw [Graph.topLevel?, hin, if_pos hn, if_pos rfl, Option.some_or]
      · simpa [Graph.topLevel?, hmodule, hin, hn] using hu

end Change

def Knows (g : Graph) (v : Component.Variable) : Prop :=
  ∃ id w, g.topLevel? v.name = some id ∧ g.variableAt? id = some w ∧
    (v.exportName.isSome → w.scope = Graph.globalScope)

def Graph.about (g : Graph) (vs : List Component.Variable) (id : VariableId) :
    List Component.Variable :=
  vs.filter fun v => g.topLevel? v.name == some id

/-- All that is said has been taken over. -/
structure Told (g : Graph) (vs : List Component.Variable) : Prop where
  knows : ∀ v ∈ vs, Knows g v
  informed : ∀ id w, g.variableAt? id = some w → Informed (g.about vs id) w

/-- A variable knows as much as before, if not more. -/
structure Remembers (w w' : Variable) : Prop where
  scope : w.scope = Graph.globalScope → w'.scope = Graph.globalScope
  writable : w'.writable = w.writable
  injected : w.injected = true → w'.injected = true
  used : w.used = true → w'.used = true

theorem Remembers.refl (w : Variable) : Remembers w w := ⟨id, rfl, id, id⟩

theorem Told.mono (h : Told g vs)
    (htop : ∀ name id, g.topLevel? name = some id → g'.topLevel? name = some id)
    (hvars : ∀ u, g.variableAt? u = none ∨
      ∃ w w', g.variableAt? u = some w ∧ g'.variableAt? u = some w' ∧ Remembers w w') :
    Told g' vs := by
  have habout : ∀ u, g'.about vs u = g.about vs u := by
    intro u
    refine List.filter_congr fun v hv => ?_
    obtain ⟨id, -, hid, -⟩ := h.knows v hv
    rw [hid, htop _ _ hid]
  refine ⟨fun v hv => ?_, fun u w' hw' => ?_⟩
  · obtain ⟨id, w, hid, hw, hexported⟩ := h.knows v hv
    rcases hvars id with hnone | ⟨u, w', hu, hw', hkept⟩
    · cases hnone.symm.trans hw
    · cases hu.symm.trans hw
      exact ⟨id, w', htop _ _ hid, hw', fun he => hkept.scope (hexported he)⟩
  · rw [habout]
    rcases hvars u with hnone | ⟨w, w'', hw, hw'', hkept⟩
    · -- nothing was said about a variable that is new
      have hnothing : g.about vs u = [] := by
        refine List.filter_eq_nil_iff.mpr fun v hv hu => ?_
        obtain ⟨id, w, hid, hw, -⟩ := h.knows v hv
        rw [hid, beq_iff_eq] at hu
        cases hu
        cases hnone.symm.trans hw
      rw [hnothing]
      exact informed_nil w'
    · cases hw'.symm.trans hw''
      obtain ⟨hwritable, hinjected, hused⟩ := h.informed u w hw
      exact ⟨fun v hv => hkept.writable.trans (hwritable v hv),
        fun v hv hi => hkept.injected (hinjected v hv hi), fun v hv hu => hkept.used (hused v hv hu)⟩

theorem Told.inform (h : Told g vs) (hid : g.topLevel? v.name = some id) (hw : g.variableAt? id = some w)
    (hexported : v.exportName.isSome → w.scope = Graph.globalScope) :
    Told (g.modifyVariable id (·.informed [v])) (vs ++ [v]) := by
  refine ⟨fun u hu => ?_, fun j w' hw' => ?_⟩
  · have hknown : Knows g u := by
      rcases List.mem_append.mp hu with hu | hu
      · exact h.knows u hu
      · rw [List.mem_singleton.mp hu]
        exact ⟨id, w, hid, hw, hexported⟩
    obtain ⟨j, x, hj, hx, hscope⟩ := hknown
    refine ⟨j, _, hj, by rw [Graph.variableAt?_modifyVariable, hx]; rfl, fun he => ?_⟩
    split
    · exact hscope he
    · exact hscope he
  · rw [Graph.variableAt?_modifyVariable] at hw'
    obtain ⟨x, hx, rfl⟩ := Option.map_eq_some_iff.mp hw'
    have habout : (g.modifyVariable id (·.informed [v])).about (vs ++ [v]) j =
        g.about vs j ++ if j = id then [v] else [] := by
      have htop : (g.modifyVariable id (·.informed [v])).topLevel? = g.topLevel? := rfl
      rw [Graph.about, List.filter_append, htop, Graph.about]
      by_cases hj : j = id
      · simp [hj, hid]
      · simp [hj, hid, Ne.symm hj]
    rw [habout]
    by_cases hj : j = id
    · rw [if_pos hj, if_pos hj]
      exact (h.informed j x hx).concat v
    · rw [if_neg hj, if_neg hj, List.append_nil]
      exact h.informed j x hx

theorem Settled.extends_matching (h : Settled g) (hok : g.matching v = .ok (id, g')) :
    Extends g g' ∧ g'.topLevel? v.name = some id ∧
      ∀ u w, g.variableAt? u = some w → g'.variableAt? u = some w := by
  unfold Graph.matching at hok
  split at hok
  · next hid =>
    cases hok
    exact ⟨.refl g, hid, fun _ _ hw => hw⟩
  · next hnone =>
    split at hok
    · obtain ⟨hext, hfound⟩ := h.extends_declare hnone ⟨.injected, 0, 0, "Program"⟩
      obtain ⟨hglobal, -⟩ := Option.or_eq_none_iff.mp hnone
      have hvars := Graph.variableAt?_declare g Graph.globalScope v.name ⟨.injected, 0, 0, "Program"⟩
      rw [Except.ok.inj hok] at hext hfound hvars
      refine ⟨hext, hfound, fun u w hw => ?_⟩
      have hu : u ≠ g.vars.length := Nat.ne_of_lt (List.getElem?_eq_some_iff.mp hw).1
      simp only [hvars, hglobal, if_neg hu, hw]
    · cases hok

theorem Told.applyVariable (hg : Settled g) (h : Told g vs) (hok : g.applyVariable v = .ok g') :
    Extends g g' ∧ Told g' (vs ++ [v]) := by
  unfold Graph.applyVariable at hok
  obtain ⟨⟨id, g₁⟩, hmatch, hok⟩ := bind_eq_ok.mp hok
  obtain ⟨hg₁, -⟩ := hg.matching hmatch
  obtain ⟨hext₁, hid₁, hvars₁⟩ := hg.extends_matching hmatch
  have h₁ : Told g₁ vs := by
    refine h.mono hext₁.topLevel fun u => ?_
    cases hw : g.variableAt? u with
    | none => exact .inl rfl
    | some w => exact .inr ⟨w, w, rfl, hvars₁ u w hw, .refl w⟩
  obtain ⟨w, hw, -⟩ := hg₁.owner_of_topLevel? hid₁
  have hupdate : ∀ {g₂ : Graph},
      (g₂.modifyVariable id fun w =>
        { w with
          writable := v.writable
          injected := w.injected || v.injected
          used := w.used || v.referenced || v.exportName.isSome }) =
      g₂.modifyVariable id (·.informed [v]) := by
    simp [Variable.informed, Bool.or_assoc]
  dsimp only at hok
  split at hok
  · obtain ⟨g₂, hhoist, hok⟩ := bind_eq_ok.mp hok
    cases hok
    obtain ⟨hext₂, hvars₂⟩ := hg₁.extends_hoist hid₁ hhoist
    have h₂ : Told g₂ vs := by
      refine h₁.mono hext₂.topLevel fun u => ?_
      cases hu : g₁.variableAt? u with
      | none => exact .inl rfl
      | some x =>
        refine .inr ⟨x, _, rfl, by rw [hvars₂, hu]; rfl, ?_⟩
        split
        · exact ⟨fun _ => rfl, rfl, fun hi => hi, fun hu => hu⟩
        · exact .refl x
    have hw₂ : g₂.variableAt? id = some { w with scope := Graph.globalScope } := by
      rw [hvars₂, hw, Option.map_some, if_pos rfl]
    rw [hupdate]
    exact ⟨hext₁.trans (hext₂.trans (extends_modifyVariable ..)),
      h₂.inform (hext₂.topLevel _ _ hid₁) hw₂ fun _ => rfl⟩
  · next hexported =>
    cases hok
    rw [hupdate]
    exact ⟨hext₁.trans (extends_modifyVariable ..), h₁.inform hid₁ hw fun he => absurd he hexported⟩

theorem Told.applyAll {done} (hg : Settled g) (h : Told g done)
    (hok : vs.foldlM Graph.applyVariable g = .ok g') :
    Extends g g' ∧ Told g' (done ++ vs) := by
  induction vs generalizing g done with
  | nil =>
    cases hok
    exact ⟨.refl _, by rwa [List.append_nil]⟩
  | cons v vs ih =>
    rw [List.foldlM_cons] at hok
    obtain ⟨g₁, hv, hvs⟩ := bind_eq_ok.mp hok
    obtain ⟨hext₁, h₁⟩ := h.applyVariable hg hv
    obtain ⟨hext, htold⟩ := ih (hg.applyVariable hv) h₁ hvs
    rw [List.append_assoc, List.singleton_append] at htold
    exact ⟨hext₁.trans hext, htold⟩

theorem applyVariable_of_knows (hid : g.topLevel? v.name = some id) (hw : g.variableAt? id = some w)
    (hexported : v.exportName.isSome → w.scope = Graph.globalScope) :
    g.applyVariable v = .ok (g.modifyVariable id (·.informed [v])) := by
  have hmatch : g.matching v = .ok (id, g) := by simp only [Graph.matching, hid]
  unfold Graph.applyVariable
  by_cases he : v.exportName.isSome = true
  · have hhoist := Graph.hoist_of_owned hw (hexported he)
    simp [hmatch, he, hhoist, bind, Except.bind, pure, Except.pure, Variable.informed]
  · simp [hmatch, he, bind, Except.bind, pure, Except.pure, Variable.informed]

/-- Of a component that is known, only what it says about variables is taken over. -/
theorem applyAll_of_knows (h : ∀ v ∈ vs, Knows g v) :
    ∃ g', vs.foldlM Graph.applyVariable g = .ok g' ∧ g'.scopes = g.scopes ∧
      g'.references = g.references ∧
      ∀ u, g'.variableAt? u = (g.variableAt? u).map (·.informed (g.about vs u)) := by
  induction vs generalizing g with
  | nil =>
    refine ⟨g, rfl, rfl, rfl, fun u => ?_⟩
    cases g.variableAt? u with
    | none => rfl
    | some w => exact congrArg some (informed_nil w).informed_eq.symm
  | cons v vs ih =>
    obtain ⟨id, w, hid, hw, hexported⟩ := h v (List.mem_cons_self ..)
    have hrest : ∀ u ∈ vs, Knows (g.modifyVariable id (·.informed [v])) u := by
      intro u hu
      obtain ⟨j, x, hj, hx, hscope⟩ := h u (List.mem_cons_of_mem _ hu)
      refine ⟨j, _, hj, by rw [Graph.variableAt?_modifyVariable, hx]; rfl, fun he => ?_⟩
      split <;> exact hscope he
    obtain ⟨g', hok, hscopes, hrefs, hvars⟩ := ih hrest
    refine ⟨g', ?_, hscopes, hrefs, fun u => ?_⟩
    · rw [List.foldlM_cons, applyVariable_of_knows hid hw hexported]
      exact hok
    · have habout : (g.modifyVariable id (·.informed [v])).about vs u = g.about vs u := rfl
      rw [hvars, Graph.variableAt?_modifyVariable, Option.map_map, habout]
      congr 1
      funext x
      by_cases hu : u = id
      · have hcons : g.about (v :: vs) u = v :: g.about vs u := by
          rw [Graph.about, List.filter_cons_of_pos (by simp [hid, hu]), Graph.about]
        rw [hcons, informed_cons, Function.comp_apply, if_pos hu]
      · have hcons : g.about (v :: vs) u = g.about vs u := by
          rw [Graph.about, List.filter_cons_of_neg (by simp [hid, Ne.symm hu]), Graph.about]
        rw [hcons, Function.comp_apply, if_neg hu]

theorem Told.applyAll_again (h : Told g vs) :
    vs.foldlM Graph.applyVariable g = .ok g := by
  obtain ⟨g', hok, hscopes, hrefs, hvars⟩ := applyAll_of_knows h.knows
  have hsame : g'.vars = g.vars := by
    refine List.ext_getElem? fun u => ?_
    refine (hvars u).trans ?_
    cases hw : g.variableAt? u with
    | none => exact hw.symm
    | some w => exact (congrArg some (h.informed u w hw).informed_eq).trans hw.symm
  rw [hok]
  cases g
  cases g'
  cases hscopes
  cases hrefs
  cases hsame
  rfl

theorem Graph.resolveThrough_eq_self {s} (hs : g.scopeAt? globalScope = some s)
    (hp : s.parent = none) (hfree : ∀ i ∈ s.through, g.target? globalScope i = none) :
    g.resolveThrough = g := by
  have hscopes : g.resolveThrough.scopes = g.scopes := by
    refine List.ext_getElem? fun x => ?_
    refine (scopeAt?_resolveThrough hs hp x).trans ?_
    have hthrough : g.unresolved globalScope s.through = s.through :=
      List.filter_eq_self.mpr fun i hi => by simp [hfree i hi]
    rw [hthrough]
    cases ht : g.scopeAt? x with
    | none => exact ht.symm
    | some t =>
      refine Eq.trans ?_ ht.symm
      by_cases hx : x = globalScope
      · subst hx
        cases hs.symm.trans ht
        simp
      · simp [hx]
  have hrefs : g.resolveThrough.references = g.references := by
    refine List.ext_getElem? fun i => ?_
    refine (referenceAt?_resolveThrough hs hp i).trans ?_
    cases hr : g.referenceAt? i with
    | none => exact hr.symm
    | some r =>
      refine Eq.trans ?_ hr.symm
      by_cases hi : i ∈ s.through
      · have hnone : g.variableIn? globalScope r.name = none := by
          simpa [target?, hr] using hfree i hi
        simp [hi, hnone]
      · simp [hi]
  have hvars : g.resolveThrough.vars = g.vars := by
    refine List.ext_getElem? fun v => ?_
    refine (variableAt?_resolveThrough hs hp v).trans ?_
    have hnobody : (s.through.filter fun i => g.target? globalScope i == some v) = [] :=
      List.filter_eq_nil_iff.mpr fun i hi => by simp [hfree i hi]
    rw [hnobody, referredTo_nil, Option.map_id_apply]
    rfl
  cases hg : g.resolveThrough
  cases g
  rw [hg] at hscopes hrefs hvars
  cases hscopes
  cases hrefs
  cases hvars
  rfl

/-- What a reconciliation may do to a graph: the global scope and the module scope may change, and
references that mean nothing may get the variable of the global scope that has their name. -/
structure Graph.Reconciled (g g' : Graph) : Prop where
  scopes : ∀ x, x ≠ globalScope → g.moduleScope? ≠ some x → g'.scopeAt? x = g.scopeAt? x
  length : g'.references.length = g.references.length
  /-- Only the meaning of a reference changes. -/
  references : ∀ i r, g.referenceAt? i = some r → ∃ meaning,
    g'.referenceAt? i = some { r with resolved := meaning } ∧
    (∀ v, r.resolved = some v → meaning = some v) ∧
    ∀ v, r.resolved = none → meaning = some v →
      ∃ s w, g'.scopeAt? globalScope = some s ∧ v ∈ s.vars ∧ g'.variableAt? v = some w ∧
        w.scope = globalScope ∧ w.name = r.name

theorem Steady.reconciled_resolveThrough {g₁} (h₁ : Steady g₁) (hext : Extends g g₁) :
    g.Reconciled g₁.resolveThrough := by
  obtain ⟨s, hs⟩ := h₁.settled.lineage.1
  have hp := (h₁.settled.rooted _ s hs).2.mpr rfl
  have hat := Graph.scopeAt?_resolveThrough hs hp
  have hrefs := Graph.referenceAt?_resolveThrough hs hp
  have hlast := h₁.resolveThrough
  refine ⟨fun x hx hm => ?_, ?_, fun i r hr => ?_⟩
  · rw [hat, hext.scopes x hx hm]
    simp [hx]
  · have hsame : ∀ i, g₁.resolveThrough.referenceAt? i = none ↔ g.referenceAt? i = none := by
      intro i
      rw [hrefs, hext.references, Option.map_eq_none_iff]
    refine Nat.le_antisymm ?_ ?_
    · exact List.getElem?_eq_none_iff.mp ((hsame _).mpr (List.getElem?_eq_none (Nat.le_refl _)))
    · exact List.getElem?_eq_none_iff.mp ((hsame _).mp (List.getElem?_eq_none (Nat.le_refl _)))
  · have hr₁ : g₁.referenceAt? i = some r := (hext.references i).trans hr
    have hwaits : i ∈ s.through → r.resolved = none := by
      intro hi
      obtain ⟨r', hr', hnone⟩ := h₁.settled.through i (by simpa [Graph.throughOf, hs] using hi)
      cases hr₁.symm.trans hr'
      exact hnone
    by_cases hi : i ∈ s.through
    · refine ⟨g₁.variableIn? Graph.globalScope r.name, ?_, fun v hv => ?_, fun v _ hv => ?_⟩
      · simp [hrefs, hr₁, hi, hwaits hi]
      · cases (hwaits hi).symm.trans hv
      · rw [← Graph.variableIn?_resolveThrough hs hp] at hv
        obtain ⟨w, hw, hname, hscope⟩ := hlast.settled.registered.1 _ _ _ hv
        obtain ⟨⟨t, ht⟩, howner⟩ := hlast.consistent.owners v w hw
        rw [hscope] at ht
        exact ⟨t, w, ht, (howner _ t ht).mpr hscope.symm, hw, hscope, hname⟩
    · refine ⟨r.resolved, ?_, fun v hv => hv, fun v hnone hv => ?_⟩
      · simp [hrefs, hr₁, hi]
      · cases hnone.symm.trans hv

/-- A reconciliation changes nothing but the two outermost scopes, their variables and the meaning of
references that have none, and done again it changes nothing at all. -/
theorem applyVariables_settles {options : Options} {program : Node} {g g' : Graph}
    {vs : List Component.Variable} (h : analyze options program = .ok g)
    (hok : g.applyVariables vs = .ok g') :
    g'.applyVariables vs = .ok g' ∧ g.Reconciled g' := by
  have hsteady : Steady g := (built_of_analyze h).steady
  have hstart : Told g [] := ⟨by simp, fun _ w _ => informed_nil w⟩
  obtain ⟨g₁, hvs, hok⟩ := bind_eq_ok.mp hok
  cases hok
  obtain ⟨hext, htold⟩ := hstart.applyAll hsteady.settled hvs
  rw [List.nil_append] at htold
  obtain ⟨g₂, hok₂, h₁⟩ := (hsteady.applyAll vs).resolve_left fun ⟨name, herror⟩ => by
    cases hvs.symm.trans herror
  cases hvs.symm.trans hok₂
  refine ⟨?_, h₁.reconciled_resolveThrough hext⟩
  obtain ⟨s, hs⟩ := h₁.settled.lineage.1
  have hp := (h₁.settled.rooted _ s hs).2.mpr rfl
  have hagain : Told g₁.resolveThrough vs := by
    have htop : g₁.resolveThrough.topLevel? = g₁.topLevel? := by
      funext name
      have hmodule : g₁.resolveThrough.moduleScope? = g₁.moduleScope? :=
        Graph.moduleScope?_congr (Graph.scopeAt?_resolveThrough hs hp) fun x t => ⟨rfl, rfl⟩
      rw [Graph.topLevel?, Graph.variableIn?_resolveThrough hs hp, hmodule, Graph.topLevel?]
    refine htold.mono (fun name id hid => htop ▸ hid) fun u => ?_
    cases hw : g₁.variableAt? u with
    | none => exact .inl rfl
    | some w =>
      refine .inr ⟨w, _, rfl, by rw [Graph.variableAt?_resolveThrough hs hp, hw, Option.map_some], ?_⟩
      exact ⟨fun hscope => hscope, rfl, fun hi => hi, fun hu => by simp [Graph.referredTo, hu]⟩
  obtain ⟨t, ht⟩ := h₁.resolveThrough.settled.lineage.1
  have hpt := (h₁.resolveThrough.settled.rooted _ t ht).2.mpr rfl
  have hfree : ∀ i ∈ t.through, g₁.resolveThrough.target? Graph.globalScope i = none := by
    intro i hi
    exact h₁.settled.target?_resolveThrough hs (by simpa [Graph.throughOf, ht] using hi)
  unfold Graph.applyVariables
  rw [hagain.applyAll_again]
  exact congrArg Except.ok (Graph.resolveThrough_eq_self ht hpt hfree)

/-- The component exports `x`, adds `y` and then says that `x` is constant. -/
theorem applyVariables_settles_exported :
    ∃ g g', analyze {} blockReadingThreeNames = .ok g ∧
      g.applyVariables [{ name := "x", exportName := some "x", writable := true },
        { name := "y", injected := true }, { name := "x" }] = .ok g' ∧
      g'.applyVariables [{ name := "x", exportName := some "x", writable := true },
        { name := "y", injected := true }, { name := "x" }] = .ok g' ∧
      g.Reconciled g' ∧
      g.vars.map Variable.writable = [true] ∧ g'.vars.map Variable.writable = [false, false] ∧
      g'.references.map Reference.resolved = [some 0, some 1, none] := by
  have hrun : ((analyze {} blockReadingThreeNames).toOption.bind fun g =>
      (g.applyVariables [{ name := "x", exportName := some "x", writable := true },
        { name := "y", injected := true }, { name := "x" }]).toOption.map fun g' =>
          (g.vars.map Variable.writable, g'.vars.map Variable.writable,
            g'.references.map Reference.resolved)) =
      some ([true], [false, false], [some 0, some 1, none]) := by decide +kernel
  obtain ⟨g, hg, hrun⟩ := Option.bind_eq_some_iff.mp hrun
  obtain ⟨g', hg', hrun⟩ := Option.map_eq_some_iff.mp hrun
  rw [toOption_eq_some] at hg hg'
  obtain ⟨hagain, hreconciled⟩ := applyVariables_settles hg hg'
  exact ⟨g, g', hg, hg', hagain, hreconciled, congrArg Prod.fst hrun, congrArg (·.2.1) hrun,
    congrArg (·.2.2) hrun⟩

end SvelteSyntax.Scoping
