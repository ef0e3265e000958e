import SvelteSyntax.Proofs.Scoping.Nesting

namespace SvelteSyntax.Scoping

def UsedIn (marks : ScopeId → Prop) (g g' : Graph) : Prop :=
  ∀ v w', g'.variableAt? v = some w' → w'.used → (∃ w, g.variableAt? v = some w ∧ w.used) ∨ marks w'.scope

variable {g : Graph} {marks : ScopeId → Prop} {id : ScopeId} {b : Building} {opens : List ScopeId}

theorem UsedIn.trans {marks' marks''} {g' g'' : Graph} (h : UsedIn marks g g')
    (h' : UsedIn marks' g' g'') (hevolves : Evolves g' g'') (hmarks : ∀ x, marks x → marks'' x)
    (hmarks' : ∀ x, marks' x → marks'' x) : UsedIn marks'' g g'' := by
  intro v w'' hw'' hused
  rcases h' v w'' hw'' hused with ⟨w', hw', hused'⟩ | hscope
  · obtain ⟨_, hfound, hcontinues⟩ := hevolves.vars v w' hw'
    cases Option.some.inj (hw''.symm.trans hfound)
    exact (h v w' hw' hused').imp_right fun hm => hcontinues.scope ▸ hmarks _ hm
  · exact .inr (hmarks' _ hscope)

theorem UsedIn.of_eq {g' : Graph} (h : g'.variableAt? = g.variableAt?) :
    UsedIn marks g g' := fun v w' hw' hused => .inl ⟨w', by rw [← h, hw'], hused⟩

theorem UsedIn.of_declare {scope name d} :
    UsedIn marks g (g.declare scope name d).2 := by
  intro v w' hw' hused
  rw [Graph.variableAt?_declare] at hw'
  split at hw'
  · split at hw'
    · cases hw'
      cases hused
    · exact .inl ⟨w', hw', hused⟩
  · obtain ⟨w, hw, rfl⟩ := Option.map_eq_some_iff.mp hw'
    refine .inl ⟨w, hw, ?_⟩
    split at hused
    · exact hused
    · exact hused

theorem variableAt?_foldl_markUsed (vs : List VariableId) (g : Graph) (v : VariableId) :
    (vs.foldl (fun g v => g.modifyVariable v ({ · with used := true })) g).variableAt? v =
      (g.variableAt? v).map fun w => if v ∈ vs then { w with used := true } else w := by
  induction vs generalizing g with
  | nil => simp
  | cons u vs ih =>
    rw [List.foldl_cons, ih, Graph.variableAt?_modifyVariable, Option.map_map]
    congr 1
    funext w
    by_cases hu : v = u
    · simp [hu]
    · simp [hu]

/-- A change that opens no scope and makes no reference. -/
structure Alters (marks : ScopeId → Prop) (g g' : Graph) : Prop extends Evolves g g' where
  scopes_length : g'.scopes.length = g.scopes.length
  references_length : g'.references.length = g.references.length
  used : UsedIn marks g g'

theorem length_eq_of_map {α : Type} {xs ys : List α} {f : Nat → α → α}
    (h : ∀ i : Nat, ys[i]? = xs[i]?.map (f i)) : ys.length = xs.length := by
  have hnone : ∀ i : Nat, ys.length ≤ i ↔ xs.length ≤ i := fun i => by
    rw [← List.getElem?_eq_none_iff, h, Option.map_eq_none_iff, List.getElem?_eq_none_iff]
  exact Nat.le_antisymm ((hnone _).mpr (Nat.le_refl _)) ((hnone _).mp (Nat.le_refl _))

namespace Alters

variable {marks : ScopeId → Prop} {g g' g'' : Graph} {opens : List ScopeId}

theorem refl (g : Graph) : Alters marks g g := ⟨.refl g, rfl, rfl, .of_eq rfl⟩

theorem trans (h : Alters marks g g') (h' : Alters marks g' g'') : Alters marks g g'' :=
  ⟨h.toEvolves.trans h'.toEvolves, h'.scopes_length.trans h.scopes_length,
    h'.references_length.trans h.references_length,
    h.used.trans h'.used h'.toEvolves (fun _ => id) fun _ => id⟩

theorem declare {scope} (h : Built opens g) (hscope : scope ∈ opens) (name : String)
    (d : Definition) (hlet : d.IsLet → g.kindAt? scope = some .component) :
    Alters marks g (g.declare scope name d).2 := by
  refine ⟨.declare h hscope name d hlet, length_eq_of_map (Graph.scopeAt?_declare g scope name d),
    length_eq_of_map (f := fun _ r => r) fun i => ?_, .of_declare⟩
  exact (Graph.referenceAt?_declare g scope name d i).trans Option.map_id_apply.symm

theorem close (h : Built (id :: opens) g) : Alters (· = id) g (g.close id) := by
  obtain ⟨⟨⟨s, hs, -⟩, -⟩, hrooted⟩ := h.nested
  refine ⟨.close h, length_eq_of_map (Graph.scopeAt?_close hs (hrooted.parent_ne hs)),
    length_eq_of_map (Graph.referenceAt?_close hs), fun v w' hw' hused => ?_⟩
  rw [Graph.variableAt?_close hs] at hw'
  obtain ⟨w, hw, rfl⟩ := Option.map_eq_some_iff.mp hw'
  rcases Bool.or_eq_true_iff.mp hused with hused | hread
  · exact .inl ⟨w, hw, hused⟩
  · obtain ⟨i, hi, -⟩ := List.any_eq_true.mp hread
    obtain ⟨r, -, hfound⟩ := Option.bind_eq_some_iff.mp (beq_iff_eq.mp (List.mem_filter.mp hi).2)
    obtain ⟨_, hw'', -, hscope⟩ := h.registered.1 _ _ _ hfound
    cases hw.symm.trans hw''
    exact .inr hscope

theorem foldl {α : Type} {f : Graph → α → Graph} {xs : List α} {P : Graph → Prop}
    (hf : ∀ a ∈ xs, ∀ g, P g → P (f g a) ∧ Alters marks g (f g a)) (hg : P g) :
    P (xs.foldl f g) ∧ Alters marks g (xs.foldl f g) := by
  induction xs generalizing g with
  | nil => exact ⟨hg, refl g⟩
  | cons a xs ih =>
    obtain ⟨hbuilt, halters⟩ := hf a (List.mem_cons_self ..) g hg
    obtain ⟨hbuilt', halters'⟩ := ih (fun a' ha' => hf a' (List.mem_cons_of_mem _ ha')) hbuilt
    exact ⟨hbuilt', halters.trans halters'⟩

theorem markIndex (h : Built opens g) (hkind : g.kindAt? id = some .each) (context index : Node) :
    Built opens (Scoping.markIndex id context index g) ∧
      Alters (· = id) g (Scoping.markIndex id context index g) := by
  unfold Scoping.markIndex
  split
  · have hstep : ∀ v ∈ boundIn g id index, ∀ g', Built opens g' ∧ Evolves g g' →
        (Built opens (g'.modifyVariable v ({ · with used := true })) ∧
          Evolves g (g'.modifyVariable v ({ · with used := true }))) ∧
        Alters (· = id) g' (g'.modifyVariable v ({ · with used := true })) := by
      rintro v hv g' ⟨hbuilt, hevolves⟩
      obtain ⟨i, -, hi⟩ := List.mem_filterMap.mp hv
      obtain ⟨name, -, hfound⟩ := Option.bind_eq_some_iff.mp hi
      obtain ⟨w', hw', -, hscope⟩ := hbuilt.registered.1 _ _ _ (hevolves.names _ _ _ hfound)
      have hmark := Evolves.markUsed g' v
      refine ⟨⟨hbuilt.markUsed v fun w hw => ?_, hevolves.trans hmark⟩, hmark, rfl, rfl,
        fun u w hw hused => ?_⟩
      · cases hw'.symm.trans hw
        exact hscope ▸ hevolves.kindAt? hkind
      · rw [Graph.variableAt?_modifyVariable] at hw
        obtain ⟨w₀, hw₀, rfl⟩ := Option.map_eq_some_iff.mp hw
        split at hused
        · next hu =>
          subst hu
          cases hw'.symm.trans hw₀
          rw [if_pos rfl]
          exact .inr hscope
        · exact .inl ⟨w₀, hw₀, hused⟩
    obtain ⟨⟨hbuilt, -⟩, halters⟩ := foldl hstep ⟨h, .refl g⟩
    exact ⟨hbuilt, halters⟩
  · exact ⟨h, refl g⟩

end Alters

/-- What is built when the targets of the reactive assignments in a scope are declared. -/
def Building.declared (b : Building) (id : ScopeId) : Graph :=
  (b.reactive.filter (·.scope == id)).foldl Reactive.declareIn b.graph

theorem eq_of_closeScope {b'} (h : closeScope id b = .ok ((), b')) :
    b' = { graph := (b.declared id).close id, reactive := b.reactive.filter (·.scope != id) } := by
  cases h
  simp only [List.partition_eq_filter_filter]
  rfl

theorem alters_foldl_declareIn {rs : List Reactive} (h : Built (id :: opens) g)
    (hrs : ∀ r ∈ rs, r.scope = id) :
    Built (id :: opens) (rs.foldl Reactive.declareIn g) ∧
      Alters marks g (rs.foldl Reactive.declareIn g) := by
  refine Alters.foldl (fun r hr g hg => ?_) h
  have hscope : r.scope ∈ id :: opens := hrs r hr ▸ List.mem_cons_self ..
  unfold Reactive.declareIn
  split
  · exact ⟨hg, .refl g⟩
  · exact ⟨hg.declare _ _ hscope, .declare hg hscope _ _ fun hlet => by cases hlet.1⟩

theorem alters_declared (h : Built (id :: opens) b.graph) :
    Built (id :: opens) (b.declared id) ∧ Alters marks b.graph (b.declared id) :=
  alters_foldl_declareIn h fun _ hr => beq_iff_eq.mp (List.mem_filter.mp hr).2

theorem alters_closeScope {b'} (h : Built (id :: opens) b.graph)
    (hclose : closeScope id b = .ok ((), b')) :
    Built opens b'.graph ∧ Alters (· = id) b.graph b'.graph := by
  obtain ⟨hbuilt, halters⟩ := alters_declared h
  cases eq_of_closeScope hclose
  exact ⟨hbuilt.close, halters.trans (.close hbuilt)⟩

structure Grows (current : ScopeId) (g g' : Graph) : Prop extends Evolves g g' where
  opened : ∀ x, g.scopes.length ≤ x → x < g'.scopes.length →
    ∃ p, g'.parent? x = some p ∧ (p = current ∨ g.scopes.length ≤ p)
  made : ∀ i r, g.references.length ≤ i → g'.referenceAt? i = some r →
    r.scope = current ∨ g.scopes.length ≤ r.scope ∧ r.scope < g'.scopes.length

namespace Grows

variable {current : ScopeId} {g g' g'' : Graph}

theorem of_alters (h : Alters marks g g') : Grows current g g' where
  toEvolves := h.toEvolves
  opened x hx hx' := by
    rw [h.scopes_length] at hx'
    omega
  made i r hi hr := by
    have hi' : i < g'.references.length := (List.getElem?_eq_some_iff.mp hr).1
    rw [h.references_length] at hi'
    omega

theorem refl (g : Graph) : Grows current g g := of_alters (@Alters.refl (fun _ => False) g)

theorem trans (h : Grows current g g') (h' : Grows current g' g'') : Grows current g g'' where
  toEvolves := h.toEvolves.trans h'.toEvolves
  opened x hx hx'' := by
    by_cases hx' : x < g'.scopes.length
    · rw [h'.parent?_eq hx']
      exact h.opened x hx hx'
    · obtain ⟨p, hp, hold⟩ := h'.opened x (Nat.le_of_not_lt hx') hx''
      exact ⟨p, hp, hold.imp_right (Nat.le_trans h.scopes_le)⟩
  made i r hi hr := by
    by_cases hi' : i < g'.references.length
    · have hr' : g'.referenceAt? i = some g'.references[i] := List.getElem?_eq_getElem hi'
      rw [h'.scope_eq hr' hr]
      refine (h.made i _ hi hr').imp_right fun hnew => ⟨hnew.1, ?_⟩
      exact Nat.lt_of_lt_of_le hnew.2 h'.scopes_le
    · refine (h'.made i r (Nat.le_of_not_lt hi') hr).imp_right fun hnew => ⟨?_, hnew.2⟩
      exact Nat.le_trans h.scopes_le hnew.1

theorem addReference (g : Graph) (current : ScopeId) (name : String) (start stop : Nat)
    (access : Access) (init : Bool) :
    Grows current g (g.addReference current name start stop access init) := by
  refine ⟨.addReference .., fun x hx hx' => ?_, fun i r hi hr => ?_⟩
  · have hlength : (g.addReference current name start stop access init).scopes.length = g.scopes.length :=
      List.length_modify ..
    omega
  · rw [Graph.referenceAt?_addReference] at hr
    split at hr
    · cases hr
      exact .inl rfl
    · have hi' := (List.getElem?_eq_some_iff.mp hr).1
      omega

theorem scopes_length_pushScope (g : Graph) (kind : ScopeKind) (parent : Option ScopeId)
    (blockKind : String) (blockStart : Nat) :
    (g.pushScope kind parent blockKind blockStart).scopes.length = g.scopes.length + 1 := by
  cases parent with
  | none => simp [Graph.pushScope]
  | some p => simp [Graph.pushScope, Graph.modifyScope]

theorem pushScope {kind blockKind blockStart}
    (hpush : Evolves g (g.pushScope kind (some current) blockKind blockStart))
    (hcurrent : current < g.scopes.length)
    (h : Grows g.scopes.length (g.pushScope kind (some current) blockKind blockStart) g') :
    Grows current g g' := by
  have hne : some current ≠ some g.scopes.length := fun he =>
    Nat.ne_of_lt hcurrent (Option.some.inj he)
  have hlength := scopes_length_pushScope g kind (some current) blockKind blockStart
  have hlt : g.scopes.length < (g.pushScope kind (some current) blockKind blockStart).scopes.length :=
    hlength ▸ Nat.lt_succ_self _
  refine ⟨hpush.trans h.toEvolves, fun x hx hx' => ?_, fun i r hi hr => ?_⟩
  · rcases Nat.eq_or_lt_of_le hx with rfl | hx
    · rw [h.parent?_eq hlt, Graph.parent?_pushScope g kind hne, if_pos rfl]
      exact ⟨current, rfl, .inl rfl⟩
    · obtain ⟨p, hp, hin⟩ := h.opened x (hlength ▸ hx) hx'
      exact ⟨p, hp, .inr (hin.elim (fun he => he ▸ Nat.le_refl _) (Nat.le_trans (Nat.le_of_lt hlt)))⟩
  · rcases h.made i r hi hr with hscope | hnew
    · rw [hscope]
      exact .inr ⟨Nat.le_refl _, Nat.lt_of_lt_of_le hlt h.scopes_le⟩
    · exact .inr ⟨Nat.le_trans (Nat.le_of_lt hlt) hnew.1, hnew.2⟩

end Grows

end SvelteSyntax.Scoping
