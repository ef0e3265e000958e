import SvelteSyntax.Proofs.Scoping.Resolution

namespace SvelteSyntax.Scoping

variable {kind : ScopeKind} {x : ScopeId} {f : ScopeId → Scope → Scope}

theorem Graph.kindAt?_pushScope_of_some {g : Graph} {k parent}
    (hparent : parent ≠ some g.scopes.length) (hx : g.kindAt? x = some k) (blockKind : String)
    (blockStart : Nat) :
    (g.pushScope kind parent blockKind blockStart).kindAt? x = some k := by
  obtain ⟨s, hs, rfl⟩ := Option.map_eq_some_iff.mp hx
  rw [kindAt?, scopeAt?_pushScope g kind hparent, if_neg (Nat.ne_of_lt (scopeAt?_lt hs)), hs,
    Option.map_some, Option.map_some]
  split <;> rfl

def Definition.IsLet (d : Definition) : Prop := d.kind = .templateBinding ∧ d.nodeKind = "Let"

structure Graph.Nesting (g : Graph) : Prop where
  branches : ∀ x s, g.scopeAt? x = some s → s.kind = .awaitThen ∨ s.kind = .awaitCatch →
    ∃ p, s.parent = some p ∧ g.kindAt? p = some .await
  lets : ∀ v w, g.variableAt? v = some w → (∃ d ∈ w.definitions, d.IsLet) →
    g.kindAt? w.scope = some .component

/-- What is known of a variable stays, and more may come. -/
structure Variable.Continues (w w' : Variable) : Prop where
  scope : w'.scope = w.scope
  definitions : w.definitions <+: w'.definitions
  references : w.references <+: w'.references
  used : w.used → w'.used

theorem Variable.Continues.refl (w : Variable) : w.Continues w := ⟨rfl, List.prefix_rfl, List.prefix_rfl, id⟩

/-- The later graph has all that the earlier one has, at the same places. -/
structure Evolves (g g' : Graph) : Prop where
  scopes : ∀ x s, g.scopeAt? x = some s → ∃ s', g'.scopeAt? x = some s' ∧ s'.kind = s.kind ∧
    s'.parent = s.parent ∧ s.children <+: s'.children
  vars : ∀ v w, g.variableAt? v = some w → ∃ w', g'.variableAt? v = some w' ∧ w.Continues w'
  references : ∀ i r, g.referenceAt? i = some r →
    ∃ r', g'.referenceAt? i = some r' ∧ r'.scope = r.scope ∧ r'.access = r.access
  names : ∀ x name v, g.variableIn? x name = some v → g'.variableIn? x name = some v
  nesting : g.Nesting → g'.Nesting

namespace Evolves

variable {g g' g'' : Graph}

theorem refl (g : Graph) : Evolves g g :=
  ⟨fun _ s hs => ⟨s, hs, rfl, rfl, List.prefix_rfl⟩, fun _ w hw => ⟨w, hw, .refl w⟩,
    fun _ r hr => ⟨r, hr, rfl, rfl⟩, fun _ _ _ h => h, id⟩

theorem trans (h : Evolves g g') (h' : Evolves g' g'') : Evolves g g'' where
  scopes x s hs := by
    obtain ⟨s', hs', hkind, hparent, hchildren⟩ := h.scopes x s hs
    obtain ⟨s'', hs'', hkind', hparent', hchildren'⟩ := h'.scopes x s' hs'
    exact ⟨s'', hs'', hkind'.trans hkind, hparent'.trans hparent, hchildren.trans hchildren'⟩
  vars v w hw := by
    obtain ⟨w', hw', hscope, hdefinitions, hreferences, hused⟩ := h.vars v w hw
    obtain ⟨w'', hw'', hscope', hdefinitions', hreferences', hused'⟩ := h'.vars v w' hw'
    exact ⟨w'', hw'', hscope'.trans hscope, hdefinitions.trans hdefinitions',
      hreferences.trans hreferences', fun hu => hused' (hused hu)⟩
  references i r hr := by
    obtain ⟨r', hr', hscope, haccess⟩ := h.references i r hr
    obtain ⟨r'', hr'', hscope', haccess'⟩ := h'.references i r' hr'
    exact ⟨r'', hr'', hscope'.trans hscope, haccess'.trans haccess⟩
  names x name v hv := h'.names x name v (h.names x name v hv)
  nesting hg := h'.nesting (h.nesting hg)

theorem isSome_variableIn? (h : Evolves g g') {name} (hx : (g.variableIn? x name).isSome) :
    (g'.variableIn? x name).isSome := by
  obtain ⟨v, hv⟩ := Option.isSome_iff_exists.mp hx
  exact Option.isSome_iff_exists.mpr ⟨v, h.names x name v hv⟩

theorem scopes_le (h : Evolves g g') : g.scopes.length ≤ g'.scopes.length := by
  refine Nat.le_of_not_lt fun hlt => ?_
  obtain ⟨s', hs', -⟩ := h.scopes _ _ (List.getElem?_eq_getElem hlt)
  exact Nat.lt_irrefl _ (Graph.scopeAt?_lt hs')

theorem parent?_eq (h : Evolves g g') (hx : x < g.scopes.length) :
    g'.parent? x = g.parent? x := by
  have hs : g.scopeAt? x = some g.scopes[x] := List.getElem?_eq_getElem hx
  obtain ⟨s', hs', -, hparent, -⟩ := h.scopes x _ hs
  rw [Graph.parent?, Graph.parent?, hs, hs', Option.bind_some, Option.bind_some, hparent]

theorem kindAt?_eq (h : Evolves g g') (hx : x < g.scopes.length) :
    g'.kindAt? x = g.kindAt? x := by
  have hs : g.scopeAt? x = some g.scopes[x] := List.getElem?_eq_getElem hx
  obtain ⟨s', hs', hkind, -⟩ := h.scopes x _ hs
  rw [Graph.kindAt?, Graph.kindAt?, hs, hs', Option.map_some, Option.map_some, hkind]

theorem kindAt? (h : Evolves g g') (hx : g.kindAt? x = some kind) :
    g'.kindAt? x = some kind := by
  obtain ⟨s, hs, -⟩ := Option.map_eq_some_iff.mp hx
  rw [h.kindAt?_eq (Graph.scopeAt?_lt hs), hx]

theorem scope_eq (h : Evolves g g') {i r r'} (hr : g.referenceAt? i = some r)
    (hr' : g'.referenceAt? i = some r') : r'.scope = r.scope := by
  obtain ⟨_, hfound, hscope, -⟩ := h.references i r hr
  cases Option.some.inj (hr'.symm.trans hfound)
  exact hscope

theorem of_map (hat : ∀ x, g'.scopeAt? x = (g.scopeAt? x).map (f x))
    (hf : ∀ x s, (f x s).kind = s.kind ∧ (f x s).parent = s.parent ∧ (f x s).children = s.children)
    (hvars : ∀ v w, g.variableAt? v = some w → ∃ w', g'.variableAt? v = some w' ∧ w.Continues w')
    (hrefs : ∀ i r, g.referenceAt? i = some r →
      ∃ r', g'.referenceAt? i = some r' ∧ r'.scope = r.scope ∧ r'.access = r.access)
    (hnames : ∀ x name v, g.variableIn? x name = some v → g'.variableIn? x name = some v)
    (hlets : g.Nesting → ∀ v w, g'.variableAt? v = some w → (∃ d ∈ w.definitions, d.IsLet) →
      g.kindAt? w.scope = some .component) : Evolves g g' := by
  have hkinds : ∀ x, g'.kindAt? x = g.kindAt? x :=
    fun x => Graph.map_scopeAt?_congr hat (fun x s => (hf x s).1) x
  refine ⟨fun x s hs => ?_, hvars, hrefs, hnames,
    fun hg => ⟨fun x s' hs' hbranch => ?_, fun v w hw hlet => ?_⟩⟩
  · obtain ⟨hkind, hparent, hchildren⟩ := hf x s
    exact ⟨f x s, by rw [hat, hs]; rfl, hkind, hparent, hchildren ▸ List.prefix_rfl⟩
  · rw [hat] at hs'
    obtain ⟨s, hs, rfl⟩ := Option.map_eq_some_iff.mp hs'
    obtain ⟨hkind, hparent, -⟩ := hf x s
    rw [hkind] at hbranch
    obtain ⟨p, hp, hawait⟩ := hg.branches x s hs hbranch
    exact ⟨p, hparent.trans hp, (hkinds p).trans hawait⟩
  · exact (hkinds _).trans (hlets hg v w hw hlet)

theorem of_same (hat : ∀ x, g'.scopeAt? x = (g.scopeAt? x).map (f x))
    (hf : ∀ x s, (f x s).kind = s.kind ∧ (f x s).parent = s.parent ∧ (f x s).children = s.children ∧
      (f x s).names = s.names) {q : VariableId → Variable → Variable}
    (hvars : ∀ v, g'.variableAt? v = (g.variableAt? v).map (q v))
    (hq : ∀ v w, w.Continues (q v w) ∧ (q v w).definitions = w.definitions)
    (hrefs : ∀ i r, g.referenceAt? i = some r →
      ∃ r', g'.referenceAt? i = some r' ∧ r'.scope = r.scope ∧ r'.access = r.access) : Evolves g g' := by
  have hnames : g'.variableIn? = g.variableIn? :=
    Graph.variableIn?_congr (Graph.map_scopeAt?_congr hat fun x s => (hf x s).2.2.2)
  refine of_map hat (fun x s => ⟨(hf x s).1, (hf x s).2.1, (hf x s).2.2.1⟩)
    (fun v w hw => ⟨q v w, by rw [hvars, hw]; rfl, (hq v w).1⟩) hrefs (fun x name v hv => by rwa [hnames])
    fun hg v w' hw' hlet => ?_
  rw [hvars] at hw'
  obtain ⟨w, hw, rfl⟩ := Option.map_eq_some_iff.mp hw'
  obtain ⟨hcontinues, hdefinitions⟩ := hq v w
  rw [hdefinitions] at hlet
  rw [hcontinues.scope]
  exact hg.lets v w hw hlet

variable {opens : List ScopeId}

theorem markUsed (g : Graph) (v : VariableId) :
    Evolves g (g.modifyVariable v ({ · with used := true })) := by
  refine of_same (f := fun _ s => s) (by simp) (fun _ _ => ⟨rfl, rfl, rfl, rfl⟩)
    (Graph.variableAt?_modifyVariable g v · _) (fun u w => ?_) fun _ r hr => ⟨r, hr, rfl, rfl⟩
  split
  · exact ⟨⟨rfl, List.prefix_rfl, List.prefix_rfl, fun _ => rfl⟩, rfl⟩
  · exact ⟨.refl w, rfl⟩

theorem addReference (g : Graph) (scope : ScopeId) (name : String) (start stop : Nat)
    (access : Access) (init : Bool) : Evolves g (g.addReference scope name start stop access init) := by
  refine of_same (Graph.scopeAt?_addReference g scope name start stop access init) (fun x s => ?_)
    (q := fun _ w => w) (by simp) (fun _ w => ⟨.refl w, rfl⟩) fun i r hr => ⟨r, ?_, rfl, rfl⟩
  · split
    · exact ⟨rfl, rfl, rfl, rfl⟩
    · exact ⟨rfl, rfl, rfl, rfl⟩
  · have hi : i ≠ g.references.length := Nat.ne_of_lt (List.getElem?_eq_some_iff.mp hr).1
    rw [Graph.referenceAt?_addReference, if_neg hi, hr]

theorem close {id : ScopeId} (h : Built (id :: opens) g) : Evolves g (g.close id) := by
  obtain ⟨⟨⟨s, hs, -⟩, -⟩, hrooted⟩ := h.nested
  refine of_same (Graph.scopeAt?_close hs (hrooted.parent_ne hs)) (fun _ _ => ⟨rfl, rfl, rfl, rfl⟩)
    (Graph.variableAt?_close hs) (fun v w => ⟨⟨rfl, List.prefix_rfl, List.prefix_append .., ?_⟩, rfl⟩)
    fun i r hr => ?_
  · exact fun hu => Bool.or_eq_true_iff.mpr (.inl hu)
  · rw [Graph.referenceAt?_close hs, hr]
    refine ⟨_, rfl, ?_⟩
    split
    · exact ⟨rfl, rfl⟩
    · exact ⟨rfl, rfl⟩

theorem declare {scope} (h : Built opens g) (hscope : scope ∈ opens) (name : String)
    (d : Definition) (hlet : d.IsLet → g.kindAt? scope = some .component) :
    Evolves g (g.declare scope name d).2 := by
  obtain ⟨s, hs⟩ := h.nested.1.exists_scope hscope
  refine of_map (Graph.scopeAt?_declare g scope name d) (fun x s => ?_) (fun v w hw => ?_)
    (fun i r hr => ⟨r, by simpa using hr, rfl, rfl⟩) (fun x other v hv => ?_) fun hg v w hw hw' => ?_
  · split
    · exact ⟨rfl, rfl, rfl⟩
    · exact ⟨rfl, rfl, rfl⟩
  · rw [Graph.variableAt?_declare]
    split
    · have hv : v ≠ g.vars.length := Nat.ne_of_lt (List.getElem?_eq_some_iff.mp hw).1
      rw [if_neg hv]
      exact ⟨w, hw, .refl w⟩
    · rw [hw]
      refine ⟨_, rfl, ?_⟩
      split
      · exact ⟨rfl, List.prefix_append .., List.prefix_rfl, id⟩
      · exact .refl w
  · rw [Graph.variableIn?_declare hs, if_neg]
    · exact hv
    · rintro ⟨rfl, rfl, hnone⟩
      cases hnone.symm.trans hv
  · rw [Graph.variableAt?_declare] at hw
    obtain ⟨e, he, heLet⟩ := hw'
    split at hw
    · split at hw
      · cases hw
        rw [List.mem_singleton] at he
        exact hlet (he ▸ heLet)
      · exact hg.lets v w hw ⟨e, he, heLet⟩
    · next u hu =>
      obtain ⟨w, hold, rfl⟩ := Option.map_eq_some_iff.mp hw
      split at he
      · next huv =>
        -- The variable of the name in the scope has that scope.
        obtain ⟨w', hw', -, hscope'⟩ := h.registered.1 _ _ _ hu
        rw [← huv, hold] at hw'
        cases hw'
        rw [if_pos huv]
        rcases List.mem_append.mp he with he | he
        · exact hg.lets v w hold ⟨e, he, heLet⟩
        · rw [List.mem_singleton] at he
          exact hscope'.symm ▸ hlet (he ▸ heLet)
      · next huv =>
        rw [if_neg huv]
        exact hg.lets v w hold ⟨e, he, heLet⟩

theorem pushScope {current} (h : Built (current :: opens) g)
    (hkind : kind = .awaitThen ∨ kind = .awaitCatch → g.kindAt? current = some .await)
    (blockKind : String) (blockStart : Nat) :
    Evolves g (g.pushScope kind (some current) blockKind blockStart) := by
  obtain ⟨s, hs⟩ := h.nested.1.exists_scope (List.mem_cons_self ..)
  have hne : some current ≠ some g.scopes.length := fun he =>
    Nat.ne_of_lt (Graph.scopeAt?_lt hs) (Option.some.inj he)
  have hat := Graph.scopeAt?_pushScope g kind hne blockKind blockStart
  have hold : ∀ x t, x ≠ g.scopes.length → g.scopeAt? x = some t →
      ∃ t', (g.pushScope kind (some current) blockKind blockStart).scopeAt? x = some t' ∧
        t'.kind = t.kind ∧ t'.parent = t.parent ∧ t.children <+: t'.children := by
    intro x t hx ht
    rw [hat, if_neg hx, ht, Option.map_some]
    refine ⟨_, rfl, ?_⟩
    split
    · exact ⟨rfl, rfl, List.prefix_append ..⟩
    · exact ⟨rfl, rfl, List.prefix_rfl⟩
  have hkinds : ∀ x k, g.kindAt? x = some k →
      (g.pushScope kind (some current) blockKind blockStart).kindAt? x = some k :=
    fun _ _ hx => Graph.kindAt?_pushScope_of_some hne hx ..
  refine ⟨fun x t ht => hold x t (Nat.ne_of_lt (Graph.scopeAt?_lt ht)) ht,
    fun v w hw => ⟨w, by simpa using hw, .refl w⟩, fun i r hr => ⟨r, by simpa using hr, rfl, rfl⟩,
    fun x name v hv => ?_, fun hg => ⟨fun x t' ht' hbranch => ?_, fun v w hw hlet => ?_⟩⟩
  · rwa [Graph.variableIn?_pushScope g kind hne]
  · by_cases hx : x = g.scopes.length
    · rw [hat, if_pos hx] at ht'
      cases ht'
      exact ⟨current, rfl, hkinds _ _ (hkind hbranch)⟩
    · have ht := ht'
      rw [hat, if_neg hx] at ht
      obtain ⟨t, ht, -⟩ := Option.map_eq_some_iff.mp ht
      obtain ⟨_, hfound, hsame, hparent, -⟩ := hold x t hx ht
      cases Option.some.inj (ht'.symm.trans hfound)
      obtain ⟨p, hp, hawait⟩ := hg.branches x t ht (hsame ▸ hbranch)
      exact ⟨p, hparent.trans hp, hkinds _ _ hawait⟩
  · rw [Graph.variableAt?_pushScope] at hw
    exact hkinds _ _ (hg.lets v w hw hlet)

end Evolves

end SvelteSyntax.Scoping
