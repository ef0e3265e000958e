import SvelteSyntax.Proofs.Scoping.Declared
import SvelteSyntax.Proofs.Scoping.Regions

namespace SvelteSyntax.Scoping

open Run

/-- A reference that reads means the variable. -/
def Graph.Read (g : Graph) (v : VariableId) : Prop :=
  ∃ i r, g.referenceAt? i = some r ∧ r.access.reads ∧ r.resolved = some v

def Graph.reads (g : Graph) (i : ReferenceId) : Bool := (g.referenceAt? i).any (·.access.reads)

variable {scope : ScopeId} {g g' : Graph} {pattern : Node} {v : VariableId} {opens : List ScopeId}

theorem Graph.reads_close {s} (hs : g.scopeAt? scope = some s) :
    (g.close scope).reads = g.reads := by
  funext i
  rw [reads, referenceAt?_close hs, Option.any_map, reads]
  congr 1
  funext r
  split <;> rfl

theorem Tabled.read_iff (h : Tabled g) {w : Variable} (hw : g.variableAt? v = some w) :
    g.Read v ↔ w.references.any g.reads := by
  have hmeanings := (h.meanings v w hw).2
  rw [List.any_eq_true]
  constructor
  · rintro ⟨i, r, hr, hreads, hv⟩
    refine ⟨i, (hmeanings i).mpr ⟨r, hr, hv⟩, ?_⟩
    rw [Graph.reads, hr]
    exact hreads
  · rintro ⟨i, hi, hreads⟩
    obtain ⟨r, hr, hv⟩ := (hmeanings i).mp hi
    rw [Graph.reads, hr] at hreads
    exact ⟨i, r, hr, hreads, hv⟩

theorem Evolves.read (h : Evolves g g') (hg : Tabled g) (hg' : Tabled g') (hread : g.Read v) :
    g'.Read v := by
  obtain ⟨i, r, hr, hreads, hv⟩ := hread
  obtain ⟨w, hw⟩ := hg.targets i r v hr hv
  obtain ⟨w', hw', hcontinues⟩ := h.vars v w hw
  obtain ⟨r', hr', -, haccess⟩ := h.references i r hr
  have hi : i ∈ w'.references :=
    hcontinues.references.subset (((hg.meanings v w hw).2 i).mpr ⟨r, hr, hv⟩)
  refine (hg'.read_iff hw').mpr (List.any_eq_true.mpr ⟨i, hi, ?_⟩)
  rw [Graph.reads, hr', Option.any_some, haccess, hreads]

def Graph.Marked (g : Graph) : Prop :=
  ∀ v w, g.variableAt? v = some w → (w.references.any g.reads → w.used) ∧
    (w.used → w.references.any g.reads ∨ g.kindAt? w.scope = some .each)

theorem Graph.Marked.step (h : g.Marked) (htabled : Tabled g)
    (hreads : ∀ i r, g.referenceAt? i = some r → g'.reads i = g.reads i)
    (hkinds : ∀ x kind, g.kindAt? x = some kind → g'.kindAt? x = some kind)
    (hvars : ∀ v w', g'.variableAt? v = some w' → w'.references = [] ∧ w'.used = false ∨
      ∃ w is, g.variableAt? v = some w ∧ w'.scope = w.scope ∧ w'.references = w.references ++ is ∧
        (w.used ∨ is.any g'.reads → w'.used) ∧
        (w'.used → (w.used ∨ is.any g'.reads) ∨ g.kindAt? w.scope = some .each)) : g'.Marked := by
  intro v w' hw'
  rcases hvars v w' hw' with ⟨hnone, hidle⟩ | ⟨w, is, hw, hscope, hreferences, hused, hused'⟩
  · simp [hnone, hidle]
  · have hsame : w.references.any g'.reads = w.references.any g.reads := by
      rw [Bool.eq_iff_iff, List.any_eq_true, List.any_eq_true]
      refine exists_congr fun i => and_congr_right fun hi => ?_
      obtain ⟨r, hr, -⟩ := ((htabled.meanings v w hw).2 i).mp hi
      rw [hreads i r hr]
    obtain ⟨hread, hmarked⟩ := h v w hw
    rw [hreferences, List.any_append, hsame, Bool.or_eq_true, hscope]
    refine ⟨fun hany => hused (hany.imp_left hread), fun hu => ?_⟩
    rcases hused' hu with (hu | hany) | hkind
    · exact (hmarked hu).imp .inl (hkinds _ _)
    · exact .inl (.inr hany)
    · exact .inr (hkinds _ _ hkind)

theorem Built.marked (h : Built opens g) : g.Marked := by
  induction h with
  | root => exact fun v w hw => by simp [Graph.variableAt?, Graph.pushScope] at hw
  | @pushScope current outer g kind blockKind blockStart h ih =>
    obtain ⟨s, hs⟩ := h.nested.1.exists_scope (List.mem_cons_self ..)
    have hne : some current ≠ some g.scopes.length := fun he =>
      Nat.ne_of_lt (Graph.scopeAt?_lt hs) (Option.some.inj he)
    refine ih.step h.tabled (fun i r _ => by simp [Graph.reads])
      (fun x k hx => Graph.kindAt?_pushScope_of_some hne hx ..) fun v w hw => .inr ⟨w, [], ?_⟩
    rw [Graph.variableAt?_pushScope] at hw
    simp +contextual [hw]
  | @declare opens g scope name d _ h ih =>
    refine ih.step h.tabled (fun i r _ => by simp [Graph.reads]) (fun x k hx => ?_) fun v w' hw' => ?_
    · refine (Graph.map_scopeAt?_congr (Graph.scopeAt?_declare g scope name d) (fun y s => ?_) x).trans hx
      split <;> rfl
    · rw [Graph.variableAt?_declare] at hw'
      split at hw'
      · split at hw'
        · cases hw'
          exact .inl ⟨rfl, rfl⟩
        · exact .inr ⟨w', [], by simp +contextual [hw']⟩
      · obtain ⟨w, hw, rfl⟩ := Option.map_eq_some_iff.mp hw'
        refine .inr ⟨w, [], hw, ?_⟩
        split
        · simp +contextual
        · simp +contextual
  | @addReference current outer g name start stop access init h ih =>
    refine ih.step h.tabled (fun i r hr => ?_) (fun x k hx => ?_) fun v w hw => .inr ⟨w, [], ?_⟩
    · have hi : i ≠ g.references.length := Nat.ne_of_lt (List.getElem?_eq_some_iff.mp hr).1
      rw [Graph.reads, Graph.referenceAt?_addReference, if_neg hi, Graph.reads]
    · refine (Graph.map_scopeAt?_congr (Graph.scopeAt?_addReference g current name start stop access
        init) (fun y s => ?_) x).trans hx
      split <;> rfl
    · rw [Graph.variableAt?_addReference] at hw
      simp +contextual [hw]
  | @markUsed opens g u hu h ih =>
    refine ih.step h.tabled (fun i r _ => by simp [Graph.reads]) (fun x k hx => ?_) fun v w' hw' => ?_
    · simpa [Graph.kindAt?] using hx
    · rw [Graph.variableAt?_modifyVariable] at hw'
      obtain ⟨w, hw, rfl⟩ := Option.map_eq_some_iff.mp hw'
      refine .inr ⟨w, [], hw, ?_⟩
      split
      · next hv => exact ⟨rfl, (List.append_nil _).symm, fun _ => rfl, fun _ => .inr (hu w (hv ▸ hw))⟩
      · simp +contextual
  | @close current outer g h ih =>
    obtain ⟨⟨⟨s, hs, -⟩, -⟩, hrooted⟩ := h.nested
    refine ih.step h.tabled (fun i r _ => by rw [Graph.reads_close hs]) (fun x k hx => ?_) fun v w' hw' => ?_
    · exact (Graph.map_scopeAt?_congr (Graph.scopeAt?_close hs (hrooted.parent_ne hs))
        (fun _ _ => rfl) x).trans hx
    · rw [Graph.variableAt?_close hs] at hw'
      obtain ⟨w, hw, rfl⟩ := Option.map_eq_some_iff.mp hw'
      refine .inr ⟨w, _, hw, rfl, rfl, ?_⟩
      rw [Graph.reads_close hs]
      exact ⟨Bool.or_eq_true_iff.mpr, fun hu => .inl (Bool.or_eq_true_iff.mp hu)⟩

theorem boundIn_eq (h : Evolves g g') (hnames : ∀ name, pattern.Binds name → g.Defines scope name) :
    boundIn g' scope pattern = boundIn g scope pattern := by
  refine List.filterMap_congr fun i hi => ?_
  cases hname : i.identifier? with
  | none => rfl
  | some name =>
    have hstring : i.string? "name" = some name := by
      unfold Node.identifier? at hname
      split at hname
      · exact hname
      · cases hname
    obtain ⟨v, -, hv, -⟩ := hnames name (Node.binds_of_mem hi hstring)
    exact (h.names _ _ _ hv).trans hv.symm

section Each

variable {current : ScopeId} {outer : List ScopeId} {name : String} {n pattern : Node} {key : String}

theorem Adds.eachBody (hkind : n.kind = "EachBlock") (hkey : key = "context" ∨ key = "index")
    (hpattern : n.child? key = some pattern) (h : pattern.Binds name) :
    Adds current name current outer .each (Scoping.eachBody visit n) := by
  have hv : ∀ n {current outer kind}, Walks False current outer kind (visit n) :=
    fun _ => walks_visit False.elim
  have hmay : MayDeclare current outer .each current .templateBinding n :=
    ⟨List.mem_cons_self .., by decide, fun _ he => absurd (hkind.symm.trans he) (by decide)⟩
  have hindex : Walks False current outer .each
      (Scoping.declareField visit current n "index" .templateBinding) :=
    walks_of_plan hv (.declareField hmay fun _ _ => fun _ _ _ => trivial)
  have hfield : ∀ field, Walks False current outer .each (visitField visit n field) := fun _ =>
    walks_forM (fun m => hv m) _
  have hrest : ∀ a : ScopeId × Node, Walks False current outer .each (do
      visitField visit n "key"
      visitField visit n "children"
      return a) := fun a => .bind (hfield _) fun _ => .bind (hfield _) fun _ => walks_of_plan hv .pure
  unfold Scoping.eachBody
  refine read_bind ?_
  split
  · next context hcontext =>
    have hdeclare : Walks False current outer .each
        (Scoping.declarePattern visit current context .templateBinding n) :=
      walks_of_plan hv (.declarePattern hmay fun _ _ _ => trivial)
    rcases hkey with rfl | rfl
    · cases hpattern.symm.trans hcontext
      exact bind_left (declarePattern hv hmay h) hdeclare fun _ => .bind hindex fun _ => hrest _
    · exact bind_right hdeclare fun _ => bind_left (declareField hv hmay hpattern h) hindex fun _ => hrest _
  · intro b a b' _ hrun
    cases hrun

end Each

def Graph.usedAt (g : Graph) (v : VariableId) : Bool := (g.variableAt? v).any Variable.used

theorem usedAt_markIndex (g : Graph) (scope : ScopeId) (context index : Node) (v : VariableId) :
    (markIndex scope context index g).usedAt v ↔ g.usedAt v ∨ (g.variableAt? v).isSome ∧
      v ∈ boundIn g scope index ∧ ∃ u ∈ boundIn g scope context, g.usedAt u := by
  unfold markIndex
  split
  · next hany =>
    have hcontext : ∃ u ∈ boundIn g scope context, g.usedAt u := List.any_eq_true.mp hany
    rw [Graph.usedAt, variableAt?_foldl_markUsed, Graph.usedAt]
    cases g.variableAt? v with
    | none => simp
    | some w => by_cases hv : v ∈ boundIn g scope index <;> simp [hv, hcontext]
  · next hany =>
    have hcontext : ¬∃ u ∈ boundIn g scope context, g.usedAt u := fun hu => hany (List.any_eq_true.mpr hu)
    simp [hcontext]

namespace Course.Parts

variable {site : Site} {kind kind₀ : ScopeKind} {α : Type} {body : (Node → Walk Unit) → Walk α}
  {rest : α → (Node → Walk Unit) → Walk Unit} {outer : List ScopeId} {finish : α → Walk Unit}
  {tail : (Node → Walk Unit) → Walk Unit} {c : Course site kind body rest} {finished : Building}
  {g : Graph} {v : VariableId} {w : Variable}
  (h : c.Parts finish tail outer kind₀ finished)
include h

/-- What is used when the scope of a block has just been closed is read: nothing in it was used before,
and closing it marks what is read. -/
theorem read_of_used (hw : c.closed.graph.variableAt? v = some w) (hscope : w.scope = c.scope)
    (hused : w.used) : c.closed.graph.Read v := by
  have hclosed : c.closed.graph = (c.ended.declared c.scope).close c.scope :=
    congrArg Building.graph (eq_of_closeScope c.close)
  obtain ⟨hbuilt, halters⟩ := @alters_declared (fun _ => False) _ _ _ h.ended.built
  obtain ⟨s, hs⟩ := hbuilt.nested.1.exists_scope (List.mem_cons_self ..)
  rw [h.close.1.tabled.read_iff hw, hclosed, Graph.reads_close hs]
  rw [hclosed, Graph.variableAt?_close hs] at hw
  obtain ⟨w₁, hw₁, rfl⟩ := Option.map_eq_some_iff.mp hw
  rcases Bool.or_eq_true_iff.mp hused with hused | hreads
  · have hfrom : UsedIn (c.opened.graph.scopes.length ≤ ·) c.opened.graph (c.ended.declared c.scope) :=
      (h.inner.used h.opened).trans halters.used halters.toEvolves (fun _ => id) fun _ => False.elim
    change w₁.scope = c.scope at hscope
    rcases hfrom v w₁ hw₁ hused with ⟨w₀, hw₀, -⟩ | hnew
    · obtain ⟨_, hfound, hcontinues⟩ := (h.grows.toEvolves.trans halters.toEvolves).vars v w₀ hw₀
      cases Option.some.inj (hfound.symm.trans hw₁)
      have hold := (h.entered.built.tabled).scope_lt ((Graph.variableAt?_pushScope ..).symm.trans hw₀)
      rw [← hcontinues.scope, hscope] at hold
      exact absurd hold (Nat.lt_irrefl _)
    · rw [hscope, scopes_length_opened] at hnew
      exact absurd hnew (Nat.not_succ_le_self _)
  · exact List.any_append.trans (Bool.or_eq_true_iff.mpr (.inr hreads))

theorem used_finished (hends : Ends g site.scope outer c.after) (hw : g.variableAt? v = some w)
    (hscope : w.scope = c.scope) (hused : w.used) : finished.graph.usedAt v := by
  have hold : c.scope ∉ site.scope :: outer := fun hm => Nat.lt_irrefl _ (h.entered.lt hm)
  have hlt : c.scope < finished.graph.scopes.length := by
    rw [(h.ended.left c.close h.finishes).2.scopes_length]
    exact Nat.lt_of_lt_of_le (c.scopes_length_opened ▸ Nat.lt_succ_self _) h.grows.scopes_le
  have hends' : Ends g site.scope outer finished := .run h.within h.tailRuns hends
  rcases hends'.used v w hw hused with ⟨w', hw', hused'⟩ | hnew
  · rw [Graph.usedAt, hw', Option.any_some, hused']
  · rw [hscope] at hnew
    exact (hnew.elim hold (Nat.not_le_of_gt hlt)).elim

end Course.Parts

section Analyze

variable {options : Options} {program : Node} {g : Graph} {site : Site} {v : VariableId} {w : Variable}

/-- The parts of the walk of an each block. -/
abbrev EachParts (c : EachCourse site) (outer : List ScopeId) (kind₀ : ScopeKind)
    (finished : Building) : Prop :=
  c.Parts (fun p => eachMark site.node p.1 p.2) (fun v => visitField v site.node "else") outer kind₀
    finished

theorem Visited.eachParts (h : analyze options program = .ok g) (hsite : Visited options program site)
    (hkind : site.node.kind = "EachBlock") (c : EachCourse site) :
    ∃ outer kind₀ finished, EachParts c outer kind₀ finished ∧ Ends g site.scope outer c.after := by
  obtain ⟨outer, kind₀, after, hb, hwalk, hends⟩ := hsite.ends h
  cases (c.walk (blockRule_each hkind) hb).symm.trans hwalk
  obtain ⟨finished, hparts⟩ := c.parts (blockRule_each hkind) hb
  exact ⟨outer, kind₀, finished, hparts, hends⟩

/-- A variable is bound by the index of an each block, and one that is bound beside it is read. -/
def CountsWithRead (options : Options) (program : Node) (g : Graph) (v : VariableId) : Prop :=
  ∃ site, Visited options program site ∧ site.node.kind = "EachBlock" ∧
    ∃ (c : EachCourse site) (context index : Node), site.node.child? "context" = some context ∧
      site.node.child? "index" = some index ∧ v ∈ boundIn g c.scope index ∧
      ∃ u ∈ boundIn g c.scope context, g.Read u

section Parts

variable {c : EachCourse site} {outer : List ScopeId} {kind₀ : ScopeKind} {finished : Building}
  (hparts : EachParts c outer kind₀ finished)
include hparts

theorem boundIn_closed (hkind : site.node.kind = "EachBlock") {key : String}
    (hkey : key = "context" ∨ key = "index") (hpattern : site.node.child? key = some pattern)
    (hremains : Evolves c.closed.graph g) :
    boundIn g c.scope pattern = boundIn c.closed.graph c.scope pattern := by
  refine boundIn_eq hremains fun name hname => hparts.close.2.defines ?_
  exact Adds.eachBody hkind hkey hpattern hname _ _ _ hparts.opened c.inner

theorem usedAt_finished {context} (hcontext : site.node.child? "context" = some context) :
    finished.graph.usedAt v ↔ c.closed.graph.usedAt v ∨ (c.closed.graph.variableAt? v).isSome ∧
      ∃ index, site.node.child? "index" = some index ∧ v ∈ boundIn c.closed.graph c.scope index ∧
        ∃ u ∈ boundIn c.closed.graph c.scope context, c.closed.graph.usedAt u := by
  obtain ⟨hscope, hvalue⟩ := eachBody_scope visit site.node c.inner
  cases hvalue.symm.trans hcontext
  have hfinish := hparts.finish
  rw [hscope] at hfinish
  unfold eachMark at hfinish
  cases hindex : site.node.child? "index" with
  | none =>
    simp only [hindex] at hfinish
    cases hfinish
    simp
  | some index =>
    simp only [hindex] at hfinish
    cases hfinish
    simp [usedAt_markIndex, Course.scope]

end Parts

theorem Built.scope_of_boundIn (h : Built opens g) (hv : v ∈ boundIn g scope pattern) :
    ∃ w, g.variableAt? v = some w ∧ w.scope = scope := by
  obtain ⟨i, -, hi⟩ := List.mem_filterMap.mp hv
  obtain ⟨name, -, hfound⟩ := Option.bind_eq_some_iff.mp hi
  obtain ⟨w, hw, -, hscope⟩ := h.registered.1 _ _ _ hfound
  exact ⟨w, hw, hscope⟩

theorem countsWithRead_of_used (h : analyze options program = .ok g) (hw : g.variableAt? v = some w)
    (hused : w.used) (hread : ¬g.Read v) : CountsWithRead options program g v := by
  have hg := built_of_analyze h
  have hkind : g.kindAt? w.scope = some .each := by
    refine ((hg.marked v w hw).2 hused).resolve_left fun hany => hread ?_
    exact (hg.tabled.read_iff hw).mpr hany
  cases blockScope_of_analyze h (.inl rfl) hkind with
  | @each site hsite hkind c hx =>
    obtain ⟨outer, kind₀, finished, hparts, hends⟩ := hsite.eachParts h hkind c
    obtain ⟨-, hcontext⟩ := eachBody_scope visit site.node c.inner
    have hremains : Evolves c.closed.graph g := hparts.outside.toEvolves.trans hends.evolves
    have hreads : ∀ {u w₀}, c.closed.graph.variableAt? u = some w₀ → w₀.scope = c.scope →
        c.closed.graph.usedAt u → g.Read u := by
      intro u w₀ hw₀ hscope hu
      rw [Graph.usedAt, hw₀] at hu
      exact hremains.read hparts.close.1.tabled hg.tabled (hparts.read_of_used hw₀ hscope hu)
    rcases (usedAt_finished hparts hcontext).mp (hparts.used_finished hends hw hx.symm hused) with
      hv | ⟨-, index, hindex, hv, u, hu, huused⟩
    · obtain ⟨w₀, hw₀, -⟩ := (Option.any_eq_true ..).mp hv
      obtain ⟨_, hfound, hcontinues⟩ := hremains.vars v w₀ hw₀
      cases Option.some.inj (hw.symm.trans hfound)
      exact absurd (hreads hw₀ (hcontinues.scope.symm.trans hx.symm) hv) hread
    · obtain ⟨w₀, hw₀, hscope⟩ := hparts.close.1.scope_of_boundIn hu
      refine ⟨site, hsite, hkind, c, _, index, hcontext, hindex, ?_, u, ?_, hreads hw₀ hscope huused⟩
      · rwa [boundIn_closed hparts hkind (.inr rfl) hindex hremains]
      · rwa [boundIn_closed hparts hkind (.inl rfl) hcontext hremains]

theorem CountsWithRead.used (h : analyze options program = .ok g) (hw : g.variableAt? v = some w)
    (hv : CountsWithRead options program g v) : w.used := by
  obtain ⟨site, hsite, hkind, c, context, index, hcontext, hindex, hv, u, hu, hread⟩ := hv
  have hg := built_of_analyze h
  obtain ⟨outer, kind₀, finished, hparts, hends⟩ := hsite.eachParts h hkind c
  have hfinished : Evolves finished.graph g :=
    (hparts.tailRuns.grows hparts.within).2.toEvolves.trans hends.evolves
  have hremains : Evolves c.closed.graph g := hparts.outside.toEvolves.trans hends.evolves
  obtain ⟨w₁, hw₁, hscope⟩ := hg.scope_of_boundIn hu
  have hused := hparts.used_finished hends hw₁ hscope
    ((hg.marked u w₁ hw₁).1 ((hg.tabled.read_iff hw₁).mp hread))
  rw [boundIn_closed hparts hkind (.inr rfl) hindex hremains] at hv
  rw [boundIn_closed hparts hkind (.inl rfl) hcontext hremains] at hu
  have hbeside : ∃ u ∈ boundIn c.closed.graph c.scope context, c.closed.graph.usedAt u := by
    rcases (usedAt_finished hparts hcontext).mp hused with hused | ⟨-, _, -, -, hbeside⟩
    · exact ⟨u, hu, hused⟩
    · exact hbeside
  obtain ⟨w₀, hw₀, -⟩ := hparts.close.1.scope_of_boundIn hv
  obtain ⟨w', hw', hused'⟩ := (Option.any_eq_true ..).mp ((usedAt_finished hparts hcontext).mpr
    (.inr ⟨Option.isSome_iff_exists.mpr ⟨w₀, hw₀⟩, index, hindex, hv, hbeside⟩))
  obtain ⟨_, hfound, hcontinues⟩ := hfinished.vars v w' hw'
  cases Option.some.inj (hw.symm.trans hfound)
  exact hcontinues.used hused'

/-- A variable is used if a reference reads it, or if it is the index of an each block and what stands
beside it is read. -/
theorem used_iff_read (h : analyze options program = .ok g) (hw : g.variableAt? v = some w) :
    w.used ↔ g.Read v ∨ CountsWithRead options program g v := by
  have hg := built_of_analyze h
  constructor
  · intro hused
    by_cases hread : g.Read v
    · exact .inl hread
    · exact .inr (countsWithRead_of_used h hw hused hread)
  · rintro (hread | hindex)
    · exact (hg.marked v w hw).1 ((hg.tabled.read_iff hw).mp hread)
    · exact hindex.used h hw

/-- An each block whose variable is read in it: its index has no references and is used. -/
theorem used_iff_read_index :
    let name (name : String) (start : Nat) : Node :=
      { kind := "Identifier", start, stop := start + 1, fields := [("name", .string name)] }
    let each : Node :=
      { kind := "EachBlock", start := 0, stop := 5,
        fields := [("expression", name "xs" 1), ("context", name "x" 2), ("index", name "i" 3),
          ("children", [name "x" 4])] }
    let program : Node := { kind := "Program", start := 0, stop := 5, fields := [("body", [each])] }
    ∃ g w, analyze {} program = .ok g ∧ g.variableAt? 1 = some w ∧ w.name = "i" ∧ w.references = [] ∧
      w.used ∧ CountsWithRead {} program g 1 := by
  intro name each program
  have hrun : (analyze {} program).toOption.map (fun g =>
      (g.variableAt? 1).map fun w => (w.name, w.references, w.used)) = some (some ("i", [], true)) := by
    decide +kernel
  obtain ⟨g, hg, hrun⟩ := Option.map_eq_some_iff.mp hrun
  obtain ⟨w, hw, hrun⟩ := Option.map_eq_some_iff.mp hrun
  obtain ⟨hname, hrun⟩ := Prod.mk.inj hrun
  obtain ⟨hreferences, hused⟩ := Prod.mk.inj hrun
  rw [toOption_eq_some] at hg
  refine ⟨g, w, hg, hw, hname, hreferences, hused, ((used_iff_read hg hw).mp hused).resolve_left ?_⟩
  rw [(built_of_analyze hg).tabled.read_iff hw, hreferences]
  exact Bool.false_ne_true

end Analyze

end SvelteSyntax.Scoping
