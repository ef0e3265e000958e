import SvelteSyntax.Proofs.Scoping.Consistency
import SvelteSyntax.Proofs.Scoping.Sites

namespace SvelteSyntax.Scoping

open Run

/-- A reference made between two states of the analysis. -/
def MadeBetween (b b' : Building) (i : ReferenceId) : Prop :=
  b.graph.references.length ≤ i ∧ i < b'.graph.references.length

/-- A scope opened between two states of the analysis. -/
def OpenedBetween (b b' : Building) (x : ScopeId) : Prop :=
  b.graph.scopes.length ≤ x ∧ x < b'.graph.scopes.length

/-- A part of the analysis that ends with a graph. It is in a scope and those around it. -/
structure Part (current : ScopeId) (outer : List ScopeId) (b b' : Building) (g : Graph) : Prop where
  built : Built (current :: outer) b.graph
  grows : Grows current b.graph b'.graph
  remains : Evolves b'.graph g
  finished : Built [] g

variable {g : Graph} {x y current : ScopeId} {i : ReferenceId} {r : Reference} {kind : ScopeKind}
  {n : Node} {outer : List ScopeId}

theorem Nested.parent_mem {opens} (h : Nested g opens) {p} (hx : x ∈ opens)
    (hp : g.parent? x = some p) : p ∈ opens := by
  induction opens with
  | nil => cases hx
  | cons o outer ih =>
    obtain ⟨⟨s, hs, hparent⟩, houter⟩ := h
    rcases List.mem_cons.mp hx with rfl | hx
    · rw [Graph.parent?, hs, Option.bind_some, hparent] at hp
      exact List.mem_cons_of_mem _ (List.mem_of_head? hp)
    · exact List.mem_cons_of_mem _ (ih houter hx)

theorem within_of_resolved (hg : Built [] g) {v w} (hr : g.referenceAt? i = some r)
    (hv : r.resolved = some v) (hw : g.variableAt? v = some w) :
    g.Within w.scope r.scope := by
  cases hg.sound.standing i r hr with
  | waiting _ hx => cases hx
  | unfound _ _ _ hnone => cases hnone.symm.trans hv
  | resolved hc _ hfound hres =>
    cases hres.symm.trans hv
    obtain ⟨w', hw', -, hscope⟩ := hg.registered.1 _ _ _ hfound
    cases hw'.symm.trans hw
    exact hscope ▸ .of_clear hc

namespace Part

variable {current : ScopeId} {outer : List ScopeId} {b b' : Building} {g : Graph}
  (h : Part current outer b b' g)
include h

theorem open_lt (hx : x ∈ current :: outer) : x < b.graph.scopes.length := by
  obtain ⟨s, hs⟩ := h.built.nested.1.exists_scope hx
  exact Graph.scopeAt?_lt hs

theorem made_scope (hr : g.referenceAt? i = some r) (hi : MadeBetween b b' i) :
    r.scope = current ∨ OpenedBetween b b' r.scope := by
  obtain ⟨hfrom, hto⟩ := hi
  have hr' : b'.graph.referenceAt? i = some b'.graph.references[i] := List.getElem?_eq_getElem hto
  rw [h.remains.scope_eq hr' hr]
  exact h.grows.made i _ hfrom hr'

theorem opened_parent (hx : OpenedBetween b b' x) :
    ∃ p, p < x ∧ g.parent? x = some p ∧ (p = current ∨ OpenedBetween b b' p) := by
  obtain ⟨p, hp, hold⟩ := h.grows.opened x hx.1 hx.2
  have hp' : g.parent? x = some p := (h.remains.parent?_eq hx.2).trans hp
  obtain ⟨s, hs, hparent⟩ := Graph.parent?_eq_some.mp hp'
  have hlt : p < x := (h.finished.nested.2 x s hs).1 p hparent
  exact ⟨p, hlt, hp', hold.imp_right fun hle => ⟨hle, Nat.lt_trans hlt hx.2⟩⟩

theorem outward (hx : x ∈ current :: outer ∨ OpenedBetween b b' x) (hin : g.Within y x) :
    y ∈ current :: outer ∨ OpenedBetween b b' y := by
  induction hin with
  | self => exact hx
  | @inner x p hp _ ih =>
    refine ih ?_
    rcases hx with hopen | hnew
    · rw [(h.grows.toEvolves.trans h.remains).parent?_eq (h.open_lt hopen)] at hp
      exact .inl (h.built.nested.1.parent_mem hopen hp)
    · obtain ⟨p', -, hp', hold⟩ := h.opened_parent hnew
      cases hp'.symm.trans hp
      rcases hold with rfl | hnew
      · exact .inl (List.mem_cons_self ..)
      · exact .inr hnew

theorem within_current (hx : OpenedBetween b b' x) : g.Within current x := by
  induction x using Nat.strongRecOn with
  | ind x ih =>
    obtain ⟨p, hlt, hp, rfl | hnew⟩ := h.opened_parent hx
    · exact .inner hp .self
    · exact .inner hp (ih p hlt hnew)

theorem not_within (hr : g.referenceAt? i = some r) (hi : MadeBetween b b' i)
    (hopen : x ∉ current :: outer) (hnew : ¬OpenedBetween b b' x) : ¬g.Within x r.scope := by
  intro hin
  have hscope : r.scope ∈ current :: outer ∨ OpenedBetween b b' r.scope := by
    rcases h.made_scope hr hi with he | hscope
    · rw [he]
      exact .inl (List.mem_cons_self ..)
    · exact .inr hscope
  exact (h.outward hscope hin).elim hopen hnew

theorem made_within (hr : g.referenceAt? i = some r) (hi : MadeBetween b b' i) :
    g.Within current r.scope := by
  rcases h.made_scope hr hi with he | hnew
  · exact he ▸ .self
  · exact h.within_current hnew

end Part

theorem Graph.Within.trans {z} (h : g.Within x y) (h' : g.Within y z) :
    g.Within x z := by
  induction h' with
  | self => exact h
  | inner hp _ ih => exact .inner hp ih

theorem plan_visitField (opens : ScopeKind → Prop) (n : Node) (key : String) :
    (Setting.inside n opens visit).Plans current outer kind fun v => visitField v n key :=
  .visitField (Plan.open_below (Nat.le_refl _) False.elim) key

/-- The rule of a block with a scope: its expression is walked, then a body in the scope, and then what
follows the scope, where the scope may be finished before the walk goes on. -/
structure BlockRule (n : Node) (kind : ScopeKind) {α : Type} (body : (Node → Walk Unit) → Walk α)
    (rest : α → (Node → Walk Unit) → Walk Unit) (finish : α → Walk Unit)
    (tail : (Node → Walk Unit) → Walk Unit) : Prop where
  rule : ∀ v, visitRule v n = (do
    visitField v n "expression"
    let a ← inScope kind n (body v)
    rest a v)
  plain : kind ≠ .awaitThen ∧ kind ≠ .awaitCatch
  bodyPlan : ∀ opens {current outer}, (Setting.inside n opens visit).Plans current outer kind body
  rest_eq : ∀ a v, rest a v = finish a >>= fun _ => tail v
  finishes : ∀ {id b a b'} current, body visit id b = .ok (a, b') → Finishes id kind current (finish a)
  tailPlan : ∀ opens {current outer kind}, (Setting.inside n opens visit).Plans current outer kind tail

structure Course (site : Site) (kind : ScopeKind) {α : Type} (body : (Node → Walk Unit) → Walk α)
    (rest : α → (Node → Walk Unit) → Walk Unit) where
  entered : Building
  ended : Building
  closed : Building
  after : Building
  value : α
  expression : visitField visit site.node "expression" site.scope site.before = .ok ((), entered)
  inner : body visit entered.graph.scopes.length (entered.opened kind (some site.scope) site.node) =
    .ok (value, ended)
  close : closeScope entered.graph.scopes.length ended = .ok ((), closed)
  outer : rest value visit site.scope closed = .ok ((), after)

namespace Course

variable {site : Site} {kind kind₀ : ScopeKind} {α : Type} {body : (Node → Walk Unit) → Walk α}
  {rest : α → (Node → Walk Unit) → Walk Unit} {outer : List ScopeId} {g : Graph}

/-- The scope of the block. -/
def scope (c : Course site kind body rest) : ScopeId := c.entered.graph.scopes.length

/-- What is built when the scope has just been opened. -/
def opened (c : Course site kind body rest) : Building :=
  c.entered.opened kind (some site.scope) site.node

theorem scopes_length_opened (c : Course site kind body rest) :
    c.opened.graph.scopes.length = c.scope + 1 := Grows.scopes_length_pushScope ..

theorem block (c : Course site kind body rest) :
    inScope kind site.node (body visit) site.scope c.entered = .ok (c.value, c.closed) :=
  bracket_eq_ok.mpr ⟨c.ended, c.inner, c.close⟩

/-- The variables of a block are not visible in its expression and after its scope, and what stands in
its scope refers from there. -/
structure Keeps (c : Course site kind body rest) (g : Graph) : Prop where
  kind : g.kindAt? c.scope = some kind
  outside : ∀ i r, g.referenceAt? i = some r →
    MadeBetween site.before c.entered i ∨ MadeBetween c.closed c.after i →
    ¬g.Within c.scope r.scope ∧
      ∀ v w, r.resolved = some v → g.variableAt? v = some w → ¬g.Within c.scope w.scope
  inside : ∀ i r, g.referenceAt? i = some r → MadeBetween c.opened c.ended i → g.Within c.scope r.scope

variable {finish : α → Walk Unit} {tail : (Node → Walk Unit) → Walk Unit}
  (hrule : BlockRule site.node kind body rest finish tail)
  (hb : Within site.scope outer kind₀ site.before.graph)
include hrule hb

theorem exists_of_walk {after} (hwalk : visit site.node site.scope site.before = .ok ((), after)) :
    ∃ c : Course site kind body rest, c.after = after := by
  rw [visit_eq hb, hrule.rule] at hwalk
  obtain ⟨_, entered, hexpression, hwalk⟩ := walk_bind_eq_ok.mp hwalk
  obtain ⟨value, closed, hscope, hrest⟩ := walk_bind_eq_ok.mp hwalk
  obtain ⟨ended, hinner, hclose⟩ := bracket_eq_ok.mp hscope
  exact ⟨⟨entered, ended, closed, after, value, hexpression, hinner, hclose, hrest⟩, rfl⟩

variable (c : Course site kind body rest)

theorem walk : visit site.node site.scope site.before = .ok ((), c.after) := by
  rw [visit_eq hb, hrule.rule, walk_bind_of_ok c.expression, walk_bind_of_ok c.block]
  exact c.outer

structure Parts (finish : α → Walk Unit) (tail : (Node → Walk Unit) → Walk Unit) (outer : List ScopeId)
    (kind₀ : ScopeKind) (finished : Building) : Prop where
  entered : Within site.scope outer kind₀ c.entered.graph
  opening : Evolves c.entered.graph c.opened.graph
  opened : Within c.scope (site.scope :: outer) kind c.opened.graph
  ended : Within c.scope (site.scope :: outer) kind c.ended.graph
  expression : Grows site.scope site.before.graph c.entered.graph
  inner : Runs c.scope (site.scope :: outer) kind c.opened c.ended
  finish : finish c.value site.scope c.closed = .ok ((), finished)
  finishes : Finish c.scope c.closed kind finished
  within : Within site.scope outer kind₀ finished.graph
  tail : tail visit site.scope finished = .ok ((), c.after)
  tailRuns : Runs site.scope outer kind₀ finished c.after

theorem parts : ∃ finished, c.Parts finish tail outer kind₀ finished := by
  obtain ⟨hentered, hexpression⟩ := (((plan_visitField (fun _ => True) site.node
    "expression").walks walks_inside _ hb).1 _ _ c.expression).grows hb
  have hopened : Within c.scope (site.scope :: outer) kind c.opened.graph :=
    hentered.opened kind site.node
  have hopening : Evolves c.entered.graph c.opened.graph :=
    .pushScope hentered.built (fun h => (h.elim hrule.plain.1 hrule.plain.2).elim) ..
  have hinner := ((hrule.bodyPlan fun _ => True).walks walks_inside _ hopened).1 _ _ c.inner
  obtain ⟨hended, hgrows⟩ := hinner.grows hopened
  obtain ⟨_, finished, hdone, hfinish⟩ := hrule.finishes site.scope c.inner c.closed
  obtain ⟨hbuilt, halters⟩ := hended.left c.close hfinish
  have hevolves := hopening.trans (hgrows.toEvolves.trans halters.toEvolves)
  have hfinished : Within site.scope outer kind₀ finished.graph :=
    ⟨hbuilt, hevolves.kindAt? hentered.kind⟩
  have htail := c.outer
  rw [hrule.rest_eq, walk_bind_of_ok hdone] at htail
  exact ⟨finished, hentered, hopening, hopened, hended, hexpression, hinner, hdone, hfinish, hfinished,
    htail, ((hrule.tailPlan fun _ => True).walks walks_inside _ hfinished).1 () _ htail⟩

omit hrule hb

namespace Parts

variable {c} {finished : Building} (h : c.Parts finish tail outer kind₀ finished)
include h

theorem grows : Grows c.scope c.opened.graph c.ended.graph := (h.inner.grows h.opened).2

theorem close : Built (site.scope :: outer) c.closed.graph ∧
    Alters (· = c.scope) c.ended.graph c.closed.graph := alters_closeScope h.ended.built c.close

theorem outside : Grows site.scope c.closed.graph c.after.graph := by
  refine Grows.trans ?_ (h.tailRuns.grows h.within).2
  cases h.finishes with
  | stay => exact .refl _
  | mark context index =>
    exact .of_alters (Alters.markIndex h.close.1 (h.close.2.kindAt? h.ended.kind) context index).2

theorem evolves_opened (hremains : Evolves c.ended.graph g) : Evolves c.entered.graph g :=
  h.opening.trans (h.grows.toEvolves.trans hremains)

theorem evolves_ended (hremains : Evolves c.after.graph g) : Evolves c.ended.graph g :=
  h.close.2.toEvolves.trans (h.outside.toEvolves.trans hremains)

end Parts

include hrule hb

theorem covered (hx : OpenedBetween site.before c.after x) (hne : x ≠ c.scope) :
    Covered visit (Setting.inside site.node (· = kind) visit).calls (fun v => visitRule v site.node)
      site.scope site.before x := by
  obtain ⟨finished, hparts⟩ := c.parts hrule hb
  have hexpression : (Setting.inside site.node (· = kind) visit).Plans site.scope outer kind₀
      fun v => visitField v site.node "expression" := plan_visitField ..
  have hblock : (Setting.inside site.node (· = kind) visit).Plans site.scope outer kind₀
      fun v => inScope kind site.node (body v) :=
    .scope rfl (fun h => (h.elim hrule.plain.1 hrule.plain.2).elim) fun _ => hrule.bodyPlan _
  simp only [hrule.rule]
  by_cases hbefore : x < c.entered.graph.scopes.length
  · exact ((plan_visitField (fun _ => False) ..).covers walks_inside hb c.expression hx.1 hbefore
      fun _ _ => id).bind _
  refine hexpression.covered_bind walks_inside hb c.expression ?_
  by_cases hinside : x < c.ended.graph.scopes.length
  · have hle : c.opened.graph.scopes.length ≤ x := by
      rw [scopes_length_opened]
      exact Nat.lt_of_le_of_ne (Nat.le_of_not_lt hbefore) hne.symm
    exact ((hrule.bodyPlan fun _ => False).covers walks_inside hparts.opened c.inner hle hinside
      fun _ _ => id).inScope.bind _
  · refine hblock.covered_bind walks_inside hparts.entered c.block ?_
    have hle : finished.graph.scopes.length ≤ x :=
      (hparts.ended.left c.close hparts.finishes).2.scopes_length ▸ Nat.le_of_not_lt hinside
    obtain ⟨site', hfails, hafter⟩ := (hrule.tailPlan fun _ => False).covers walks_inside
      hparts.within hparts.tail hle hx.2 fun _ _ => id
    refine ⟨site', fun fault => ?_, hafter⟩
    rw [hrule.rest_eq, walk_bind_of_ok hparts.finish]
    exact hfails fault

theorem keeps (hremains : Evolves c.after.graph g) (hg : Built [] g) : c.Keeps g := by
  obtain ⟨_, h⟩ := c.parts hrule hb
  have hended := h.evolves_ended hremains
  have hlt : c.scope < c.opened.graph.scopes.length :=
    c.scopes_length_opened ▸ Nat.lt_succ_self _
  have hexpression : Part site.scope outer site.before c.entered g :=
    ⟨hb.built, h.expression, h.evolves_opened hended, hg⟩
  have hopen : c.scope ∉ site.scope :: outer := fun hm =>
    Nat.not_lt.mpr h.expression.scopes_le (hexpression.open_lt hm)
  have houtside : ∀ i r, g.referenceAt? i = some r →
      MadeBetween site.before c.entered i ∨ MadeBetween c.closed c.after i →
      ¬g.Within c.scope r.scope := by
    intro i r hr hmade
    rcases hmade with hmade | hmade
    · exact hexpression.not_within hr hmade hopen fun hnew => Nat.lt_irrefl _ hnew.2
    · refine Part.not_within ⟨h.close.1, h.outside, hremains, hg⟩ hr hmade hopen fun hnew => ?_
      refine Nat.not_lt.mpr hnew.1 ?_
      rw [h.close.2.scopes_length]
      exact Nat.lt_of_lt_of_le hlt h.grows.scopes_le
  refine ⟨?_, fun i r hr hmade => ⟨houtside i r hr hmade, fun v w hv hw hin => ?_⟩, fun i r hr hmade => ?_⟩
  · rw [(h.grows.toEvolves.trans hended).kindAt?_eq hlt]
    exact h.opened.kind
  · exact houtside i r hr hmade (hin.trans (within_of_resolved hg hr hv hw))
  · exact Part.made_within ⟨h.opened.built, h.grows, hended, hg⟩ hr hmade

end Course

/-- The walk of an each block. When its scope is closed the index is marked, and the alternative is
walked. -/
abbrev EachCourse (site : Site) : Type :=
  Course site .each (fun v => eachBody v site.node) fun p v => (do
    eachMark site.node p.1 p.2
    visitField v site.node "else")

theorem blockRule_each (hkind : n.kind = "EachBlock") :
    BlockRule n .each (fun v => eachBody v n) (fun p v => (do
      eachMark n p.1 p.2
      visitField v n "else")) (fun p => eachMark n p.1 p.2) fun v => visitField v n "else" where
  rule v := by
    rw [← visitEach_eq]
    simp only [visitRule, hkind]
  plain := by decide
  bodyPlan _ _ _ := .eachBody (Nat.le_refl _) (False.elim : Visitable False .each n) hkind
  rest_eq _ _ := rfl
  finishes {id} {_} {p} {_} current hbody := by
    rw [(eachBody_scope _ n hbody).1]
    exact finishes_eachMark n id current p.2
  tailPlan _ _ _ _ := plan_visitField ..

/-- The walk of an await block, with its three branches. -/
structure AwaitCourse (site : Site) extends
    Course site .await (fun v => ["pending", "then", "catch"].forM (visitField v site.node))
      fun _ _ => pure () where
  waiting : Building
  fulfilled : Building
  pendingBranch : visitField visit site.node "pending" toCourse.scope toCourse.opened = .ok ((), waiting)
  thenBranch : visitField visit site.node "then" toCourse.scope waiting = .ok ((), fulfilled)
  catchBranch : visitField visit site.node "catch" toCourse.scope fulfilled = .ok ((), ended)

theorem blockRule_await (hkind : n.kind = "AwaitBlock") :
    BlockRule n .await (fun v => ["pending", "then", "catch"].forM (visitField v n))
      (fun _ _ => pure ()) (fun _ => pure ()) fun _ => pure () where
  rule v := by
    simp only [visitRule, hkind, bind_pure_unit]
  plain := by decide
  bodyPlan _ _ _ := .forM fun _ _ => plan_visitField ..
  rest_eq _ _ := rfl
  finishes _ _ b := ⟨(), b, rfl, .stay _⟩
  tailPlan _ _ _ _ := .pure

theorem branch_opens (kind : ScopeKind) (field : String) {m key} {b b' : Building}
    (hb : Within current outer .await b.graph) (hm : n.child? key = some m)
    (hkind : m.kind ∈ Program.sectionKinds)
    (hfield : ∀ entry ∈ Program.branchFields, entry.2.1 ≠ field)
    (hrule : visitRule visit m = visitAwaitBranch visit m kind field)
    (hwalk : visitField visit n key current b = .ok ((), b')) :
    b.graph.scopes.length < b'.graph.scopes.length ∧
      b'.graph.kindAt? b.graph.scopes.length = some kind ∧
      b'.graph.parent? b.graph.scopes.length = some current := by
  have hnodes : n.nodesAt key = [m] := by
    rw [Node.nodesAt, Program.Node.get?_of_child? hm]
    rfl
  rw [visitField, hnodes] at hwalk
  obtain ⟨_, b₁, hvisit, hwalk⟩ := walk_bind_eq_ok.mp hwalk
  cases hwalk
  rw [visit_eq hb, hrule, visitAwaitBranch] at hvisit
  obtain ⟨found, b₀, hfound, hvisit⟩ := walk_bind_eq_ok.mp hvisit
  cases hfound
  dsimp only at hvisit
  split at hvisit
  · have hopened := hb.opened kind m
    obtain ⟨b₁, hbody, hclose⟩ := bracket_eq_ok.mp hvisit
    have hplan : (Setting.inside m (fun _ => True) visit).Plans b.graph.scopes.length (current :: outer)
        kind fun v => (do
          declareField v (← read) m field .templateBinding
          visitField v m "children") :=
      .awaitBranchBody (Nat.le_refl _) (False.elim : Visitable False .await m) hkind hfield
    obtain ⟨hended, hgrows⟩ := ((hplan.walks walks_inside _ hopened).1 _ _ hbody).grows hopened
    have hremains := hgrows.toEvolves.trans (alters_closeScope hended.built hclose).2.toEvolves
    have hlt : b.graph.scopes.length < (b.opened kind (some current) m).graph.scopes.length := by
      rw [Building.opened, Grows.scopes_length_pushScope]
      exact Nat.lt_succ_self _
    obtain ⟨s, hs, hparent⟩ := hopened.built.nested.1.1
    refine ⟨Nat.lt_of_lt_of_le hlt hremains.scopes_le, (hremains.kindAt?_eq hlt).trans hopened.kind,
      (hremains.parent?_eq hlt).trans ?_⟩
    rw [Graph.parent?, hs, Option.bind_some, hparent]
    rfl
  · cases hvisit

namespace AwaitCourse

variable {site : Site} {kind₀ : ScopeKind} {outer : List ScopeId} {g : Graph}

/-- The variables of a branch are not visible in the branches beside it, and the branch after `then` or
`catch` has its scope in that of the block. -/
structure Regions (c : AwaitCourse site) (g : Graph) : Prop extends c.Keeps g where
  thenScope : ∀ m, site.node.child? "then" = some m → m.kind = "ThenBlock" →
    ∃ x, OpenedBetween c.waiting c.fulfilled x ∧ g.kindAt? x = some .awaitThen ∧
      g.parent? x = some c.scope
  catchScope : ∀ m, site.node.child? "catch" = some m → m.kind = "CatchBlock" →
    ∃ x, OpenedBetween c.fulfilled c.ended x ∧ g.kindAt? x = some .awaitCatch ∧
      g.parent? x = some c.scope
  thenApart : ∀ i r v w, g.referenceAt? i = some r → r.resolved = some v → g.variableAt? v = some w →
    MadeBetween c.opened c.waiting i ∨ MadeBetween c.fulfilled c.ended i →
    ¬OpenedBetween c.waiting c.fulfilled w.scope
  catchApart : ∀ i r v w, g.referenceAt? i = some r → r.resolved = some v → g.variableAt? v = some w →
    MadeBetween c.opened c.waiting i ∨ MadeBetween c.waiting c.fulfilled i →
    ¬OpenedBetween c.fulfilled c.ended w.scope

theorem exists_of_course (c : Course site .await
      (fun v => ["pending", "then", "catch"].forM (visitField v site.node)) fun _ _ => pure ()) :
    ∃ d : AwaitCourse site, d.toCourse = c := by
  obtain ⟨_, waiting, hpending, hrest⟩ := walk_bind_eq_ok.mp c.inner
  obtain ⟨_, fulfilled, hthen, hrest⟩ := walk_bind_eq_ok.mp hrest
  obtain ⟨_, ended, hcatch, hrest⟩ := walk_bind_eq_ok.mp hrest
  cases hrest
  exact ⟨⟨c, waiting, fulfilled, hpending, hthen, hcatch⟩, rfl⟩

theorem regions (c : AwaitCourse site) (hkind : site.node.kind = "AwaitBlock")
    (hb : Within site.scope outer kind₀ site.before.graph) (hremains : Evolves c.after.graph g)
    (hg : Built [] g) : c.Regions g := by
  obtain ⟨_, hparts⟩ := c.parts (blockRule_await hkind) hb
  have hended := hparts.evolves_ended hremains
  have hbranch : ∀ {key b b'}, Within c.scope (site.scope :: outer) .await b.graph →
      visitField visit site.node key c.scope b = .ok ((), b') →
      Within c.scope (site.scope :: outer) .await b'.graph ∧ Grows c.scope b.graph b'.graph := by
    intro key b b' hwithin hrun
    exact (((plan_visitField (fun _ => True) site.node key).walks
      walks_inside b hwithin).1 _ _ hrun).grows hwithin
  obtain ⟨hwaiting, hpending⟩ := hbranch hparts.opened c.pendingBranch
  obtain ⟨hfulfilled, hthen⟩ := hbranch hwaiting c.thenBranch
  obtain ⟨-, hcatch⟩ := hbranch hfulfilled c.catchBranch
  have hpendingPart : Part c.scope (site.scope :: outer) c.opened c.waiting g :=
    ⟨hparts.opened.built, hpending, hthen.toEvolves.trans (hcatch.toEvolves.trans hended), hg⟩
  have hthenPart : Part c.scope (site.scope :: outer) c.waiting c.fulfilled g :=
    ⟨hwaiting.built, hthen, hcatch.toEvolves.trans hended, hg⟩
  have hcatchPart : Part c.scope (site.scope :: outer) c.fulfilled c.ended g :=
    ⟨hfulfilled.built, hcatch, hended, hg⟩
  have hnotOpen : ∀ x, c.opened.graph.scopes.length ≤ x → x ∉ c.scope :: site.scope :: outer :=
    fun x hx hm => Nat.not_lt.mpr hx (hpendingPart.open_lt hm)
  refine ⟨c.keeps (blockRule_await hkind) hb hremains hg, fun m hm hthenKind => ?_,
    fun m hm hcatchKind => ?_, fun i r v w hr hv hw hmade hnew => ?_,
    fun i r v w hr hv hw hmade hnew => ?_⟩
  · obtain ⟨hlt, hscope, hparent⟩ := branch_opens .awaitThen "value" hwaiting hm
      (hthenKind ▸ by decide) (by decide) (by simp only [visitRule, hthenKind]) c.thenBranch
    exact ⟨_, ⟨Nat.le_refl _, hlt⟩, (hthenPart.remains.kindAt?_eq hlt).trans hscope,
      (hthenPart.remains.parent?_eq hlt).trans hparent⟩
  · obtain ⟨hlt, hscope, hparent⟩ := branch_opens .awaitCatch "error" hfulfilled hm
      (hcatchKind ▸ by decide) (by decide) (by simp only [visitRule, hcatchKind]) c.catchBranch
    exact ⟨_, ⟨Nat.le_refl _, hlt⟩, (hcatchPart.remains.kindAt?_eq hlt).trans hscope,
      (hcatchPart.remains.parent?_eq hlt).trans hparent⟩
  all_goals have hin := within_of_resolved hg hr hv hw
  · have hscope := hnotOpen w.scope (Nat.le_trans hpending.scopes_le hnew.1)
    rcases hmade with hmade | hmade
    · exact hpendingPart.not_within hr hmade hscope (fun hold => Nat.not_lt.mpr hnew.1 hold.2) hin
    · exact hcatchPart.not_within hr hmade hscope (fun hold => Nat.not_lt.mpr hold.1 hnew.2) hin
  · have hle := Nat.le_trans hthen.scopes_le hnew.1
    have hscope := hnotOpen w.scope (Nat.le_trans hpending.scopes_le hle)
    rcases hmade with hmade | hmade
    · exact hpendingPart.not_within hr hmade hscope (fun hold => Nat.not_lt.mpr hle hold.2) hin
    · exact hthenPart.not_within hr hmade hscope (fun hold => Nat.not_lt.mpr hnew.1 hold.2) hin

end AwaitCourse

section Blocks

variable {options : Options} {program : Node} {g : Graph} {x : ScopeId}

/-- The scope of an each block or an await block that the analysis comes to. -/
inductive BlockScope (options : Options) (program : Node) (x : ScopeId) : ScopeKind → Prop
  | each {site} (h : Visited options program site) (hkind : site.node.kind = "EachBlock")
    (c : EachCourse site) (hx : c.scope = x) : BlockScope options program x .each
  | await {site} (h : Visited options program site) (hkind : site.node.kind = "AwaitBlock")
    (c : AwaitCourse site) (hx : c.scope = x) : BlockScope options program x .await

theorem Visited.blockScope (h : analyze options program = .ok g)
    (hblock : kind = .each ∨ kind = .await) (hkind : g.kindAt? x = some kind) {site : Site}
    (hsite : Visited options program site) {after}
    (hwalk : visit site.node site.scope site.before = .ok ((), after))
    (hx : OpenedBetween site.before after x) : BlockScope options program x kind := by
  induction hdepth : site.node.depth using Nat.strongRecOn generalizing site after with
  | ind depth ih =>
    obtain ⟨outer, kind₀, after', hb, hwalk', hremains⟩ := hsite.walks h
    cases hwalk'.symm.trans hwalk
    have hin : ∀ {opens}, Covered visit (Setting.inside site.node opens visit).calls
        (fun v => visitRule v site.node) site.scope site.before x → BlockScope options program x kind := by
      rintro opens ⟨site', hfails, ⟨kind', hlt, -⟩, after', hwalk', hx'⟩
      exact ih _ (hdepth ▸ hlt) (hsite.inner hfails) hwalk' hx' rfl
    have hg := built_of_analyze h
    by_cases heach : site.node.kind = "EachBlock"
    · obtain ⟨c, rfl⟩ := Course.exists_of_walk (blockRule_each heach) hb hwalk
      by_cases hne : x = c.scope
      · subst hne
        cases (c.keeps (blockRule_each heach) hb hremains hg).kind.symm.trans hkind
        exact .each hsite heach c rfl
      · exact hin (c.covered (blockRule_each heach) hb hx hne)
    by_cases hawait : site.node.kind = "AwaitBlock"
    · obtain ⟨c, rfl⟩ := Course.exists_of_walk (blockRule_await hawait) hb hwalk
      by_cases hne : x = c.scope
      · subst hne
        cases (c.keeps (blockRule_await hawait) hb hremains hg).kind.symm.trans hkind
        obtain ⟨d, rfl⟩ := AwaitCourse.exists_of_course c
        exact .await hsite hawait d rfl
      · exact hin (c.covered (blockRule_await hawait) hb hx hne)
    · have hplan : (Setting.inside site.node (fun kind => kind ≠ .each ∧ kind ≠ .await) visit).Plans
          site.scope outer kind₀ fun v => visitRule v site.node :=
        .visitRule (Nat.le_refl _) False.elim (fun _ h₁ h₂ => ⟨h₁, h₂⟩) (absurd · heach) (absurd · hawait)
      rw [visit_eq hb] at hwalk
      refine hin (hplan.covers walks_inside hb hwalk hx.1 hx.2 fun kind' hkind' hopens => ?_)
      rw [← hremains.kindAt?_eq hx.2, hkind] at hkind'
      cases hkind'
      exact hblock.elim hopens.1 hopens.2

theorem blockScope_of_analyze (h : analyze options program = .ok g)
    (hblock : kind = .each ∨ kind = .await) (hkind : g.kindAt? x = some kind) :
    BlockScope options program x kind := by
  obtain ⟨b, hrun, hruns, -, hclose⟩ := run_of_analyze h
  have hremains := hclose.toEvolves
  obtain ⟨hb, hgrows⟩ := hruns.grows (within_rootGraph program)
  have hx : x < b.graph.scopes.length := by
    obtain ⟨s, hs, -⟩ := Option.map_eq_some_iff.mp hkind
    exact hclose.scopes_length ▸ Graph.scopeAt?_lt hs
  have hplan := plan_statements options program
  have hnew : (rootGraph program).scopes.length ≤ x := by
    by_contra hlt
    have hglobal : x = Graph.globalScope := Nat.lt_one_iff.mp (Nat.lt_of_not_le hlt)
    have hkept : g.kindAt? Graph.globalScope = (rootGraph program).kindAt? Graph.globalScope :=
      (hgrows.toEvolves.trans hremains).kindAt?_eq Nat.one_pos
    rw [hglobal, hkept, (within_rootGraph program).kind] at hkind
    cases hkind
    exact hblock.elim (fun he => by cases he) fun he => by cases he
  have hmodule : ∀ kind', b.graph.kindAt? x = some kind' → ¬kind' = .module := by
    rintro _ hkind' rfl
    cases hkind.symm.trans ((hremains.kindAt?_eq hx).trans hkind')
    exact hblock.elim (fun he => by cases he) fun he => by cases he
  obtain ⟨site, hfails, -, after, hwalk, hx'⟩ :=
    hplan.covers walks_inside (within_rootGraph program) hrun hnew hx hmodule
  exact Visited.blockScope h hblock hkind (.statement hfails) hwalk hx'

/-- The variables of each blocks and await blocks are visible in their regions only. This holds of every
block that the analysis comes to, and their scopes are all the scopes of such blocks in the graph. -/
theorem bindings_keep_to_regions (h : analyze options program = .ok g) :
    (∀ site, Visited options program site → site.node.kind = "EachBlock" →
      Nonempty (EachCourse site) ∧ ∀ c : EachCourse site, c.Keeps g) ∧
    (∀ site, Visited options program site → site.node.kind = "AwaitBlock" →
      Nonempty (AwaitCourse site) ∧ ∀ c : AwaitCourse site, c.Regions g) ∧
    ∀ x kind, g.kindAt? x = some kind → kind = .each ∨ kind = .await →
      BlockScope options program x kind := by
  have hg := built_of_analyze h
  refine ⟨fun site hsite hkind => ?_, fun site hsite hkind => ?_, fun x kind hkind hblock =>
    blockScope_of_analyze h hblock hkind⟩
  all_goals obtain ⟨outer, kind₀, after, hb, hwalk, hremains⟩ := hsite.walks h
  · have hrule := blockRule_each hkind
    obtain ⟨c, -⟩ := Course.exists_of_walk hrule hb hwalk
    refine ⟨⟨c⟩, fun c => ?_⟩
    cases (c.walk hrule hb).symm.trans hwalk
    exact c.keeps hrule hb hremains hg
  · have hrule := blockRule_await hkind
    obtain ⟨c, -⟩ := Course.exists_of_walk hrule hb hwalk
    obtain ⟨d, -⟩ := AwaitCourse.exists_of_course c
    refine ⟨⟨d⟩, fun c => ?_⟩
    cases (c.walk hrule hb).symm.trans hwalk
    exact c.regions hkind hb hremains hg

/-- An each block whose variable has the name of what it iterates over, and an await block with a
branch: each name means the variable around the block, but for the one in its scope. -/
theorem bindings_keep_to_regions_shadowed :
    let name (start : Nat) : Node :=
      { kind := "Identifier", start, stop := start + 1, fields := [("name", .string "a")] }
    let otherwise : Node := { kind := "ElseBlock", start := 5, stop := 6, fields := [("children", [name 5])] }
    let each : Node :=
      { kind := "EachBlock", start := 0, stop := 6,
        fields := [("expression", name 1), ("context", name 2), ("children", [name 3]), ("else", otherwise)] }
    let value : Node :=
      { kind := "ThenBlock", start := 8, stop := 10,
        fields := [("value", name 8), ("children", [name 9])] }
    let reason : Node := { kind := "CatchBlock", start := 10, stop := 11, fields := [("children", [name 10])] }
    let await : Node :=
      { kind := "AwaitBlock", start := 6, stop := 11,
        fields := [("expression", name 7), ("then", value), ("catch", reason)] }
    let program : Node := { kind := "Program", start := 0, stop := 11, fields := [("body", [each, await])] }
    ∃ g, analyze {} program = .ok g ∧
      g.references.map (fun r => (r.start, r.resolved)) =
        [(1, none), (3, some 0), (5, none), (7, none), (9, some 1), (10, none)] ∧
      (∃ site, Visited {} program site ∧ ∃ c : EachCourse site, c.scope = 2 ∧ c.Keeps g) ∧
      ∃ site, Visited {} program site ∧ ∃ c : AwaitCourse site, c.scope = 4 ∧ c.Regions g := by
  intro name otherwise each value reason await program
  have hrun : (analyze {} program).toOption.map (fun g =>
      (g.references.map (fun r => (r.start, r.resolved)), g.kindAt? 2, g.kindAt? 4)) =
      some ([(1, none), (3, some 0), (5, none), (7, none), (9, some 1), (10, none)],
        some .each, some .await) := by
    decide +kernel
  obtain ⟨g, hg, hrun⟩ := Option.map_eq_some_iff.mp hrun
  obtain ⟨hreferences, hkinds⟩ := Prod.mk.inj hrun
  obtain ⟨heach, hawait⟩ := Prod.mk.inj hkinds
  rw [toOption_eq_some] at hg
  obtain ⟨heachRegions, hawaitRegions, hscopes⟩ := bindings_keep_to_regions hg
  refine ⟨g, hg, hreferences, ?_, ?_⟩
  · cases hscopes 2 .each heach (.inl rfl) with
    | each hsite hkind c hc => exact ⟨_, hsite, c, hc, (heachRegions _ hsite hkind).2 c⟩
  · cases hscopes 4 .await hawait (.inr rfl) with
    | await hsite hkind c hc => exact ⟨_, hsite, c, hc, (hawaitRegions _ hsite hkind).2 c⟩

end Blocks

end SvelteSyntax.Scoping
