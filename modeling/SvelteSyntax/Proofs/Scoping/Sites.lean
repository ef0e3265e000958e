import SvelteSyntax.Proofs.Scoping.Walks

namespace SvelteSyntax.Scoping

open Run

structure Site where
  node : Node
  scope : ScopeId
  before : Building

open Classical in
/-- The walk that fails at one site. -/
noncomputable def cutAt (v : Node → Walk Unit) (site : Site) (f : Fault) : Node → Walk Unit :=
  fun n scope b => if (⟨n, scope, b⟩ : Site) = site then .error f else v n scope b

/-- A walk comes to a site: it ends with whatever fault is met there. -/
def ComesTo {α : Type} (W : (Node → Walk Unit) → Walk α) (scope : ScopeId) (b : Building)
    (site : Site) : Prop :=
  ∀ f, W (cutAt visit site f) scope b = .error f

/-- The sites that the analysis of a program comes to. -/
inductive Visited (options : Options) (program : Node) : Site → Prop
  | statement {site} (h : ComesTo (topWalk options program) Graph.globalScope
      { graph := rootGraph program } site) : Visited options program site
  | inner {site site'} (h : Visited options program site)
    (h' : ComesTo (fun v => visitRule v site.node) site.scope site.before site') :
    Visited options program site'

/-- Two results are the same, unless the second one is a fault that may be. -/
def Agree {α : Type} (due : Fault → Prop) (x y : Except Fault α) : Prop :=
  y = x ∨ ∃ f, due f ∧ y = .error f

variable {due : Fault → Prop} {v : Node → Walk Unit} {x : ScopeId}

theorem Agree.bind {γ δ : Type} {x y : Except Fault γ} {k l : γ → Except Fault δ} (h : Agree due x y)
    (hk : ∀ p, x = .ok p → Agree due (k p) (l p)) :
    Agree due (x >>= k) (y >>= l) := by
  rcases h with rfl | ⟨f, hf, rfl⟩
  · cases y with
    | error e => exact .inl rfl
    | ok p => exact hk p rfl
  · exact .inr ⟨f, hf, rfl⟩

theorem agree_cutAt (v : Node → Walk Unit) (site : Site) (f : Fault) (n : Node) {current : ScopeId}
    {b : Building} : Agree (· = f) (v n current b) (cutAt v site f n current b) := by
  unfold cutAt
  split
  · exact .inr ⟨f, rfl, rfl⟩
  · exact .inl rfl

def Covered {α : Type} (v : Node → Walk Unit) (calls : ScopeKind → Node → Prop)
    (W : (Node → Walk Unit) → Walk α) (current : ScopeId) (b : Building) (x : ScopeId) : Prop :=
  ∃ site : Site, (∀ fault, W (cutAt v site fault) current b = .error fault) ∧
    (∃ kind, calls kind site.node) ∧ ∃ after, v site.node site.scope site.before = .ok ((), after) ∧
      site.before.graph.scopes.length ≤ x ∧ x < after.graph.scopes.length

namespace Covered

variable {v : Node → Walk Unit} {calls : ScopeKind → Node → Prop} {α β : Type}
  {W : (Node → Walk Unit) → Walk α} {current x : ScopeId} {b : Building}

theorem bind (h : Covered v calls W current b x) (F : α → (Node → Walk Unit) → Walk β) :
    Covered v calls (fun v => W v >>= fun a => F a v) current b x := by
  obtain ⟨site, hfails, hafter⟩ := h
  exact ⟨site, fun fault => walk_bind_eq_error.mpr (.inl (hfails fault)), hafter⟩

theorem inScope {kind : ScopeKind} {block}
    (h : Covered v calls W b.graph.scopes.length (b.opened kind (some current) block) x) :
    Covered v calls (fun v => Scoping.inScope kind block (W v)) current b x := by
  obtain ⟨site, hfails, hafter⟩ := h
  refine ⟨site, fun fault => ?_, hafter⟩
  change (W _ b.graph.scopes.length (b.opened kind (some current) block) >>= fun p => _) = _
  rw [hfails fault]
  rfl

end Covered

variable {site : Site}

namespace Plan

variable {S : Setting} {current : ScopeId} {outer : List ScopeId} {kind : ScopeKind} {α : Type}
  {w : Walk α} {W : (Node → Walk Unit) → Walk α} {b b' : Building} {a : α}
  (h : Plan S current outer kind w W)
  (hv : ∀ kind m, S.calls kind m → ∀ current outer, Walks S.fits current outer kind (S.visit m))
include h hv

/-- Another walk of the nodes inside, that agrees but for some faults, leads to a walk that agrees but
for these. -/
theorem agree (hcalls : ∀ kind m, S.calls kind m → ∀ current outer b, Within current outer kind b.graph →
      Agree due (S.visit m current b) (v m current b)) (hb : Within current outer kind b.graph) :
    Agree due (w current b) (W v current b) := by
  induction h generalizing b with
  | own _ => exact .inl rfl
  | asks hw _ ih =>
    obtain ⟨a, ha, hask⟩ := hw b hb
    refine Agree.bind (.inl rfl) fun p hp => ?_
    cases hask.symm.trans hp
    exact ih a ha hb
  | bind hw _ ihw ihf =>
    refine Agree.bind (ihw hb) fun p hp => ihf p.1 ?_
    exact (((hw.walks hv b hb).1 p.1 p.2 hp).grows hb).1
  | call hm => exact hcalls _ _ hm _ _ b hb
  | inScope _ _ _ _ ih =>
    exact Agree.bind (Agree.bind (ih _ (hb.opened ..)) fun _ _ => .inl rfl) fun _ _ => .inl rfl

theorem congr (hcalls : ∀ kind m, S.calls kind m → ∀ current outer b, Within current outer kind b.graph →
      v m current b = S.visit m current b) (hb : Within current outer kind b.graph) :
    W v current b = w current b := by
  have hagree : Agree (fun _ => False) (w current b) (W v current b) :=
    h.agree hv (fun kind m hm current outer b hb => .inl (hcalls kind m hm current outer b hb)) hb
  rcases hagree with hsame | ⟨-, hno, -⟩
  · exact hsame
  · exact hno.elim

theorem covered_bind {β : Type} {F : α → (Node → Walk Unit) → Walk β}
    (hb : Within current outer kind b.graph) (hfirst : w current b = .ok (a, b'))
    (hnext : Covered S.visit S.calls (F a) current b' x) :
    Covered S.visit S.calls (fun v => W v >>= fun a => F a v) current b x := by
  obtain ⟨site, hfails, hafter⟩ := hnext
  refine ⟨site, fun fault => ?_, hafter⟩
  rcases h.agree hv (fun _ m _ _ _ _ _ => agree_cutAt S.visit site fault m) hb with
    hsame | ⟨e, rfl, hcut⟩
  · exact (walk_bind_of_ok (hsame.trans hfirst)).trans (hfails fault)
  · exact walk_bind_eq_error.mpr (.inl hcut)

/-- A walk that does not fail at a site it comes to walks the node there, and the analysis goes on from
what is built then. -/
theorem reaches {fault} {g : Graph} (hb : Within current outer kind b.graph)
    (hrun : w current b = .ok (a, b')) (hends : Ends g current outer b')
    (hfails : W (cutAt S.visit site fault) current b = .error fault) :
    ∃ inner kind after, Within site.scope inner kind site.before.graph ∧
      S.visit site.node site.scope site.before = .ok ((), after) ∧ Ends g site.scope inner after := by
  induction h generalizing b b' with
  | own _ => cases hrun.symm.trans hfails
  | asks hw _ ih =>
    obtain ⟨a, ha, hask⟩ := hw b hb
    exact ih a ha hb ((walk_bind_of_ok hask).symm.trans hrun) hends
      ((walk_bind_of_ok hask).symm.trans hfails)
  | bind hw hf ihw ihf =>
    obtain ⟨a, b₁, hfirst, hrun⟩ := walk_bind_eq_ok.mp hrun
    obtain ⟨hwithin, -⟩ := ((hw.walks hv b hb).1 a b₁ hfirst).grows hb
    rcases hw.agree hv (fun _ m _ _ _ _ _ => agree_cutAt S.visit site fault m) hb with
      hsame | ⟨e, rfl, hcut⟩
    · exact ihf a hwithin hrun hends ((walk_bind_of_ok (hsame.trans hfirst)).symm.trans hfails)
    · exact ihw hb hfirst (.run hwithin (((hf a).walks hv b₁ hwithin).1 _ b' hrun) hends) hcut
  | @call current outer kind m hm =>
    by_cases hsite : (⟨m, current, b⟩ : Site) = site
    · subst hsite
      exact ⟨outer, kind, b', hb, hrun, hends⟩
    · cases hrun.symm.trans ((if_neg hsite).symm.trans hfails)
  | @inScope current outer _ kind' _ _ block _ W _ _ _ h hfinish ih =>
    obtain ⟨a, closed, hscope, hrun⟩ := walk_bind_eq_ok.mp hrun
    obtain ⟨ended, hbody, hclose⟩ := bracket_eq_ok.mp hscope
    obtain ⟨_, _, hdone, hfinish⟩ := hfinish _ _ _ _ hbody closed
    cases hdone.symm.trans hrun
    have hopened := hb.opened kind' block
    obtain ⟨hended, -⟩ := (((h _).walks hv _ hopened).1 _ _ hbody).grows hopened
    rcases (h _).agree hv (fun _ m _ _ _ _ _ => agree_cutAt S.visit site fault m) hopened with
      hsame | ⟨e, rfl, hcut⟩
    · have hok : Scoping.inScope kind' block (W (cutAt S.visit site fault)) current b = .ok (a, closed) :=
        bracket_eq_ok.mpr ⟨ended, hsame.trans hbody, hclose⟩
      cases hfails.symm.trans ((walk_bind_of_ok hok).trans hdone)
    · exact ih _ hopened hbody (.leave hended hclose hfinish hends) hcut

theorem covers (hb : Within current outer kind b.graph) (hrun : w current b = .ok (a, b'))
    (hx : b.graph.scopes.length ≤ x) (hx' : x < b'.graph.scopes.length)
    (hkind : ∀ kind, b'.graph.kindAt? x = some kind → ¬S.opens kind) :
    Covered S.visit S.calls W current b x := by
  induction h generalizing b b' with
  | own hstep => exact absurd ((hstep b a b' hrun).scopes_length ▸ hx') (Nat.not_lt.mpr hx)
  | asks hw _ ih =>
    obtain ⟨a, ha, hask⟩ := hw b hb
    rw [walk_bind_of_ok hask] at hrun
    obtain ⟨site, hfails, hafter⟩ := ih a ha hb hrun hx hx' hkind
    exact ⟨site, fun fault => (walk_bind_of_ok hask).trans (hfails fault), hafter⟩
  | bind hw hf ihw ihf =>
    obtain ⟨a, b₁, hfirst, hrun⟩ := walk_bind_eq_ok.mp hrun
    obtain ⟨hwithin, -⟩ := ((hw.walks hv b hb).1 a b₁ hfirst).grows hb
    obtain ⟨-, hgrows⟩ := (((hf a).walks hv b₁ hwithin).1 _ b' hrun).grows hwithin
    by_cases hlt : x < b₁.graph.scopes.length
    · rw [hgrows.kindAt?_eq hlt] at hkind
      exact (ihw hb hfirst hx hlt hkind).bind _
    · exact hw.covered_bind hv hb hfirst (ihf a hwithin hrun (Nat.le_of_not_lt hlt) hx' hkind)
  | @call current _ kind m hm =>
    exact ⟨⟨m, current, b⟩, fun fault => if_pos rfl, ⟨kind, hm⟩, b', hrun, hx, hx'⟩
  | @inScope current _ _ kind' _ _ block _ _ _ hopens _ h hfinish ih =>
    obtain ⟨a, closed, hscope, hrun⟩ := walk_bind_eq_ok.mp hrun
    obtain ⟨ended, hbody, hclose⟩ := bracket_eq_ok.mp hscope
    obtain ⟨_, _, hdone, hfinish⟩ := hfinish _ _ _ _ hbody closed
    cases hdone.symm.trans hrun
    have hopened := hb.opened kind' block
    obtain ⟨hended, -⟩ := (((h _).walks hv _ hopened).1 _ _ hbody).grows hopened
    have halters := (hended.left hclose hfinish).2
    rw [halters.scopes_length] at hx'
    rw [halters.kindAt?_eq hx'] at hkind
    rcases Nat.eq_or_lt_of_le hx with rfl | hlt
    · exact absurd hopens (hkind kind' hended.kind)
    · refine (ih _ hopened hbody ?_ hx' hkind).inScope.bind _
      rwa [Building.opened, Grows.scopes_length_pushScope]

end Plan

abbrev Setting.inside (n : Node) (opens : ScopeKind → Prop) (visit : Node → Walk Unit) : Setting :=
  Setting.below visit n.depth opens False

section Visits

variable {current : ScopeId} {outer : List ScopeId} {kind : ScopeKind} {n : Node} {b : Building}

theorem plan_visitRule (v : Node → Walk Unit) (n : Node) :
    (Setting.inside n (fun _ => True) v).Plans current outer kind fun v => visitRule v n :=
  .visitRule (Nat.le_refl _) False.elim (fun _ _ _ => trivial) (fun _ => trivial) fun _ => trivial

/-- The depth only has to be great enough. -/
theorem visitWithin_eq {d d'} (hd : n.depth ≤ d) (hd' : n.depth ≤ d')
    (hb : Within current outer kind b.graph) :
    visitWithin d' n current b = visitWithin d n current b := by
  induction d generalizing d' n current outer kind b with
  | zero => exact absurd n.depth_pos (Nat.not_lt.mpr hd)
  | succ d ih =>
    obtain ⟨d', rfl⟩ : ∃ k, d' = k + 1 := Nat.exists_eq_add_one.mpr (Nat.lt_of_lt_of_le n.depth_pos hd')
    refine (plan_visitRule (visitWithin d) n).congr (fun _ _ hm _ _ => walks_visitWithin d hm.2)
      (fun _ m hm _ _ b hb => ?_) hb
    have hlt : m.depth < n.depth := hm.1
    exact ih (by omega) (by omega) hb

theorem visit_eq (hb : Within current outer kind b.graph) :
    visit n current b = visitRule visit n current b := by
  obtain ⟨d, hd⟩ : ∃ d, n.depth = d + 1 := Nat.exists_eq_add_one.mpr n.depth_pos
  have hrule : visitRule visit n current b = visitRule (visitWithin d) n current b := by
    refine (plan_visitRule (visitWithin d) n).congr (fun _ _ hm _ _ => walks_visitWithin d hm.2)
      (fun _ m hm _ _ b hb => ?_) hb
    have hlt : m.depth < n.depth := hm.1
    exact visitWithin_eq (by omega) (Nat.le_refl _) hb
  rw [hrule, visit, hd]
  rfl

end Visits

section Program

variable {options : Options} {program : Node} {g : Graph}

theorem walks_inside {n : Node} {opens} (kind : ScopeKind) (m : Node)
    (hm : (Setting.inside n opens visit).calls kind m) (current : ScopeId) (outer : List ScopeId) :
    Walks False current outer kind (visit m) := walks_visit hm.2

theorem plan_statements (options : Options) (program : Node) :
    (Setting.inside program (· = .module) visit).Plans Graph.globalScope [] .global
      (topWalk options program) := plan_topWalk fun _ _ _ => False.elim

theorem Visited.ends (h : analyze options program = .ok g) (hsite : Visited options program site) :
    ∃ outer kind after, Within site.scope outer kind site.before.graph ∧
      visit site.node site.scope site.before = .ok ((), after) ∧ Ends g site.scope outer after := by
  induction hsite with
  | statement hcomes =>
    obtain ⟨b, hrun, -, hends, -⟩ := run_of_analyze h
    exact (plan_statements options program).reaches walks_inside (within_rootGraph program) hrun hends
      (hcomes (.unregisteredVariable ""))
  | @inner site _ _ hcomes ih =>
    obtain ⟨outer, kind, after, hwithin, hwalk, hends⟩ := ih
    rw [visit_eq hwithin] at hwalk
    exact (plan_visitRule visit site.node).reaches walks_inside hwithin hwalk hends
      (hcomes (.unregisteredVariable ""))

theorem Visited.walks (h : analyze options program = .ok g) (hsite : Visited options program site) :
    ∃ outer kind after, Within site.scope outer kind site.before.graph ∧
      visit site.node site.scope site.before = .ok ((), after) ∧ Evolves after.graph g := by
  obtain ⟨outer, kind, after, hwithin, hwalk, hends⟩ := hsite.ends h
  exact ⟨outer, kind, after, hwithin, hwalk, hends.evolves⟩

end Program

end SvelteSyntax.Scoping
