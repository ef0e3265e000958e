import SvelteSyntax.Proofs.Scoping.Plans

namespace SvelteSyntax.Scoping

open Run

namespace Walks

variable {α β : Type} {fits : Prop} {current : ScopeId} {outer : List ScopeId} {kind : ScopeKind}

theorem bind {w : Walk α} {f : α → Walk β} (hw : Walks fits current outer kind w)
    (hf : ∀ a, Walks fits current outer kind (f a)) : Walks fits current outer kind (w >>= f) := by
  refine fun b hb => ⟨fun c b' h => ?_, fun e h => ?_⟩
  · obtain ⟨a, b₁, hfirst, hrun⟩ := walk_bind_eq_ok.mp h
    have hruns := (hw b hb).1 a b₁ hfirst
    exact hruns.trans ((hf a b₁ (hruns.grows hb).1).1 c b' hrun)
  · rcases walk_bind_eq_error.mp h with hfirst | ⟨a, b₁, hfirst, hrun⟩
    · exact (hw b hb).2 e hfirst
    · exact (hf a b₁ (((hw b hb).1 a b₁ hfirst).grows hb).1).2 e hrun

theorem inScope {kind' block} {body : Walk α} {finish : α → Walk β}
    (hkind : kind' = .awaitThen ∨ kind' = .awaitCatch → kind = .await)
    (h : ∀ id, Walks fits id (current :: outer) kind' body)
    (hfinish : ∀ id b a b₁, body id b = .ok (a, b₁) → Finishes id kind' current (finish a)) :
    Walks fits current outer kind (Scoping.inScope kind' block body >>= finish) := by
  intro b hb
  obtain ⟨hok, herror⟩ := h _ _ (hb.opened kind' block)
  refine ⟨fun c b' hrun => ?_, fun f hrun => ?_⟩
  · obtain ⟨a, closed, hscope, hrun⟩ := walk_bind_eq_ok.mp hrun
    obtain ⟨ended, hbody, hclose⟩ := bracket_eq_ok.mp hscope
    obtain ⟨c', b'', hdone, hfinish⟩ := hfinish _ _ _ _ hbody closed
    cases hdone.symm.trans hrun
    exact .inScope hkind (hok a ended hbody) hclose hfinish
  · rcases walk_bind_eq_error.mp hrun with hscope | ⟨a, closed, hscope, hrun⟩
    · exact herror f (error_of_bracket hscope)
    · obtain ⟨ended, hbody, -⟩ := bracket_eq_ok.mp hscope
      obtain ⟨c', b'', hdone, -⟩ := hfinish _ _ _ _ hbody closed
      cases hdone.symm.trans hrun

end Walks

variable {outer : List ScopeId} {kind : ScopeKind} {current : ScopeId} {g : Graph} {n : Node}
  {fits : Prop}

theorem Plan.walks {S} {α : Type} {w : Walk α} {W : (Node → Walk Unit) → Walk α}
    (h : Plan S current outer kind w W)
    (hv : ∀ kind m, S.calls kind m → ∀ current outer, Walks S.fits current outer kind (S.visit m)) :
    Walks S.fits current outer kind w := by
  induction h with
  | own hstep herror => exact fun b _ => ⟨fun a b' h => .step (hstep b a b' h), herror b⟩
  | asks hw _ ih =>
    intro b hb
    obtain ⟨a, ha, hask⟩ := hw b hb
    rw [walk_bind_of_ok hask]
    exact ih a ha b hb
  | bind _ _ ihw ihf => exact .bind ihw ihf
  | call hm => exact hv _ _ hm _ _
  | inScope _ hbranch _ hfinish ih => exact .inScope hbranch ih hfinish

theorem walks_visitWithin (depth : Nat) (hn : Visitable fits kind n) :
    Walks fits current outer kind (visitWithin depth n) := by
  induction depth generalizing current outer kind n with
  | zero =>
    have hplan : (Setting.below visit 0 (fun _ => True) fits).Plans current outer kind fun _ =>
        (pure () : Walk Unit) := .pure
    exact hplan.walks fun _ m hm => absurd hm.1 (Nat.not_lt_zero _)
  | succ depth ih =>
    have hplan : (Setting.below (visitWithin depth) n.depth (fun _ => True) fits).Plans current outer
        kind fun v => visitRule v n :=
      .visitRule (Nat.le_refl _) hn (fun _ _ _ => trivial) (fun _ => trivial) fun _ => trivial
    exact hplan.walks fun _ m hm _ _ => ih hm.2

theorem walks_visit (hn : Visitable fits kind n) :
    Walks fits current outer kind (visit n) :=
  walks_visitWithin n.depth hn

section Analyze

variable {fits : Prop} {options : Options} {program : Node}

def rootGraph (program : Node) : Graph := Graph.pushScope {} .global none program.kind program.start

theorem within_rootGraph (program : Node) :
    Within Graph.globalScope [] .global (rootGraph program) :=
  ⟨.root .., @kindAt?_pushScope {} .global none (by simp) ..⟩

theorem nesting_rootGraph (program : Node) : (rootGraph program).Nesting := by
  refine ⟨fun x s hs hkind => ?_, fun v w hw => ?_⟩
  · rw [rootGraph, @Graph.scopeAt?_pushScope {} .global none (by simp)] at hs
    split at hs
    · cases hs
      rcases hkind with hkind | hkind
      · cases hkind
      · cases hkind
    · simp [Graph.scopeAt?] at hs
  · rw [rootGraph, Graph.variableAt?_pushScope] at hw
    simp [Graph.variableAt?] at hw

def topWalk (options : Options) (program : Node) (v : Node → Walk Unit) : Walk Unit :=
  if options.isModule then inScope .module program ((program.children "body").forM v)
  else (program.children "body").forM v

theorem plan_topWalk (h : ∀ c ∈ program.children "body", ∀ kind, Visitable fits kind c) :
    (Setting.below visit program.depth (· = .module) fits).Plans current outer kind
      (topWalk options program) := by
  have hbody : ∀ {current outer kind}, (Setting.below visit program.depth (· = .module) fits).Plans
      current outer kind fun v => (program.children "body").forM v :=
    .forM fun c hc => .call ⟨Node.depth_lt_of_hasChild (Node.hasChild_of_children hc), h c hc _⟩
  dsimp only [Setting.Plans]
  unfold topWalk
  split
  · exact .scope rfl (by rintro (h | h) <;> cases h) fun _ => hbody
  · exact hbody

theorem walks_topWalk (h : ∀ c ∈ program.children "body", ∀ kind, Visitable fits kind c) :
    Walks fits Graph.globalScope [] .global (topWalk options program visit) :=
  (plan_topWalk h).walks fun _ _ hm _ _ => walks_visit hm.2

theorem run_of_analyze (h : analyze options program = .ok g) :
    ∃ b, topWalk options program visit Graph.globalScope { graph := rootGraph program } = .ok ((), b) ∧
      Runs Graph.globalScope [] .global { graph := rootGraph program } b ∧
      Ends g Graph.globalScope [] b ∧ Alters (· = Graph.globalScope) b.graph g := by
  obtain ⟨⟨u, b'⟩, hrun, hg⟩ := bind_eq_ok.mp h
  cases hg
  obtain ⟨b, hbody, hclose⟩ := bracket_eq_ok.mp hrun
  have hwalks : Walks False Graph.globalScope [] .global (topWalk options program visit) :=
    walks_topWalk fun _ _ _ => False.elim
  have hruns := (hwalks _ (within_rootGraph program)).1 _ _ hbody
  have hb := (hruns.grows (within_rootGraph program)).1
  exact ⟨b, hbody, hruns, .last hb hclose rfl, (alters_closeScope hb.built hclose).2⟩

theorem built_of_analyze (h : analyze options program = .ok g) : Built [] g := by
  obtain ⟨b, -, -, hends, -⟩ := run_of_analyze h
  exact hends.built

theorem evolves_of_analyze (h : analyze options program = .ok g) :
    Evolves (rootGraph program) g := by
  obtain ⟨b, -, hruns, hends, -⟩ := run_of_analyze h
  exact (hruns.grows (within_rootGraph program)).2.toEvolves.trans hends.evolves

theorem misplacedLet_of_analyze (h : ∀ c ∈ program.children "body", ∀ kind, Visitable True kind c)
    {f} (hf : analyze options program = .error f) : MisplacedLet f := by
  rcases bind_eq_error.mp hf with hrun | ⟨p, -, hp⟩
  · exact (walks_topWalk h _ (within_rootGraph program)).2 f (error_of_bracket hrun) trivial
  · cases hp

end Analyze

end SvelteSyntax.Scoping
