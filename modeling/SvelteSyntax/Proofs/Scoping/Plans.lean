import SvelteSyntax.Proofs.Scoping.Runs
import SvelteSyntax.Proofs.Scoping.Visitable

namespace SvelteSyntax.Scoping

open Run Program

/-- A `let:` that does not stand directly in a component. -/
def MisplacedLet (f : Fault) : Prop :=
  ∃ start, ∃ kind ≠ ScopeKind.component,
    f = .scopeNesting "Let" start ScopeKind.component.name kind.name

/-- A walk inside a scope of a kind makes the steps of a run. Where it is asked how it can fail, it is
because of a `let:`. -/
def Walks {α : Type} (fits : Prop) (current : ScopeId) (outer : List ScopeId) (kind : ScopeKind)
    (w : Walk α) : Prop :=
  ∀ b : Building, Within current outer kind b.graph →
    (∀ a b', w current b = .ok (a, b') → Runs current outer kind b b') ∧
    ∀ f, w current b = .error f → fits → MisplacedLet f

/-- What walks are made from: the walk of the nodes inside, the nodes that it may be called for in a
scope of a kind, and the kinds of scopes that may be opened. `fits` says that it is asked how the walks
can fail. -/
structure Setting where
  visit : Node → Walk Unit
  calls : ScopeKind → Node → Prop
  opens : ScopeKind → Prop
  fits : Prop

/-- What follows a scope of a kind can be done when it has just been closed, and does not fail. -/
def Finishes {α : Type} (id : ScopeId) (kind : ScopeKind) (current : ScopeId) (w : Walk α) : Prop :=
  ∀ b, ∃ a b', w current b = .ok (a, b') ∧ Finish id b kind b'

inductive Plan (S : Setting) : ScopeId → List ScopeId → ScopeKind → {α : Type} → Walk α →
    ((Node → Walk Unit) → Walk α) → Prop
  | own {current : ScopeId} {outer : List ScopeId} {kind : ScopeKind} {α : Type} {w : Walk α}
    (hstep : ∀ b a b', w current b = .ok (a, b') → Step current outer kind b b')
    (herror : ∀ b f, w current b = .error f → S.fits → MisplacedLet f) :
    Plan S current outer kind w fun _ => w
  | asks {current : ScopeId} {outer : List ScopeId} {kind : ScopeKind} {α β : Type} {w : Walk α}
    {f : α → Walk β} {F : α → (Node → Walk Unit) → Walk β} {Q : α → Prop}
    (hw : ∀ b, Within current outer kind b.graph → ∃ a, Q a ∧ w current b = .ok (a, b))
    (hf : ∀ a, Q a → Plan S current outer kind (f a) (F a)) :
    Plan S current outer kind (w >>= f) fun v => w >>= fun a => F a v
  | bind {current : ScopeId} {outer : List ScopeId} {kind : ScopeKind} {α β : Type} {w : Walk α}
    {f : α → Walk β} {W : (Node → Walk Unit) → Walk α} {F : α → (Node → Walk Unit) → Walk β}
    (hw : Plan S current outer kind w W) (hf : ∀ a, Plan S current outer kind (f a) (F a)) :
    Plan S current outer kind (w >>= f) fun v => W v >>= fun a => F a v
  | call {current : ScopeId} {outer : List ScopeId} {kind : ScopeKind} {m : Node}
    (hm : S.calls kind m) : Plan S current outer kind (S.visit m) fun v => v m
  | inScope {current : ScopeId} {outer : List ScopeId} {kind kind' : ScopeKind} {α β : Type}
    {block : Node} {w : Walk α} {W : (Node → Walk Unit) → Walk α} {finish : α → Walk β}
    (hopens : S.opens kind') (hbranch : kind' = .awaitThen ∨ kind' = .awaitCatch → kind = .await)
    (h : ∀ id, Plan S id (current :: outer) kind' w W)
    (hfinish : ∀ id b a b₁, w id b = .ok (a, b₁) → Finishes id kind' current (finish a)) :
    Plan S current outer kind (inScope kind' block w >>= finish)
      fun v => inScope kind' block (W v) >>= finish

variable {key : String} {c owner : Node} {way : DefinitionKind} {kind' : ScopeKind} {access : Access}
  {init : Bool}

namespace Setting

variable (S : Setting)

abbrev Plans (current : ScopeId) (outer : List ScopeId) (kind : ScopeKind) {α : Type}
    (W : (Node → Walk Unit) → Walk α) : Prop :=
  Plan S current outer kind (W S.visit) W

/-- A tree all of which may be walked in any scope. -/
def Walkable (n : Node) : Prop := ∀ m, n.InTree m → ∀ kind, S.calls kind m

/-- All that is inside a node may be walked in any scope. -/
def Loose (n : Node) : Prop := ∀ c, n.HasChild c → S.Walkable c

/-- The children of a node may be walked in any scope. -/
def Open (n : Node) : Prop := ∀ c, n.HasChild c → ∀ kind, S.calls kind c

variable {S} {n : Node}

theorem Walkable.loose (h : S.Walkable n) : S.Loose n := (Node.forall_inTree.mp h).2

theorem Loose.isOpen (h : S.Loose n) : S.Open n := fun c hc => h c hc c .root

theorem Open.nodesAt (h : S.Open n) (hc : c ∈ n.nodesAt key) (kind : ScopeKind) : S.calls kind c := by
  obtain ⟨v, hget, hc⟩ := Node.holds_of_nodesAt hc
  exact h c (Node.hasChild_of_get? hget hc) kind

end Setting

def MayDeclare (current : ScopeId) (outer : List ScopeId) (kind : ScopeKind) (scope : ScopeId)
    (way : DefinitionKind) (owner : Node) : Prop :=
  scope ∈ current :: outer ∧ way ≠ .reactive ∧
    (way = .templateBinding → owner.kind = "Let" → scope = current ∧ kind = .component)

theorem MayDeclare.own {current : ScopeId} {outer : List ScopeId} {kind : ScopeKind}
    (hway : way ∉ [.templateBinding, .reactive]) :
    MayDeclare current outer kind current way owner := by
  simp only [List.mem_cons, List.not_mem_nil, or_false, not_or] at hway
  exact ⟨List.mem_cons_self .., hway.2, fun h => absurd h hway.1⟩

namespace Plan

variable {S : Setting} {current : ScopeId} {outer : List ScopeId} {kind : ScopeKind} {α β : Type}
  {n : Node}

theorem pure {a : α} : S.Plans current outer kind fun _ => (Pure.pure a : Walk α) := by
  refine own (fun b a b' h => ?_) fun b f h => (by cases h)
  cases h
  exact .stay

theorem throw {f} (hf : S.fits → MisplacedLet f) :
    S.Plans current outer kind fun _ => (MonadExcept.throw f : Walk α) := by
  refine own (fun b a b' h => (by cases h)) fun b f h => ?_
  cases h
  exact hf

theorem forM {xs : List α} {f : α → Walk PUnit} {F : α → (Node → Walk Unit) → Walk PUnit}
    (h : ∀ a ∈ xs, Plan S current outer kind (f a) (F a)) :
    Plan S current outer kind (xs.forM f) fun v => xs.forM fun a => F a v := by
  induction xs with
  | nil => exact pure
  | cons a xs ih =>
    refine bind (h a (List.mem_cons_self ..)) fun _ => ih fun b hb => ?_
    exact h b (List.mem_cons_of_mem _ hb)

theorem scope {block} {w : Walk α} {W : (Node → Walk Unit) → Walk α} (hopens : S.opens kind')
    (hbranch : kind' = .awaitThen ∨ kind' = .awaitCatch → kind = .await)
    (h : ∀ id, Plan S id (current :: outer) kind' w W) :
    Plan S current outer kind (Scoping.inScope kind' block w)
      fun v => Scoping.inScope kind' block (W v) := by
  have hplan : Plan S current outer kind (Scoping.inScope kind' block w >>= Pure.pure) fun v =>
      Scoping.inScope kind' block (W v) >>= Pure.pure :=
    inScope hopens hbranch h fun _ _ a _ _ b => ⟨a, b, rfl, .stay _⟩
  simpa only [bind_pure] using hplan

theorem read_bind {f : ScopeId → Walk β} {F : ScopeId → (Node → Walk Unit) → Walk β}
    (h : Plan S current outer kind (f current) (F current)) :
    Plan S current outer kind (read >>= f) fun v => read >>= fun a => F a v :=
  asks (Q := (· = current)) (fun _ _ => ⟨current, rfl, rfl⟩) fun _ hscope => hscope ▸ h

theorem variableScope_bind {f : ScopeId → Walk β} {F : ScopeId → (Node → Walk Unit) → Walk β}
    (h : ∀ scope ∈ current :: outer, Plan S current outer kind (f scope) (F scope)) :
    Plan S current outer kind (variableScope >>= f) fun v => variableScope >>= fun a => F a v :=
  asks (fun _ hb => ⟨_, variableScopeWithin_mem hb.built.nested.1 _, rfl⟩) h

theorem currentKind_bind {f : Option ScopeKind → Walk β}
    {F : Option ScopeKind → (Node → Walk Unit) → Walk β}
    (h : Plan S current outer kind (f (some kind)) (F (some kind))) :
    Plan S current outer kind (currentKind >>= f) fun v => currentKind >>= fun a => F a v :=
  asks (Q := (· = some kind)) (fun b hb => ⟨b.graph.kindAt? current, hb.kind, rfl⟩)
    fun _ hkind => hkind ▸ h

theorem addReference {name start stop} :
    S.Plans current outer kind fun _ =>
      (modifyGraph (·.addReference current name start stop access init) : Walk Unit) := by
  refine own (fun b a b' h => ?_) fun b f h => (by cases h)
  cases h
  exact .refer ..

theorem refer :
    S.Plans current outer kind fun _ => Scoping.refer n access init := by
  unfold Scoping.refer
  split
  · exact read_bind addReference
  · exact pure

theorem referRoot : S.Plans current outer kind fun _ => Scoping.referRoot n := by
  unfold Scoping.referRoot
  split
  · exact read_bind addReference
  · exact pure

theorem declareIdentifier {scope identifier} (h : MayDeclare current outer kind scope way owner) :
    S.Plans current outer kind fun _ => Scoping.declareIdentifier scope way owner identifier := by
  unfold Scoping.declareIdentifier
  split
  · refine own (fun b a b' hrun => ?_) fun b f h => (by cases h)
    cases hrun
    exact .declare _ h.1 h.2.1 fun hlet => h.2.2 hlet.1 hlet.2
  · exact pure

theorem visitField (hn : S.Open n) (key : String) :
    S.Plans current outer kind fun v => Scoping.visitField v n key :=
  forM fun _ hc => call (hn.nodesAt hc kind)

theorem visitEvaluated {pattern} (hp : S.Walkable pattern) :
    S.Plans current outer kind fun v => pattern.evaluatedExpressions.forM v :=
  forM fun m hm => call (hp m (inTree_of_evaluated hm) kind)

theorem declarePattern {scope pattern} (h : MayDeclare current outer kind scope way owner)
    (hp : S.Walkable pattern) :
    S.Plans current outer kind fun v => Scoping.declarePattern v scope pattern way owner :=
  bind (forM fun _ _ => declareIdentifier h) fun _ => visitEvaluated hp

theorem declareField {scope field} (h : MayDeclare current outer kind scope way n)
    (hn : ∀ c, n.child? field = some c → S.Walkable c) :
    S.Plans current outer kind fun v => Scoping.declareField v scope n field way := by
  dsimp only [Setting.Plans]
  unfold Scoping.declareField
  split
  · next c hc => exact declarePattern h (hn c hc)
  · exact pure

theorem declareOwn (hn : S.Loose n) {field} (hway : way ∉ [.templateBinding, .reactive]) :
    S.Plans current outer kind fun v => Scoping.declareField v current n field way :=
  declareField (.own hway) fun c hc => hn c (Node.hasChild_of_child? hc)

theorem assignTo {target} (ht : S.Walkable target) :
    S.Plans current outer kind fun v => Scoping.assignTo v target access := by
  dsimp only [Setting.Plans]
  unfold Scoping.assignTo
  split
  · exact refer
  iterate 4 exact bind (forM fun _ _ => refer) fun _ => visitEvaluated ht
  exact call (ht target .root kind)

theorem visitDeclarator {scope} (hscope : scope ∈ current :: outer) (hn : S.Loose n) :
    S.Plans current outer kind fun v => Scoping.visitDeclarator v scope n := by
  dsimp only [Setting.Plans]
  unfold Scoping.visitDeclarator
  split
  · next id hid =>
    refine bind (declarePattern ⟨hscope, by decide, fun h => by cases h⟩ (hn id (Node.hasChild_of_child? hid)))
      fun _ => ?_
    split
    · next init hinit =>
      refine bind (forM fun _ _ => refer) fun _ => call ?_
      exact hn init (Node.hasChild_of_child? hinit) init .root kind
    · exact pure
  · exact pure

theorem visitVariables (hn : S.Loose n) :
    S.Plans current outer kind fun v => Scoping.visitVariables v n := by
  have hdeclarator : ∀ scope ∈ current :: outer, ∀ d ∈ n.children "declarations",
      S.Plans current outer kind fun v => Scoping.visitDeclarator v scope d :=
    fun scope hscope d hd => visitDeclarator hscope (hn d (Node.hasChild_of_children hd)).loose
  dsimp only [Setting.Plans]
  unfold Scoping.visitVariables
  split
  · exact variableScope_bind fun scope hscope => forM (hdeclarator scope hscope)
  · exact read_bind (forM (hdeclarator current (List.mem_cons_self ..)))

theorem visitFunctionBody (hn : S.Loose n) :
    S.Plans current outer kind fun v => Scoping.visitFunctionBody v n := by
  dsimp only [Setting.Plans]
  unfold Scoping.visitFunctionBody
  refine read_bind (bind (forM fun p hp => ?_) fun _ => ?_)
  · exact declarePattern (.own (by decide)) (hn p (Node.hasChild_of_children hp))
  · split
    · next body hbody =>
      have hbody := hn body (Node.hasChild_of_child? hbody)
      split
      · exact visitField hbody.loose.isOpen _
      · exact call (hbody body .root kind)
    · exact pure

theorem visitImport (hn : S.Loose n) :
    S.Plans current outer kind fun v => Scoping.visitImport v n :=
  read_bind (forM fun s hs => declareOwn (hn s (Node.hasChild_of_children hs)).loose (by decide))

theorem visitExport (hn : S.Loose n) :
    S.Plans current outer kind fun v => Scoping.visitExport v n := by
  dsimp only [Setting.Plans]
  unfold Scoping.visitExport
  cases hdeclaration : n.child? "declaration"
  case' some => refine bind (call (hn.isOpen _ (Node.hasChild_of_child? hdeclaration) kind)) fun _ => ?_
  all_goals
    split
    · refine forM fun s _ => ?_
      split
      · exact refer
      · exact pure
    · exact pure

theorem visitForLeft {left} (hn : S.Walkable left) :
    S.Plans current outer kind fun v => Scoping.visitForLeft v left := by
  dsimp only [Setting.Plans]
  unfold Scoping.visitForLeft
  split
  · exact bind (call (hn left .root kind)) fun _ => forM fun _ _ => forM fun _ _ => refer
  · exact assignTo hn

theorem visitForParts (hn : S.Loose n) :
    S.Plans current outer kind fun v => Scoping.visitForParts v n := by
  have hfield : ∀ key, S.Plans current outer kind fun v => Scoping.visitField v n key :=
    visitField hn.isOpen
  dsimp only [Setting.Plans]
  unfold Scoping.visitForParts
  split
  · exact bind (forM fun _ _ => hfield _) fun _ => hfield _
  · split
    · next left hleft =>
      refine bind (visitForLeft (hn left (Node.hasChild_of_child? hleft))) fun _ => ?_
      exact bind (hfield _) fun _ => hfield _
    · exact bind (hfield _) fun _ => hfield _

theorem visitLabeled (hn : S.Open n) :
    S.Plans current outer kind fun v => Scoping.visitLabeled v n := by
  dsimp only [Setting.Plans]
  unfold Scoping.visitLabeled
  split
  · split
    · refine read_bind (bind (own (fun b a b' h => ?_) fun b f h => (by cases h)) fun _ => visitField hn _)
      cases h
      exact .queue ..
    · exact visitField hn _
  · exact visitField hn _

section Scopes

variable (hopens : ∀ kind, kind ≠ .each → kind ≠ .await → S.opens kind)
include hopens

theorem inPlainScope (hkind : kind' ∉ [.each, .await, .awaitThen, .awaitCatch]) {block} {w : Walk α}
    {W : (Node → Walk Unit) → Walk α} (h : ∀ id, Plan S id (current :: outer) kind' w W) :
    Plan S current outer kind (Scoping.inScope kind' block w) fun v => Scoping.inScope kind' block (W v) := by
  simp only [List.mem_cons, List.not_mem_nil, or_false, not_or] at hkind
  obtain ⟨heach, hawait, hthen, hcatch⟩ := hkind
  exact scope (hopens _ heach hawait) (fun hbranch => (hbranch.elim hthen hcatch).elim) h

theorem visitFunction (hn : S.Loose n) :
    S.Plans current outer kind fun v => Scoping.visitFunction v n := by
  have hinner : ∀ {current outer kind}, S.Plans current outer kind fun v =>
      Scoping.inScope .function n (Scoping.visitFunctionBody v n) :=
    inPlainScope hopens (by decide) fun _ => visitFunctionBody hn
  dsimp only [Setting.Plans]
  unfold Scoping.visitFunction
  dsimp only
  split
  · refine inPlainScope hopens (by decide) fun _ => read_bind ?_
    exact bind (declareOwn hn (by decide)) fun _ => hinner
  · exact hinner

theorem visitClass (hn : S.Loose n) :
    S.Plans current outer kind fun v => Scoping.visitClass v n := by
  dsimp only [Setting.Plans]
  unfold Scoping.visitClass
  refine bind (visitField hn.isOpen _) fun _ => inPlainScope hopens (by decide) fun _ => ?_
  split
  · exact read_bind (bind (declareOwn hn (by decide)) fun _ => visitField hn.isOpen _)
  · exact visitField hn.isOpen _

theorem visitFor (hn : S.Loose n) : S.Plans current outer kind fun v => Scoping.visitFor v n := by
  dsimp only [Setting.Plans]
  unfold Scoping.visitFor
  dsimp only
  split
  · exact inPlainScope hopens (by decide) fun _ => visitForParts hn
  · exact visitForParts hn

end Scopes

theorem visitNamedDirective (hn : S.Open n) :
    S.Plans current outer kind fun v => Scoping.visitNamedDirective v n := by
  dsimp only [Setting.Plans]
  unfold Scoping.visitNamedDirective
  split
  · exact bind referRoot fun _ => visitField hn _
  · exact visitField hn _

theorem visitBinding (hn : S.Open n) :
    S.Plans current outer kind fun v => Scoping.visitBinding v n := by
  dsimp only [Setting.Plans]
  unfold Scoping.visitBinding
  split
  · next c hc =>
    split
    · exact refer
    · exact call (hn c (Node.hasChild_of_child? hc) kind)
  · exact pure

end Plan

section Each

variable (visit : Node → Walk Unit) (n : Node)

def eachBody : Walk (ScopeId × Node) := do
  let scope ← read
  let some context := n.child? "context" | throw (.missingDeclaration n.kind n.start)
  declarePattern visit scope context .templateBinding n
  declareField visit scope n "index" .templateBinding
  visitField visit n "key"
  visitField visit n "children"
  return (scope, context)

/-- What is done to the index of an each block when its scope is closed. -/
def eachMark (scope : ScopeId) (context : Node) : Walk Unit :=
  match n.child? "index" with
  | some index => modifyGraph (markIndex scope context index)
  | none => pure ()

theorem visitEach_eq :
    visitEach visit n = (do
      visitField visit n "expression"
      let p ← inScope .each n (eachBody visit n)
      eachMark n p.1 p.2
      visitField visit n "else") := by
  unfold visitEach eachMark
  cases n.child? "index"
  · rfl
  · rfl

theorem eachBody_scope {id b b' p} (h : eachBody visit n id b = .ok (p, b')) :
    p.1 = id ∧ n.child? "context" = some p.2 := by
  unfold eachBody at h
  cases hcontext : n.child? "context" with
  | none =>
    simp only [hcontext] at h
    cases h
  | some context =>
    simp only [hcontext] at h
    obtain ⟨_, _, hread, h⟩ := walk_bind_eq_ok.mp h
    cases hread
    obtain ⟨_, _, -, h⟩ := walk_bind_eq_ok.mp h
    obtain ⟨_, _, -, h⟩ := walk_bind_eq_ok.mp h
    obtain ⟨_, _, -, h⟩ := walk_bind_eq_ok.mp h
    obtain ⟨_, _, -, h⟩ := walk_bind_eq_ok.mp h
    cases h
    exact ⟨rfl, rfl⟩

theorem finishes_eachMark (id current : ScopeId) (context : Node) :
    Finishes id .each current (eachMark n id context) := by
  unfold eachMark
  split
  · exact fun b => ⟨(), _, rfl, .mark ..⟩
  · exact fun b => ⟨(), b, rfl, .stay _⟩

end Each

def Setting.below (visit : Node → Walk Unit) (depth : Nat) (opens : ScopeKind → Prop) (fits : Prop) :
    Setting :=
  { visit, opens, fits, calls := fun kind m => m.depth < depth ∧ Visitable fits kind m }

namespace Plan

variable {v : Node → Walk Unit} {depth : Nat} {opens : ScopeKind → Prop} {fits : Prop}
  {current : ScopeId} {outer : List ScopeId} {kind : ScopeKind} {n : Node}

theorem depth_lt_of_hasChild (hd : n.depth ≤ depth) (hc : n.HasChild c) : c.depth < depth :=
  Nat.lt_of_lt_of_le (Node.depth_lt_of_hasChild hc) hd

theorem walkable_below (hd : n.depth < depth) (hn : Loose fits n) :
    (Setting.below v depth opens fits).Walkable n := by
  intro m hm kind
  have hle : m.depth ≤ n.depth := by
    induction hm with
    | root => exact Nat.le_refl _
    | child _ hc ih => exact Nat.le_trans (Nat.le_of_lt (Node.depth_lt_of_hasChild hc)) ih
  exact ⟨Nat.lt_of_le_of_lt hle hd, Loose.visitable fun hfits => scripted_inTree (hn hfits) hm⟩

theorem loose_below (hd : n.depth ≤ depth) (hn : Loose fits n) :
    (Setting.below v depth opens fits).Loose n :=
  fun _ hc => walkable_below (depth_lt_of_hasChild hd hc) (hn.child hc)

theorem open_below (hd : n.depth ≤ depth) (hn : Open fits n) :
    (Setting.below v depth opens fits).Open n :=
  fun _ hc _ => ⟨depth_lt_of_hasChild hd hc, hn.child hc⟩

section Markup

variable (hd : n.depth ≤ depth) (hn : Visitable fits kind n)
include hd hn

theorem walkable_script (hkey : ∀ field ∈ branchFields, field.2.1 ≠ key) (hc : n.child? key = some c) :
    (Setting.below v depth opens fits).Walkable c :=
  walkable_below (depth_lt_of_hasChild hd (Node.hasChild_of_child? hc)) (hn.script hkey hc)

theorem eachBody (hkind : n.kind = "EachBlock") :
    (Setting.below v depth opens fits).Plans current outer kind' fun v => Scoping.eachBody v n := by
  have hopen : (Setting.below v depth opens fits).Open n :=
    open_below hd (hn.isOpen (hkind ▸ by decide))
  have hdeclare : MayDeclare current outer kind' current .templateBinding n :=
    ⟨List.mem_cons_self .., by decide, fun _ he => absurd (hkind.symm.trans he) (by decide)⟩
  dsimp only [Setting.Plans]
  unfold Scoping.eachBody
  refine read_bind ?_
  split
  · next context hcontext =>
    refine bind (declarePattern hdeclare (walkable_script hd hn (by decide) hcontext)) fun _ => ?_
    refine bind (declareField hdeclare fun c hc => walkable_script hd hn (by decide) hc) fun _ => ?_
    exact bind (visitField hopen _) fun _ => bind (visitField hopen _) fun _ => pure
  · next hnone =>
    refine throw fun hfits => ?_
    obtain ⟨c, hc⟩ := (hn.declares hfits (hkind ▸ by decide)).context hkind
    refine (hnone c ?_).elim
    rw [Node.child?, hc]
    rfl

theorem visitEach (hkind : n.kind = "EachBlock") (heach : opens .each) :
    (Setting.below v depth opens fits).Plans current outer kind fun v => Scoping.visitEach v n := by
  have hopen : (Setting.below v depth opens fits).Open n :=
    open_below hd (hn.isOpen (hkind ▸ by decide))
  simp only [Setting.Plans, visitEach_eq]
  refine bind (visitField hopen _) fun _ => ?_
  simp only [← bind_assoc]
  refine bind (inScope heach (by rintro (h | h) <;> cases h) (fun _ => eachBody hd hn hkind)
    fun id b p b₁ hbody => ?_) fun _ => visitField hopen _
  rw [(eachBody_scope _ n hbody).1]
  exact finishes_eachMark n id current p.2

theorem awaitBranchBody (hkind : n.kind ∈ sectionKinds) (hkey : ∀ field ∈ branchFields, field.2.1 ≠ key) :
    (Setting.below v depth opens fits).Plans current outer kind' fun v => (do
      Scoping.declareField v (← read) n key .templateBinding
      Scoping.visitField v n "children") := by
  refine read_bind (bind (declareField ⟨List.mem_cons_self .., by decide, fun _ he => ?_⟩ fun c hc =>
    walkable_script hd hn hkey hc) fun _ => visitField (open_below hd (hn.isOpen fun he => ?_)) _)
  · exact absurd (he ▸ hkind) (by decide)
  · exact absurd (he ▸ hkind) (by decide)

theorem visitAwaitBranch (hkind : n.kind ∈ sectionKinds) (hkey : ∀ field ∈ branchFields, field.2.1 ≠ key)
    (hopens : opens kind') :
    (Setting.below v depth opens fits).Plans current outer kind fun v =>
      Scoping.visitAwaitBranch v n kind' key := by
  dsimp only [Setting.Plans]
  unfold Scoping.visitAwaitBranch
  refine currentKind_bind ?_
  dsimp only
  split
  · next hawait =>
    exact scope hopens (fun _ => Option.some.inj hawait) fun _ => awaitBranchBody hd hn hkind hkey
  · next hawait => exact throw fun hfits => absurd (congrArg some ((hn hfits).2 hkind)) hawait

theorem visitLet (hkind : n.kind = "Let") :
    (Setting.below v depth opens fits).Plans current outer kind fun v => Scoping.visitLet v n := by
  dsimp only [Setting.Plans]
  unfold Scoping.visitLet
  refine currentKind_bind ?_
  dsimp only
  split
  · next hcomponent =>
    split
    · next binding hbinding =>
      refine read_bind (declarePattern ⟨List.mem_cons_self .., by decide, fun _ _ =>
        ⟨rfl, Option.some.inj hcomponent⟩⟩ ?_)
      rcases Option.or_eq_some_iff.mp hbinding with hc | ⟨-, hc⟩
      · exact walkable_script hd hn (by decide) hc
      · exact walkable_script hd hn (by decide) hc
    · next hnone =>
      refine throw fun hfits => ?_
      rcases (hn.declares hfits (hkind ▸ by decide)).target hkind with
        ⟨key, hkey, c, hc⟩ | ⟨hdrafted, -⟩
      · have hc : n.child? key = some c := by
          rw [Node.child?, hc]
          rfl
        rcases List.mem_pair.mp hkey with rfl | rfl
        · exact (hnone c (by rw [hc, Option.some_or])).elim
        · cases he : n.child? "expression" with
          | none => exact (hnone c (by rw [he, hc, Option.none_or])).elim
          | some e => exact (hnone e (by rw [he, Option.some_or])).elim
      · cases hdrafted
  · next hother =>
    refine throw fun _ => ⟨n.start, kind, fun he => hother (he ▸ rfl), ?_⟩
    rw [hkind]
    rfl

variable (hopens : ∀ kind, kind ≠ .each → kind ≠ .await → opens kind)
include hopens

theorem visitComponent (hkind : n.kind = "InlineComponent") :
    (Setting.below v depth opens fits).Plans current outer kind fun v => Scoping.visitComponent v n := by
  have hopen : Open fits n := hn.isOpen (hkind ▸ by decide)
  have hattributes : ∀ c ∈ n.children "attributes", n.HasChild c :=
    fun _ hc => Node.hasChild_of_children hc
  have hlets : ∀ c ∈ ((n.children "attributes").partition (·.is "Let")).1,
      c ∈ n.children "attributes" ∧ c.kind = "Let" := by
    simp [List.partition_eq_filter_filter, Node.is]
  have hothers : ∀ c ∈ ((n.children "attributes").partition (·.is "Let")).2,
      c ∈ n.children "attributes" := by
    simp +contextual [List.partition_eq_filter_filter]
  dsimp only [Setting.Plans]
  unfold Scoping.visitComponent
  cases n.child? "name"
  case' some => refine bind referRoot fun _ => ?_
  all_goals
    refine bind (visitField (open_below hd hopen) _) fun _ => inPlainScope hopens (by decide) fun _ => ?_
    refine bind (forM fun c hc => ?_) fun _ => bind (forM fun c hc => ?_) fun _ =>
      visitField (open_below hd hopen) _
    · obtain ⟨hc, hlet⟩ := hlets c hc
      have hlt := depth_lt_of_hasChild hd (hattributes c hc)
      exact visitLet (Nat.le_of_lt hlt) (hopen.child (hattributes c hc)) hlet
    · exact call (open_below hd hopen c (hattributes c (hothers c hc)) _)

theorem visitRule (heach : n.kind = "EachBlock" → opens .each)
    (hawait : n.kind = "AwaitBlock" → opens .await) :
    (Setting.below v depth opens fits).Plans current outer kind fun v => Scoping.visitRule v n := by
  have hloose : ∀ {name}, n.kind = name → name ∉ markupKinds → (Setting.below v depth opens fits).Loose n :=
    fun hname hkind => loose_below hd (hn.loose (hname ▸ hkind))
  have hopen : ∀ {name}, n.kind = name → name ≠ "AwaitBlock" → (Setting.below v depth opens fits).Open n :=
    fun hname hkind => open_below hd (hn.isOpen (hname ▸ hkind))
  dsimp only [Setting.Plans]
  unfold Scoping.visitRule
  split
  · exact refer
  · next hkind => exact throw fun hfits => absurd hkind (hn hfits).1.inner
  · next hkind => exact visitVariables (hloose hkind (by decide))
  · next hkind =>
    have hn := hloose hkind (by decide)
    exact read_bind (bind (declareOwn hn (by decide)) fun _ => visitFunction hopens hn)
  iterate 2 next hkind => exact visitFunction hopens (hloose hkind (by decide))
  · next hkind =>
    have hn := hloose hkind (by decide)
    exact read_bind (bind (declareOwn hn (by decide)) fun _ => visitClass hopens hn)
  · next hkind => exact visitClass hopens (hloose hkind (by decide))
  · next hkind => exact visitImport (hloose hkind (by decide))
  · next hkind => exact visitExport (hloose hkind (by decide))
  · next hkind => exact visitField (hopen hkind (by decide)) _
  iterate 2
    next hkind => exact inPlainScope hopens (by decide) fun _ => visitField (hopen hkind (by decide)) _
  iterate 3 next hkind => exact visitFor hopens (hloose hkind (by decide))
  · next hkind =>
    have hn := hloose hkind (by decide)
    refine inPlainScope hopens (by decide) fun _ => read_bind ?_
    exact bind (declareOwn hn (by decide)) fun _ => visitField hn.isOpen _
  · next hkind =>
    have hn := hopen hkind (by decide)
    exact bind (visitField hn _) fun _ => inPlainScope hopens (by decide) fun _ => visitField hn _
  · next hkind => exact visitLabeled (hopen hkind (by decide))
  iterate 6 exact pure
  · next hkind =>
    have hn := hloose hkind (by decide)
    split
    · next c hc =>
      exact bind (assignTo (hn c (Node.hasChild_of_child? hc))) fun _ => visitField hn.isOpen _
    · exact visitField hn.isOpen _
  · next hkind =>
    split
    · next c hc => exact assignTo (hloose hkind (by decide) c (Node.hasChild_of_child? hc))
    · exact pure
  · next hkind =>
    have hn := hopen hkind (by decide)
    refine bind (visitField hn _) fun _ => ?_
    split
    · exact visitField hn _
    · exact pure
  iterate 3
    next hkind =>
    have hn := hopen hkind (by decide)
    split
    · exact bind (visitField hn _) fun _ => visitField hn _
    · exact visitField hn _
  iterate 3 next hkind => exact visitField (hopen hkind (by decide)) _
  · next hkind =>
    have hn := hopen hkind (by decide)
    refine bind (visitField hn _) fun _ => bind (inPlainScope hopens (by decide) fun _ => ?_) fun _ => ?_
    · exact visitField hn _
    · exact visitField hn _
  · next hkind => exact inPlainScope hopens (by decide) fun _ => visitField (hopen hkind (by decide)) _
  · next hkind => exact visitEach hd hn hkind (heach hkind)
  · next hkind =>
    refine bind (forM fun c hc => call ⟨?_, hn.field (by decide) hc⟩) fun _ =>
      scope (hawait hkind) (by rintro (h | h) <;> cases h) fun _ => forM fun key _ => forM fun c hc => call ?_
    all_goals
      obtain ⟨v, hget, hholds⟩ := Node.holds_of_nodesAt hc
      have hchild := Node.hasChild_of_get? hget hholds
    · exact depth_lt_of_hasChild hd hchild
    · exact ⟨depth_lt_of_hasChild hd hchild, hn.section hchild⟩
  · next hkind => exact visitField (hopen hkind (by decide)) _
  iterate 2
    next hkind =>
    exact visitAwaitBranch hd hn (hkind ▸ by decide) (by decide) (hopens _ (by decide) (by decide))
  · next hkind => exact visitComponent hd hn hopens hkind
  · next hkind => exact visitLet hd hn hkind
  iterate 3 next hkind => exact visitNamedDirective (hopen hkind (by decide))
  · next hkind => exact visitBinding (hopen hkind (by decide))
  · exact forM fun _ _ => refer
  · split
    · exact pure
    · exact forM fun _ _ => visitField (open_below hd (hn.isOpen (by assumption))) _

end Markup

end Plan

end SvelteSyntax.Scoping
