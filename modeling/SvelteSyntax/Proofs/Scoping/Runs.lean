import SvelteSyntax.Proofs.Run
import SvelteSyntax.Proofs.Scoping.Growth

namespace SvelteSyntax.Scoping

open Run

structure Within (current : ScopeId) (outer : List ScopeId) (kind : ScopeKind) (g : Graph) : Prop where
  built : Built (current :: outer) g
  kind : g.kindAt? current = some kind

variable {current : ScopeId} {b b' : Building} {α β : Type}

theorem Within.lt {outer : List ScopeId} {kind : ScopeKind} {g : Graph}
    (h : Within current outer kind g) {x} (hx : x ∈ current :: outer) : x < g.scopes.length := by
  obtain ⟨s, hs⟩ := h.built.nested.1.exists_scope hx
  exact Graph.scopeAt?_lt hs

theorem kindAt?_pushScope (g : Graph) (kind : ScopeKind) {parent : Option ScopeId}
    (hparent : parent ≠ some g.scopes.length) (blockKind : String) (blockStart : Nat) :
    (g.pushScope kind parent blockKind blockStart).kindAt? g.scopes.length = some kind := by
  rw [Graph.kindAt?, Graph.scopeAt?_pushScope g kind hparent, if_pos rfl]
  rfl

section Bracket

variable {α : Type} {kind : ScopeKind} {parent : Option ScopeId} {block : Node}
  {body : ScopeId → Build α} {b : Building}

/-- The state in which the walk inside a new scope begins. -/
def Building.opened (b : Building) (kind : ScopeKind) (parent : Option ScopeId) (block : Node) :
    Building :=
  { b with graph := b.graph.pushScope kind parent block.kind block.start }

theorem bracket_eq_ok {a : α} :
    bracket kind parent block body b = .ok (a, b') ↔
      ∃ b₁, body b.graph.scopes.length (b.opened kind parent block) = .ok (a, b₁) ∧
        closeScope b.graph.scopes.length b₁ = .ok ((), b') := by
  change (body b.graph.scopes.length (b.opened kind parent block) >>= fun p =>
    closeScope b.graph.scopes.length p.2 >>= fun q => .ok (p.1, q.2)) = _ ↔ _
  constructor
  · intro h
    obtain ⟨⟨a, b₁⟩, hbody, h⟩ := bind_eq_ok.mp h
    obtain ⟨⟨u, b₂⟩, hclose, h⟩ := bind_eq_ok.mp h
    cases h
    exact ⟨b₁, hbody, hclose⟩
  · rintro ⟨b₁, hbody, hclose⟩
    exact bind_eq_ok.mpr ⟨_, hbody, bind_eq_ok.mpr ⟨_, hclose, rfl⟩⟩

theorem error_of_bracket {f} (h : bracket kind parent block body b = .error f) :
    body b.graph.scopes.length (b.opened kind parent block) = .error f := by
  change (body b.graph.scopes.length (b.opened kind parent block) >>= fun p =>
    closeScope b.graph.scopes.length p.2 >>= fun q => .ok (p.1, q.2)) = _ at h
  rcases bind_eq_error.mp h with h | ⟨p, -, hp⟩
  · exact h
  · cases hp

end Bracket

theorem walk_bind_eq_ok {w : Walk α} {f : α → Walk β} {c : β} : (w >>= f) current b = .ok (c, b') ↔
      ∃ a b₁, w current b = .ok (a, b₁) ∧ f a current b₁ = .ok (c, b') :=
  run_bind_eq_ok (x := w current) (f := fun a => f a current)

theorem walk_bind_eq_error {w : Walk α} {f : α → Walk β} {e} : (w >>= f) current b = .error e ↔
      w current b = .error e ∨ ∃ a b₁, w current b = .ok (a, b₁) ∧ f a current b₁ = .error e := by
  change (w current b >>= fun p => f p.1 current p.2) = _ ↔ _
  rw [bind_eq_error, Prod.exists]

theorem walk_bind_of_ok {w : Walk α} {f : α → Walk β} {a : α} (h : w current b = .ok (a, b')) :
    (w >>= f) current b = f a current b' := by
  change (w current b >>= fun p => f p.1 current p.2) = _
  rw [h]
  rfl

/-- A change that a walk in a scope of a kind makes by itself. -/
inductive Step (current : ScopeId) (outer : List ScopeId) (kind : ScopeKind) (b : Building) :
    Building → Prop
  | stay : Step current outer kind b b
  | declare {scope d} (name : String) (hscope : scope ∈ current :: outer)
    (hway : d.kind ≠ .reactive) (hlet : d.IsLet → scope = current ∧ kind = .component) :
    Step current outer kind b { b with graph := (b.graph.declare scope name d).2 }
  | refer (name : String) (start stop : Nat) (access : Access) (init : Bool) :
    Step current outer kind b
      { b with graph := b.graph.addReference current name start stop access init }
  | queue (name : String) (start stop : Nat) :
    Step current outer kind b { b with reactive := b.reactive ++ [⟨current, name, start, stop⟩] }

/-- What may be done when a scope of a kind has just been closed. -/
inductive Finish (id : ScopeId) (b : Building) : ScopeKind → Building → Prop
  | stay (kind : ScopeKind) : Finish id b kind b
  | mark (context index : Node) :
    Finish id b .each { b with graph := markIndex id context index b.graph }

/-- A walk in a scope of a kind and in those around it leads from one state to another. -/
inductive Runs : ScopeId → List ScopeId → ScopeKind → Building → Building → Prop
  | step {current outer kind b b'}
    (h : Step current outer kind b b') : Runs current outer kind b b'
  | trans {current outer kind b b₁ b'}
    (h : Runs current outer kind b b₁) (h' : Runs current outer kind b₁ b') :
    Runs current outer kind b b'
  | inScope {current outer kind kind' block b ended closed b'} (hbranch : kind' = .awaitThen ∨ kind' = .awaitCatch → kind = .await)
    (h : Runs b.graph.scopes.length (current :: outer) kind' (b.opened kind' (some current) block) ended)
    (hclose : closeScope b.graph.scopes.length ended = .ok ((), closed))
    (hfinish : Finish b.graph.scopes.length closed kind' b') : Runs current outer kind b b'

section Steps

variable {current : ScopeId} {outer : List ScopeId} {kind kind' : ScopeKind} {b b' closed : Building}

theorem Step.grows (h : Step current outer kind b b') (hb : Within current outer kind b.graph) :
    Within current outer kind b'.graph ∧ Grows current b.graph b'.graph := by
  cases h with
  | stay => exact ⟨hb, .refl _⟩
  | declare name hscope _ hlet =>
    have halters : Alters (fun _ => False) b.graph (b.graph.declare _ name _).2 :=
      .declare hb.built hscope name _ fun h => by
        obtain ⟨rfl, rfl⟩ := hlet h
        exact hb.kind
    exact ⟨⟨hb.built.declare _ _ hscope, halters.kindAt? hb.kind⟩, .of_alters halters⟩
  | refer name start stop access init =>
    have hgrows := Grows.addReference b.graph current name start stop access init
    exact ⟨⟨hb.built.addReference .., hgrows.kindAt? hb.kind⟩, hgrows⟩
  | queue => exact ⟨hb, .refl _⟩

theorem Step.scopes_length (h : Step current outer kind b b') :
    b'.graph.scopes.length = b.graph.scopes.length := by
  cases h with
  | declare => exact length_eq_of_map (Graph.scopeAt?_declare _ _ _ _)
  | refer => exact List.length_modify ..
  | _ => rfl

theorem Within.opened (hb : Within current outer kind b.graph) (kind' : ScopeKind) (block : Node) :
    Within b.graph.scopes.length (current :: outer) kind' (b.opened kind' (some current) block).graph := by
  refine ⟨hb.built.pushScope .., kindAt?_pushScope _ _ (fun he => ?_) _ _⟩
  exact Nat.ne_of_lt (hb.lt (List.mem_cons_self ..)) (Option.some.inj he)

/-- The end of a scope changes what is in it only. -/
theorem Within.left (hb : Within current outer kind b.graph)
    (hclose : closeScope current b = .ok ((), closed)) (hfinish : Finish current closed kind b') :
    Built outer b'.graph ∧ Alters (· = current) b.graph b'.graph := by
  obtain ⟨hbuilt, halters⟩ := alters_closeScope hb.built hclose
  cases hfinish with
  | stay => exact ⟨hbuilt, halters⟩
  | mark context index =>
    obtain ⟨hbuilt', halters'⟩ := Alters.markIndex hbuilt (halters.kindAt? hb.kind) context index
    exact ⟨hbuilt', halters.trans halters'⟩

theorem Runs.grows (h : Runs current outer kind b b') (hb : Within current outer kind b.graph) :
    Within current outer kind b'.graph ∧ Grows current b.graph b'.graph := by
  induction h with
  | step h => exact h.grows hb
  | trans _ _ ih ih' =>
    obtain ⟨hb₁, hgrows⟩ := ih hb
    obtain ⟨hb', hgrows'⟩ := ih' hb₁
    exact ⟨hb', hgrows.trans hgrows'⟩
  | inScope hbranch _ hclose hfinish ih =>
    obtain ⟨hended, hinner⟩ := ih (hb.opened ..)
    obtain ⟨hbuilt, halters⟩ := hended.left hclose hfinish
    have hgrows : Grows _ _ _ := .pushScope (.pushScope hb.built (fun h => hbranch h ▸ hb.kind) ..)
      (hb.lt (List.mem_cons_self ..)) (hinner.trans (.of_alters halters))
    exact ⟨⟨hbuilt, hgrows.kindAt? hb.kind⟩, hgrows⟩

/-- A walk reads and marks variables of scopes that it opens itself only: others are not resolved before
their scopes are closed. -/
theorem Runs.used (h : Runs current outer kind b b') (hb : Within current outer kind b.graph) :
    UsedIn (b.graph.scopes.length ≤ ·) b.graph b'.graph := by
  induction h with
  | step h =>
    cases h with
    | declare => exact .of_declare
    | _ => exact .of_eq rfl
  | trans h h' ih ih' =>
    obtain ⟨hb₁, hgrows⟩ := h.grows hb
    exact (ih hb).trans (ih' hb₁) (h'.grows hb₁).2.toEvolves (fun _ => id)
      fun _ => Nat.le_trans hgrows.scopes_le
  | @inScope _ _ _ kind' block b _ _ _ _ h hclose hfinish ih =>
    have hopened := hb.opened kind' block
    obtain ⟨hended, hinner⟩ := h.grows hopened
    have halters := (hended.left hclose hfinish).2
    have hin : UsedIn (b.graph.scopes.length ≤ ·) b.graph _ :=
      UsedIn.trans (.of_eq (funext (Graph.variableAt?_pushScope _ _ _ _ _))) (ih hopened) hinner.toEvolves
        (fun _ => id) fun x hx => by
          rw [Building.opened, Grows.scopes_length_pushScope] at hx
          exact Nat.le_of_succ_le hx
    exact hin.trans halters.used halters.toEvolves (fun _ => id) fun _ he => Nat.le_of_eq he.symm

end Steps

/-- The analysis goes on from a state, with a scope and those around it open, and ends with a graph. -/
inductive Ends (g : Graph) : ScopeId → List ScopeId → Building → Prop
  | last {current kind b b'} (hb : Within current [] kind b.graph)
    (hclose : closeScope current b = .ok ((), b')) (hg : b'.graph = g) : Ends g current [] b
  | run {current outer kind b b'}
    (hb : Within current outer kind b.graph) (h : Runs current outer kind b b')
    (h' : Ends g current outer b') : Ends g current outer b
  | leave {current next outer kind b closed b'}
    (hb : Within current (next :: outer) kind b.graph)
    (hclose : closeScope current b = .ok ((), closed)) (hfinish : Finish current closed kind b')
    (h : Ends g next outer b') : Ends g current (next :: outer) b

section Ends

variable {current : ScopeId} {outer : List ScopeId} {b : Building} {g : Graph}

theorem Ends.built (h : Ends g current outer b) : Built [] g := by
  induction h with
  | last hb hclose hg => exact hg ▸ (alters_closeScope hb.built hclose).1
  | run _ _ _ ih => exact ih
  | leave _ _ _ _ ih => exact ih

theorem Ends.evolves (h : Ends g current outer b) : Evolves b.graph g := by
  induction h with
  | last hb hclose hg => exact hg ▸ (alters_closeScope hb.built hclose).2.toEvolves
  | run hb h _ ih => exact (h.grows hb).2.toEvolves.trans ih
  | leave hb hclose hfinish _ ih => exact (hb.left hclose hfinish).2.toEvolves.trans ih

theorem Ends.used (h : Ends g current outer b) :
    UsedIn (fun x => x ∈ current :: outer ∨ b.graph.scopes.length ≤ x) b.graph g := by
  induction h with
  | last hb hclose hg =>
    intro v w' hw' hused
    subst hg
    refine ((alters_closeScope hb.built hclose).2.used v w' hw' hused).imp_right fun he => .inl ?_
    exact he ▸ List.mem_cons_self ..
  | run hb h h' ih =>
    refine (h.used hb).trans ih h'.evolves (fun _ => .inr) fun x => ?_
    exact Or.imp_right (Nat.le_trans (h.grows hb).2.scopes_le)
  | leave hb hclose hfinish h' ih =>
    have halters := (hb.left hclose hfinish).2
    refine halters.used.trans ih h'.evolves (fun _ he => .inl (he ▸ List.mem_cons_self ..)) fun x => ?_
    rw [halters.scopes_length]
    exact Or.imp_left (List.mem_cons_of_mem _)

end Ends

end SvelteSyntax.Scoping
