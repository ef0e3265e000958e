import SvelteSyntax.Proofs.Program.Owners
import SvelteSyntax.Proofs.Program.Walk

namespace SvelteSyntax

open Text Run

/-- The value of the token is the text at its place. -/
def Token.Faithful (source : List Char) (t : Token) : Prop :=
  slice? t.start t.stop source = some t.value.toList

def Streams.Faithful (source : List Char) (s : Streams) : Prop :=
  ∀ t ∈ s.tokens, t.Faithful source

variable {source : List Char} {key : String}

theorem Token.Faithful.start_le_stop {t : Token} (h : t.Faithful source) :
    t.start ≤ t.stop := by
  by_contra hlt
  rw [Token.Faithful, slice?, if_neg hlt] at h
  cases h

theorem Streams.Faithful.append {a b : Streams} (ha : a.Faithful source) (hb : b.Faithful source) :
    (a ++ b).Faithful source := by
  intro t ht
  rcases List.mem_append.mp ht with ht | ht
  · exact ha t ht
  · exact hb t ht

variable {depth : Nat} {parent : Option Parent}

namespace Program

open Markup

def nameWithin (ctx : NameContext) : Nat → Option Parent → Node → Collect Node
  | 0, _, n => return n
  | depth + 1, parent, n => do
    mapChildrenM (fun p c => nameWithin ctx depth (some p) c) (← nameNode ctx parent n)

theorem within_namePass (ctx : NameContext) (depth : Nat) (parent : Option Parent) (n : Node) :
    (namePass ctx).within 0 depth parent n = nameWithin ctx depth parent n := by
  rw [Pass.within]
  induction depth generalizing parent n with
  | zero => rfl
  | succ depth ih =>
    have hchildren : (fun p c => (namePass ctx).withinFrom refuseNested depth (some p) c) =
        fun p c => nameWithin ctx depth (some p) c := by
      funext p c
      exact ih _ c
    rw [Pass.withinFrom, hchildren, nameWithin]
    simp [namePass]

theorem nameTree_eq (ctx : NameContext) (n : Node) :
    nameTree ctx n = nameWithin ctx (n.depth * (n.depth + 1)) none n := by
  rw [nameTree, Pass.traverse_eq_within, within_namePass]

/-- The faults of a walk that does not hold together. -/
inductive WalkFault : Error → Prop
  | duplicateTraversal (kind : String) (offset : Nat) :
    WalkFault (.inconsistent (.duplicateTraversal kind offset))
  | conflictingReplacement (kind : String) (offset : Nat) :
    WalkFault (.inconsistent (.conflictingReplacement kind offset))
  | danglingAncestry (depth : Nat) : WalkFault (.inconsistent (.danglingAncestry depth))

theorem not_walkFault_at (index : LineIndex) (offset : Nat) (message : String) (origin : Origin) :
    ¬WalkFault (.at index offset message origin) := by
  unfold Error.at
  split
  · rintro ⟨⟩
  · rename_i f hf
    unfold SyntaxError.at locate at hf
    split at hf
    · cases hf
    · cases hf
      rintro ⟨⟩

/-- The step never ends in a fault of the walk, and what it gives is as wanted. Where all that is
published fits, its tokens are the text at their places. -/
structure Publishes {α : Type} (source : List Char) (fits : Prop) (x : Collect α) (Q : α → Prop) :
    Prop where
  avoids : Avoids WalkFault x
  yields : ∀ a, Yields x a → Q a
  keeps : fits → Keeps (Streams.Faithful source) x

namespace Publishes

variable {α β : Type} {source : List Char} {fits : Prop} {P : α → Prop} {Q : β → Prop}

theorem pure {a : α} (h : P a) : Publishes source fits (Pure.pure a) P where
  avoids := .pure
  yields _ hb := hb.pure ▸ h
  keeps _ := .pure fun _ hs => hs

theorem bind {x : Collect α} {f : α → Collect β} (hx : Publishes source fits x P)
    (hf : ∀ a, P a → Publishes source fits (f a) Q) : Publishes source fits (x >>= f) Q where
  avoids := .bind hx.avoids fun a ha => (hf a (hx.yields a ha)).avoids
  yields b hb := by
    obtain ⟨a, ha, hb⟩ := hb.bind
    exact (hf a (hx.yields a ha)).yields b hb
  keeps hfits s b s' hs hr := by
    obtain ⟨a, s₁, h₁, h₂⟩ := run_bind_eq_ok.mp hr
    exact (hf a (hx.yields a ⟨s, s₁, h₁⟩)).keeps hfits s₁ b s' (hx.keeps hfits s a s₁ hs h₁) h₂

theorem throw {e} (h : ¬WalkFault e) :
    Publishes source fits (MonadExcept.throw e : Collect α) P where
  avoids := .throw h
  yields _ ha := ha.throw.elim
  keeps _ := .throw

theorem lift {x : Except Error α} (h : Spares WalkFault x) :
    Publishes source fits (monadLift x : Collect α) (x = .ok ·) where
  avoids := .lift h
  yields _ ha := ha.lift
  keeps _ _ _ _ hs hr := (run_monadLift_eq_ok.mp hr).2 ▸ hs

theorem modify {f} (h : fits → ∀ s : Streams, s.Faithful source → (f s).Faithful source) :
    Publishes source fits (modify f : Collect Unit) fun _ => True where
  avoids := .modify
  yields _ _ := trivial
  keeps hfits := .modify (h hfits)

theorem imp {P' : α → Prop} {x : Collect α} (hx : Publishes source fits x P) (h : ∀ a, P a → P' a) :
    Publishes source fits x P' :=
  ⟨hx.avoids, fun a ha => h a (hx.yields a ha), hx.keeps⟩

theorem forM {xs : List α} {f : α → Collect PUnit}
    (h : ∀ a ∈ xs, Publishes source fits (f a) fun _ => True) :
    Publishes source fits (xs.forM f) fun _ => True := by
  induction xs with
  | nil => exact .pure trivial
  | cons a xs ih =>
    obtain ⟨ha, hxs⟩ := List.forall_mem_cons.mp h
    exact .bind ha fun _ _ => ih hxs

theorem token {kind value} {start stop : Nat}
    (h : fits → slice? start stop source = some value.toList) :
    Publishes source fits (pushToken kind value start stop) fun _ => True := by
  refine .modify fun hfits s hs t ht => ?_
  rcases List.mem_append.mp ht with ht | ht
  · exact hs t ht
  · rw [List.mem_singleton.mp ht]
    exact h hfits

end Publishes

section Naming

variable {ctx : NameContext} {n n' : Node} {field : String} {start : Nat} {role : NameRole}

abbrev NameContext.Publishes {α : Type} (ctx : NameContext) (x : Collect α) (Q : α → Prop) : Prop :=
  Program.Publishes ctx.source (∀ l ∈ ctx.lexemes, l.In ctx.source) x Q

theorem publishes_find (start : Nat) (role : NameRole) (expected : String) :
    ctx.Publishes (ctx.find start role expected) fun l =>
      (∀ l ∈ ctx.lexemes, l.In ctx.source) →
        slice? l.offset l.stop ctx.source = some expected.toList := by
  have hspares : Spares WalkFault (findName ctx.index ctx.lexemes start role expected) := by
    unfold findName
    split
    · exact .error nofun
    · split
      · exact .error nofun
      · split
        · split
          · exact .ok
          · exact .error nofun
        · exact .error (not_walkFault_at _ _ _ _)
  refine ⟨.lift hspares, fun l hl hctx => ?_, (Publishes.lift hspares).keeps⟩
  obtain ⟨rfl, before, opening, inner, after, hlexemes, -⟩ := findName_eq_ok hl.lift
  rw [(hctx l (by simp [hlexemes])).slice?, String.toList_ofList]

/-- A name in a field becomes an identifier. Anything else stays. -/
inductive Expanded (field : String) (n : Node) : Node → Prop
  | name (name : String) (start stop : Nat) :
    Expanded field n (n.set field (.node (identifierNode name start stop)))
  | same (h : ∀ name, n.get? field ≠ some (.string name)) : Expanded field n n

theorem publishes_expandName : ctx.Publishes (expandName ctx n field start role) (Expanded field n) := by
  unfold expandName
  split
  · exact .bind (publishes_find ..) fun l hl => .bind (.token hl) fun _ _ => .pure (.name ..)
  · exact .throw nofun
  · rename_i hnone _
    exact .pure (.same hnone)

/-- What a block binds goes into its section, if that is there. -/
inductive BindingMoved (binding field : String) (n : Node) : Node → Prop
  | dropped (h : (n.erase binding).child? field = none) : BindingMoved binding field n (n.erase binding)
  | moved {inner : Node} {w : Value} (h : (n.erase binding).child? field = some inner)
      (hw : (∃ name start stop, w = .node (identifierNode name start stop)) ∨
        w = (n.get? binding).getD .null ∧ ∀ name, w ≠ .string name) :
    BindingMoved binding field n ((n.erase binding).set field (.node (inner.set binding w)))

theorem publishes_moveBinding {binding : String} {start : Node → Nat} :
    ctx.Publishes (moveBinding ctx n binding field start role) (BindingMoved binding field n) := by
  unfold moveBinding
  dsimp only
  split
  · rename_i hnone
    exact .pure (.dropped hnone)
  · rename_i inner hinner
    split
    · rename_i name hname
      refine .bind publishes_expandName fun inner' hinner' => .pure ?_
      cases hinner' with
      | name name start stop =>
        simp only [Node.set, Fields.set_set]
        exact .moved hinner (.inl ⟨name, start, stop, rfl⟩)
      | same hnone => exact absurd ((Node.get?_set_self ..).trans (congrArg some hname)) (hnone name)
    · rename_i hnone
      exact .pure (.moved hinner (.inr ⟨rfl, fun name hname => hnone name hname⟩))

inductive Named (n : Node) : Node → Prop
  | other (hkind : n.kind ∉ ["EachBlock", "AwaitBlock", "Let"]) : Named n n
  | component {n' : Node} (hkind : n.kind = "InlineComponent") (h : Expanded "name" n n') : Named n n'
  | directive {n' : Node} (hkind : n.kind ∈ ["Action", "Animation", "Let", "Transition"])
      (h : Expanded "name" n n') : Named n n'
  /-- The expression declares the names. -/
  | target (hkind : n.kind = "Let") (h : (n.get? "expression").all Value.isNull = false) : Named n n
  | value {e : Node} {stop : Nat} (hkind : n.kind ∈ ["Binding", "Class", "EventHandler"])
      (he : n.child? "expression" = some e) : Named n (n.set "expression" (.node { e with stop }))
  | each {m n' : Node} (hkind : n.kind = "EachBlock") (hm : Expanded "index" n m)
      (h : Expanded "key" m n') : Named n n'
  | await {m n' : Node} (hkind : n.kind = "AwaitBlock")
      (hm : BindingMoved "value" "then" (["pending", "then", "catch"].foldl dropSkipped n) m)
      (h : BindingMoved "error" "catch" m n') : Named n n'

theorem publishes_publishLexemes : ctx.Publishes (publishLexemes ctx) fun _ => True := by
  refine .forM fun l hl => ?_
  split
  · refine .token fun hctx => ?_
    rw [(hctx l hl).slice?, String.toList_ofList]
  · exact .pure trivial

/-- A place that is none in the source has no text, so no token is made for it. -/
theorem publishes_publishText (parent : Option Parent) :
    ctx.Publishes (publishText ctx parent n) fun _ => True := by
  unfold publishText
  split
  · exact .pure trivial
  · dsimp only
    split
    · exact .pure trivial
    · rename_i hblank
      refine .token fun _ => ?_
      rw [String.toList_ofList, Node.text]
      cases hslice : slice? n.start n.stop ctx.source with
      | none => simp [Node.text, hslice] at hblank
      | some text => rfl

theorem publishes_nameDirective (hkind : n.kind ∈ ["Action", "Animation", "Let", "Transition"]) :
    ctx.Publishes (nameDirective ctx n) (Named n) := by
  unfold nameDirective
  split
  · rename_i hlet
    rw [Bool.and_eq_true, Bool.not_eq_true', Node.is, beq_iff_eq] at hlet
    exact .bind (publishes_find ..) fun _ _ => .pure (.target hlet.1 hlet.2)
  · exact publishes_expandName.imp fun _ => .directive hkind

theorem publishes_valueDirective (hkind : n.kind ∈ ["Binding", "Class", "EventHandler"]) :
    ctx.Publishes (valueDirective ctx n) (Named n) := by
  have hother : ∀ kind ∈ ["Binding", "Class", "EventHandler"],
      kind ∉ ["EachBlock", "AwaitBlock", "Let"] := by decide
  refine .bind (publishes_find ..) fun l hl => ?_
  split
  · rename_i e he
    split
    · exact .pure (.value hkind he)
    · exact .bind (.token hl) fun _ _ => .pure (.other (hother _ hkind))
  · exact .bind (.token hl) fun _ _ => .pure (.other (hother _ hkind))

theorem publishes_nameEach (hkind : n.kind = "EachBlock") : ctx.Publishes (nameEach ctx n) (Named n) := by
  refine .bind publishes_expandName fun m hm => ?_
  split
  · exact publishes_expandName.imp fun _ => .each hkind hm
  · rename_i hnone
    exact .pure (.each hkind hm (.same hnone))

theorem publishes_nameNode (parent : Option Parent) (n : Node) :
    ctx.Publishes (nameNode ctx parent n) (Named n) := by
  unfold nameNode
  split
  case h_1 h => exact .bind publishes_publishLexemes fun _ _ => .pure (.other (by simp [h]))
  case h_2 h => exact .bind (publishes_publishText _) fun _ _ => .pure (.other (by simp [h]))
  case h_3 h => exact .bind (.modify fun _ _ hs => hs) fun _ _ => .pure (.other (by simp [h]))
  case h_4 h =>
    split
    · exact publishes_expandName.imp fun _ => .component h
    · exact .pure (.other (by simp [h]))
  case h_5 h | h_6 h | h_7 h | h_8 h => exact publishes_nameDirective (by simp [h])
  case h_9 h | h_10 h | h_11 h => exact publishes_valueDirective (by simp [h])
  case h_12 h => exact publishes_nameEach h
  case h_13 h =>
    exact .bind publishes_moveBinding fun _ hm => publishes_moveBinding.imp fun _ => .await h hm
  case h_14 hlet _ _ _ _ heach hawait => exact .pure (.other (by simpa using ⟨heach, hawait, hlet⟩))

theorem keeps_nameWithin (hctx : ∀ l ∈ ctx.lexemes, l.In ctx.source) (depth : Nat)
    (parent : Option Parent) (n : Node) :
    Keeps (Streams.Faithful ctx.source) (nameWithin ctx depth parent n) := by
  induction depth generalizing parent n with
  | zero => exact .pure fun _ hs => hs
  | succ depth ih =>
    exact .bind ((publishes_nameNode parent n).keeps hctx) fun n => keeps_mapChildrenM (fun p c => ih _ c) n

theorem keeps_nameTree (hctx : ∀ l ∈ ctx.lexemes, l.In ctx.source) (n : Node) :
    Keeps (Streams.Faithful ctx.source) (nameTree ctx n) := by
  rw [nameTree_eq]
  exact keeps_nameWithin hctx _ none n

end Naming

section Places

variable {ctx : NameContext} {n n' : Node} {binding field : String}

theorem Expanded.samePlace (h : Expanded field n n') : SamePlace n n' := by
  cases h with
  | name => exact .set ..
  | same => rfl

theorem BindingMoved.samePlace (h : BindingMoved binding field n n') : SamePlace n n' := by
  cases h with
  | dropped => exact .erase ..
  | moved => exact (SamePlace.erase n binding).trans (.set ..)

theorem samePlace_dropSkipped (n : Node) (field : String) : SamePlace n (dropSkipped n field) := by
  unfold dropSkipped
  split
  · exact .erase ..
  · rfl

theorem Named.samePlace (h : Named n n') : SamePlace n n' := by
  cases h with
  | other | target => rfl
  | component _ h | directive _ h => exact h.samePlace
  | value => exact .set ..
  | each _ hm h => exact hm.samePlace.trans h.samePlace
  | await _ hm h =>
    refine .trans ?_ (hm.samePlace.trans h.samePlace)
    exact ((samePlace_dropSkipped n _).trans (samePlace_dropSkipped ..)).trans
      (samePlace_dropSkipped ..)

theorem samePlace_nameWithin (h : Yields (nameWithin ctx depth parent n) n') : SamePlace n n' := by
  cases depth with
  | zero => rw [Yields.pure h]
  | succ depth =>
    obtain ⟨n₁, h₁, h⟩ := Yields.bind h
    exact ((publishes_nameNode parent n).yields n₁ h₁).samePlace.trans (samePlace_mapChildrenM h)

theorem nameWithin_of_plain
    (hkind : n.kind ∈ ["Fragment", "Script", "Program", "StyleElement", "ScriptElement"]) :
    nameWithin ctx (depth + 1) parent n =
      mapChildrenM (fun p c => nameWithin ctx depth (some p) c) n := by
  have hnode : nameNode ctx parent n = pure n := by
    unfold nameNode
    simp only [List.mem_cons, List.not_mem_nil, or_false] at hkind
    rcases hkind with h | h | h | h | h <;> rw [h] <;> rfl
  rw [nameWithin, hnode, pure_bind]

def listFields : List (String × String) := [("Fragment", "children"), ("Program", "body")]

theorem childKeys?_of_listFields {kind} (h : (kind, key) ∈ listFields) :
    childKeys? kind = some [key] := by
  simp only [listFields, List.mem_cons, List.not_mem_nil, or_false, Prod.mk.injEq] at h
  rcases h with ⟨rfl, rfl⟩ | ⟨rfl, rfl⟩ <;> decide

theorem keptList_nameWithin (hkey : (n.kind, key) ∈ listFields)
    (h : Yields (nameWithin ctx depth parent n) n') :
    KeptList key n n' := by
  cases depth with
  | zero =>
    rw [Yields.pure h]
    exact .refl n
  | succ depth =>
    have hkind : n.kind ∈ ["Fragment", "Script", "Program", "StyleElement", "ScriptElement"] := by
      simp only [listFields, List.mem_cons, List.not_mem_nil, or_false, Prod.mk.injEq] at hkey
      rcases hkey with ⟨h, -⟩ | ⟨h, -⟩ <;> simp [h]
    rw [nameWithin_of_plain hkind] at h
    exact keptList_mapChildrenM h (childKeys?_of_listFields hkey) fun c c' hc _ =>
      samePlace_nameWithin hc

end Places

end Program

end SvelteSyntax
