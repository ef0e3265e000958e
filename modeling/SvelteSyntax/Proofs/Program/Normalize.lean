import SvelteSyntax.Program.Normalize
import SvelteSyntax.Proofs.Program.Disjoint
import SvelteSyntax.Proofs.Program.Names

namespace SvelteSyntax.Program

open Text Run

variable {tokens ts : List Token} {depth : Nat} {comments cs : List Comment} {ctx : NormalizeContext}
  {html c program : Node} {key : String} {before : Output}

section Located

variable {index : LineIndex}

theorem forall₂_locatedTokens (h : locatedTokens index tokens = .ok ts) :
    ∃ sorted, sortDisjoint "token" tokens = .ok sorted ∧
      List.Forall₂ (fun t t' => t' = { t with loc := t'.loc }) sorted ts := by
  obtain ⟨sorted, hsorted, h⟩ := bind_eq_ok.mp h
  refine ⟨sorted, hsorted, (mapM_eq_ok h).imp fun t t' ht => ?_⟩
  obtain ⟨loc, -, ht⟩ := bind_eq_ok.mp ht
  cases ht
  rfl

theorem forall₂_locatedComments (h : locatedComments index comments = .ok cs) :
    ∃ sorted, sortDisjoint "comment" comments = .ok sorted ∧
      List.Forall₂ (fun c c' => c' = { c with loc := c'.loc }) sorted cs := by
  obtain ⟨sorted, hsorted, h⟩ := bind_eq_ok.mp h
  refine ⟨sorted, hsorted, (mapM_eq_ok h).imp fun c c' hc => ?_⟩
  obtain ⟨loc, -, hc⟩ := bind_eq_ok.mp hc
  cases hc
  rfl

theorem ordered_locatedTokens (h : locatedTokens index tokens = .ok ts) :
    Ordered ts := by
  obtain ⟨sorted, hsorted, hsame⟩ := forall₂_locatedTokens h
  refine (ordered_of_sortDisjoint hsorted).congr (hsame.imp fun t t' ht => ?_)
  rw [ht]
  exact ⟨rfl, rfl⟩

theorem ordered_locatedComments (h : locatedComments index comments = .ok cs) : Ordered cs := by
  obtain ⟨sorted, hsorted, hsame⟩ := forall₂_locatedComments h
  refine (ordered_of_sortDisjoint hsorted).congr (hsame.imp fun c c' hc => ?_)
  rw [hc]
  exact ⟨rfl, rfl⟩

theorem faithful_locatedTokens {source : List Char} (h : locatedTokens index tokens = .ok ts)
    (htokens : ∀ t ∈ tokens, t.Faithful source) :
    ∀ t ∈ ts, t.Faithful source := by
  obtain ⟨sorted, hsorted, hsame⟩ := forall₂_locatedTokens h
  have hperm := perm_of_sortDisjoint hsorted
  have hfaithful : ∀ t ∈ sorted, t.Faithful source := fun t ht => htokens t (hperm.mem_iff.mp ht)
  clear hperm hsorted h
  induction hsame with
  | nil => simp
  | @cons t t' _ _ ht _ ih =>
    rw [List.forall_mem_cons] at hfaithful ⊢
    refine ⟨?_, ih hfaithful.2⟩
    rw [ht]
    exact hfaithful.1

end Located

/-- The markup as a program that does not have its scripts yet. -/
def markupProgram (ctx : NormalizeContext) (html : Node) : Node :=
  (({ html with kind := "Program" } : Node).rename "children" "body").set "sourceType"
    (.string ctx.options.sourceType.name)

theorem hasChild_markupProgram (h : (markupProgram ctx html).HasChild c) : html.HasChild c := by
  rcases Fields.hold_set h with hc | hc
  · cases hc
  · exact Fields.hold_rename hc

theorem hasChild_withBody {body}
    (h : (((markupProgram ctx html).erase "body").set "body" (.nodes body)).HasChild c) :
    html.HasChild c ∨
      c ∈ (((markupProgram ctx html).erase "body").set "body" (.nodes body)).children "body" := by
  rcases Fields.hold_set h with hc | hc
  · rw [Value.holds_nodes] at hc
    rw [Node.children, Node.get?_set_self]
    exact .inr hc
  · exact .inl (hasChild_markupProgram (Fields.hold_erase hc))

def Located (index : LineIndex) (n : Node) : Prop :=
  ∃ loc, n.loc = some loc ∧ locateSpan index n.start n.stop = .ok loc

/-- What the root of a template becomes. -/
structure Finished (ctx : NormalizeContext) (n : Node) (before after : Output) (program : Node) :
    Prop where
  tokens : locatedTokens ctx.index before.streams.tokens = .ok after.streams.tokens
  comments : locatedComments ctx.index before.streams.comments = .ok after.streams.comments
  css : after.css = n.child? "css"
  instanceScript : after.instanceScript = n.child? "instance"
  moduleScript : after.moduleScript = n.child? "module"
  start : program.start = (after.streams.tokens.head?.map (·.start)).getD 0
  stop : program.stop = (after.streams.tokens.getLast?.map (·.stop)).getD ctx.index.size
  body : ∃ html body, n.child? "html" = some html ∧
    sortDisjoint "statement" ((markupProgram ctx html).children "body" ++
      ((n.child? "instance").toList ++ (n.child? "module").toList).flatMap statementsOf) = .ok body ∧
    program.get? "body" = some (.nodes body)
  kind : program.kind = "Program"
  /-- Nothing but the markup and the body is in the program. -/
  children : ∃ html, n.child? "html" = some html ∧ program.placeholder = html.placeholder ∧
    ∀ c, program.HasChild c → html.HasChild c ∨ c ∈ program.children "body"
  located : Located ctx.index program
  fields : ∃ html, n.child? "html" = some html ∧
    ∀ key ≠ "body", program.get? key = (markupProgram ctx html).get? key

theorem finishRoot_finished (ctx : NormalizeContext) (n : Node) (before : Output) :
    Ensures (· = before) (finishRoot ctx n) fun program after =>
      Finished ctx n before after program := by
  unfold finishRoot
  cases hhtml : n.child? "html" with
  | none => exact .throw
  | some html =>
    refine .lift_bind fun body hbody => ?_
    refine .bind (Q := fun s s' => s = before ∧ s' = before) (.get fun s hs => ⟨hs, hs⟩) fun s => ?_
    refine .lift_bind fun tokens htokens => .lift_bind fun comments hcomments => ?_
    refine .lift_bind fun loc hloc => .bind (Q := fun _ after => Finished ctx n before after _)
      (.set fun s' hs => ?_) fun _ => .pure fun _ hs => hs
    obtain ⟨rfl, -⟩ := hs
    exact
      { tokens := mapError_eq_ok.mp htokens
        comments := mapError_eq_ok.mp hcomments
        css := rfl
        instanceScript := rfl
        moduleScript := rfl
        start := rfl
        stop := rfl
        body := ⟨html, body, hhtml, mapError_eq_ok.mp hbody, Node.get?_set_self ..⟩
        kind := rfl
        children := ⟨html, hhtml, rfl, fun c hc => hasChild_withBody hc⟩
        located := ⟨loc, rfl, mapError_eq_ok.mp hloc⟩
        fields := ⟨html, hhtml, fun key hkey => by
          change (((markupProgram ctx html).erase "body").set "body" (.nodes body)).get? key = _
          rw [Node.get?_set_of_ne hkey]
          exact Fields.get?_erase_of_ne hkey _⟩ }

/-- Gives the nodes of a tree their final form. -/
def normalizeWithin (ctx : NormalizeContext) : Nat → Node → Normalize Node
  | 0, n => return n
  | depth + 1, n => do
    leaveNode ctx (← mapChildrenM (fun _ c => normalizeWithin ctx depth c) (← enterNode n))

theorem within_normalizePass (ctx : NormalizeContext) (depth : Nat) (parent : Option Parent)
    (n : Node) : (normalizePass ctx).within 0 depth parent n = normalizeWithin ctx depth n := by
  rw [Pass.within]
  induction depth generalizing parent n with
  | zero => rfl
  | succ depth ih =>
    have hchildren : (fun p c => (normalizePass ctx).withinFrom refuseNested depth (some p) c) =
        fun _ c => normalizeWithin ctx depth c := by
      funext p c
      exact ih _ c
    rw [Pass.withinFrom, hchildren, normalizeWithin]
    simp [normalizePass]

section Keeps

variable {ctx : NormalizeContext} {source : List Char}

def Output.Faithful (source : List Char) (out : Output) : Prop := out.streams.Faithful source

theorem keeps_finishRoot (n : Node) : Keeps (Output.Faithful source) (finishRoot ctx n) := by
  intro s program s' hs hr
  have hfinished := finishRoot_finished ctx n s s program s' rfl hr
  exact faithful_locatedTokens hfinished.tokens hs

theorem keeps_enterNode (n : Node) : Keeps (Output.Faithful source) (enterNode n) := by
  unfold enterNode
  split
  · exact .bind .throw fun _ => .pure fun _ hs => hs
  · exact .pure fun _ hs => hs

theorem keeps_leaveNode (n : Node) : Keeps (Output.Faithful source) (leaveNode ctx n) := by
  unfold leaveNode
  split
  · exact keeps_finishRoot n
  · exact .lift_bind fun _ _ => .pure fun _ hs => hs

theorem keeps_normalizeWithin (depth : Nat) (n : Node) :
    Keeps (Output.Faithful source) (normalizeWithin ctx depth n) := by
  induction depth generalizing n with
  | zero => exact .pure fun _ hs => hs
  | succ depth ih =>
    exact .bind (keeps_enterNode n) fun n =>
      .bind (keeps_mapChildrenM (fun _ c => ih c) n) fun n => keeps_leaveNode n

end Keeps

section Places

variable {ctx : NormalizeContext} {n n' : Node}

theorem of_enterNode (h : Yields (enterNode n) n') :
    n' = dropShorthand (relabelSections { n with visited := true }) := by
  unfold enterNode at h
  split at h
  · obtain ⟨_, h, -⟩ := h.bind
    exact h.throw.elim
  · exact h.pure

theorem samePlace_dropShorthand (n : Node) : SamePlace n (dropShorthand n) := by
  unfold dropShorthand
  split
  · rfl
  · split
    · split
      · exact .erase ..
      · rfl
    · rfl

theorem samePlace_restoreShorthand (n : Node) : SamePlace n (restoreShorthand n) := by
  unfold restoreShorthand
  split
  · rfl
  · split
    · rfl
    · split
      · exact .set ..
      · rfl

theorem relabelSections_of_ne (h : n.kind ≠ "TemplateRoot") : relabelSections n = n := by
  simp [relabelSections, Node.is, h]

theorem of_leaveNode (hkind : n.kind ≠ "TemplateRoot") (h : Yields (leaveNode ctx n) n') :
    ∃ loc, locateSpan ctx.index n.start n.stop = .ok loc ∧
      n' = { restoreShorthand n with loc := some loc } := by
  rw [leaveNode, if_neg (by simpa [Node.is] using hkind)] at h
  obtain ⟨loc, ⟨s, s', hloc⟩, h⟩ := h.bind
  exact ⟨loc, mapError_eq_ok.mp (run_monadLift_eq_ok.mp hloc).1, h.pure⟩

theorem of_normalizeWithin (hkind : n.kind ≠ "TemplateRoot")
    (h : Yields (normalizeWithin ctx (depth + 1) n) n') :
    ∃ n₁ loc, Yields (mapChildrenM (fun _ c => normalizeWithin ctx depth c)
        (dropShorthand { n with visited := true })) n₁ ∧
      SamePlace n n₁ ∧ n' = { restoreShorthand n₁ with loc := some loc } := by
  obtain ⟨n₀, henter, h⟩ := Yields.bind h
  obtain ⟨n₁, hmap, hleave⟩ := h.bind
  rw [of_enterNode henter, relabelSections_of_ne (n := { n with visited := true }) hkind] at hmap
  have hplace : SamePlace n n₁ :=
    .trans (b := { n with visited := true }) ⟨rfl, rfl, rfl, rfl⟩
      ((samePlace_dropShorthand _).trans (samePlace_mapChildrenM hmap))
  obtain ⟨loc, -, rfl⟩ := of_leaveNode (hplace.kind ▸ hkind) hleave
  exact ⟨n₁, loc, hmap, hplace, rfl⟩

theorem samePlace_normalizeWithin (hkind : n.kind ≠ "TemplateRoot")
    (h : Yields (normalizeWithin ctx depth n) n') : SamePlace n n' := by
  cases depth with
  | zero => rw [Yields.pure h]
  | succ depth =>
    obtain ⟨n₁, loc, -, hplace, rfl⟩ := of_normalizeWithin hkind h
    have hrestore := hplace.trans (samePlace_restoreShorthand n₁)
    exact ⟨hrestore.kind, hrestore.start, hrestore.stop, hrestore.placeholder⟩

theorem of_normalizeWithin_of_plain (hkind : n.kind ≠ "TemplateRoot")
    (hplain : shorthandFields? n.kind = none) (h : Yields (normalizeWithin ctx (depth + 1) n) n') :
    ∃ n₁, Yields (mapChildrenM (fun _ c => normalizeWithin ctx depth c)
        { n with visited := true }) n₁ ∧ SamePlace n₁ n' ∧ n'.fields = n₁.fields := by
  obtain ⟨n₁, loc, hmap, hplace, rfl⟩ := of_normalizeWithin hkind h
  have hdrop : dropShorthand { n with visited := true } = { n with visited := true } := by
    simp [dropShorthand, hplain]
  have hrestore : restoreShorthand n₁ = n₁ := by
    simp [restoreShorthand, hplace.kind, hplain]
  rw [hdrop] at hmap
  rw [hrestore]
  exact ⟨n₁, hmap, ⟨rfl, rfl, rfl, rfl⟩, rfl⟩

theorem keptList_normalizeWithin (hkey : (n.kind, key) ∈ listFields)
    (h : Yields (normalizeWithin ctx depth n) n') : KeptList key n n' := by
  cases depth with
  | zero =>
    rw [Yields.pure h]
    exact .refl n
  | succ depth =>
    have hplain : n.kind ≠ "TemplateRoot" ∧ shorthandFields? n.kind = none := by
      simp only [listFields, List.mem_cons, List.not_mem_nil, or_false, Prod.mk.injEq] at hkey
      rcases hkey with ⟨h, -⟩ | ⟨h, -⟩ <;> rw [h] <;> decide
    obtain ⟨n₁, hmap, hplace, hfields⟩ := of_normalizeWithin_of_plain hplain.1 hplain.2 h
    have hvisited : KeptList key n { n with visited := true } :=
      .of_fields ⟨rfl, rfl, rfl, rfl⟩ rfl
    refine hvisited.trans (.trans ?_ (.of_fields hplace hfields))
    exact keptList_mapChildrenM hmap (childKeys?_of_listFields hkey) fun c c' hc hkind =>
      samePlace_normalizeWithin hkind hc

theorem content_normalizeWithin (hkind : n.kind = "ScriptElement")
    (h : Yields (normalizeWithin ctx depth n) n') :
    Option.Rel (fun c c' => ∃ d, Yields (normalizeWithin ctx d c) c') (n.child? "content")
      (n'.child? "content") := by
  cases depth with
  | zero =>
    rw [Yields.pure h]
    cases n.child? "content" with
    | none => exact .none
    | some c => exact .some ⟨0, {}, {}, rfl⟩
  | succ depth =>
    obtain ⟨n₁, hmap, -, hfields⟩ :=
      of_normalizeWithin_of_plain (by rw [hkind]; decide) (by rw [hkind]; rfl) h
    have hkeys : childKeys? n.kind = some ["attributes", "content"] := by rw [hkind]; decide
    have hcontent : n'.child? "content" = n₁.child? "content" := by
      rw [Node.child?, Node.get?, hfields, Node.child?, Node.get?]
    have hchild := @child?_mapChildrenM "content" _ _ _ _ _ hmap _ hkeys (by decide) (by decide)
    rw [hcontent]
    exact optionRel_imp (fun c c' hc => ⟨depth, hc⟩) hchild

def sectionKeys : List String := ["html", "css", "instance", "module"]

/-- The kind of a section once the root is a program. -/
def sectionKind (key kind : String) : String :=
  if key = "css" then "StyleElement"
  else if key = "instance" ∨ key = "module" then "ScriptElement"
  else kind

theorem child?_relabelField (kind : String) (n : Node) (field key : String) :
    (relabelField kind n field).child? key =
      if key = field then (n.child? key).map ({ · with kind }) else n.child? key := by
  unfold relabelField Node.modifyChild?
  by_cases hkey : key = field
  · subst hkey
    cases hc : n.child? key with
    | none => simp [hc]
    | some c => simp [Node.child?, Node.get?_set_self, Value.toNode?]
  · cases hc : n.child? field with
    | none => simp [hkey]
    | some c => simp [Node.child?, Node.get?_set_of_ne hkey, hkey]

theorem kind_relabelField (kind : String) (n : Node) (field : String) :
    (relabelField kind n field).kind = n.kind := by
  unfold relabelField Node.modifyChild?
  cases n.child? field with
  | none => rfl
  | some c => rfl

theorem child?_relabelSections (hkind : n.kind = "TemplateRoot") (hkey : key ∈ sectionKeys) :
    (relabelSections n).child? key =
      (n.child? key).map fun c => { c with kind := sectionKind key c.kind } := by
  have hroot : n.is "TemplateRoot" = true := by simp [Node.is, hkind]
  simp only [relabelSections, hroot, if_true, List.foldl_cons, List.foldl_nil, child?_relabelField]
  simp only [sectionKeys, List.mem_cons, List.not_mem_nil, or_false] at hkey
  rcases hkey with rfl | rfl | rfl | rfl
  · cases n.child? "html" with
    | none => simp
    | some c =>
      cases c
      simp [sectionKind]
  all_goals simp [sectionKind]

theorem normalizeTree_eq (ctx : NormalizeContext) (n : Node) :
    normalizeTree ctx n = (do
      let n₀ ← enterNode n
      let n₁ ← mapChildrenM (fun _ c => normalizeWithin ctx (Node.depthOfFields n.fields) c) n₀
      leaveNode ctx n₁) := by
  rw [normalizeTree, Pass.traverse_eq_within, within_normalizePass, n.depth_eq, normalizeWithin]

theorem walked_of_normalizeTree {after} (hkind : n.kind = "TemplateRoot")
    (h : normalizeTree ctx n before = .ok (program, after)) :
    ∃ root out, Finished ctx root out after program ∧
      (∀ source, before.Faithful source → out.Faithful source) ∧
      ∀ key ∈ sectionKeys, Option.Rel (fun c c' => ∃ d, c.depth ≤ d + 1 ∧
        Yields (normalizeWithin ctx (d + 1) { c with kind := sectionKind key c.kind }) c')
          (n.child? key) (root.child? key) := by
  rw [normalizeTree_eq] at h
  obtain ⟨n₀, s₀, henter, hrest⟩ := run_bind_eq_ok.mp h
  obtain ⟨root, out, hmap, hleave⟩ := run_bind_eq_ok.mp hrest
  have hn₀ : n₀ = relabelSections { n with visited := true } := by
    have hkind₀ : (relabelSections { n with visited := true }).kind = "TemplateRoot" := by
      simp [relabelSections, Node.is, hkind, kind_relabelField]
    rw [of_enterNode ⟨_, _, henter⟩, dropShorthand, hkind₀]
    rfl
  have hkind₀ : n₀.kind = "TemplateRoot" := by
    rw [hn₀]
    simp [relabelSections, Node.is, hkind, kind_relabelField]
  have hkeys : childKeys? n₀.kind = some sectionKeys := by rw [hkind₀]; decide
  have hroot : root.kind = "TemplateRoot" := (samePlace_mapChildrenM ⟨_, _, hmap⟩).kind.trans hkind₀
  rw [leaveNode, if_pos (by simp [Node.is, hroot])] at hleave
  refine ⟨root, out, finishRoot_finished ctx root out out program after rfl hleave, ?_, ?_⟩
  · intro source hs
    have h₀ := keeps_enterNode n _ _ _ hs henter
    exact keeps_mapChildrenM (fun _ c => keeps_normalizeWithin _ c) n₀ _ _ _ h₀ hmap
  · intro key hkey
    have hchild := child?_mapChildrenM ⟨_, _, hmap⟩ hkeys (by decide) hkey
    rw [hn₀, child?_relabelSections (n := { n with visited := true }) hkind hkey,
      show ({ n with visited := true } : Node).child? key = n.child? key from rfl] at hchild
    cases hc : n.child? key with
    | none =>
      rw [hc] at hchild
      generalize root.child? key = c' at hchild ⊢
      cases hchild
      exact .none
    | some c =>
      have hlt := Node.depth_lt_of_hasChild (Node.hasChild_of_child? hc)
      have hpos := c.depth_pos
      rw [n.depth_eq] at hlt
      obtain ⟨d, hd⟩ : ∃ d, Node.depthOfFields n.fields = d + 1 :=
        Nat.exists_eq_add_one.mpr (by omega)
      rw [hc, hd] at hchild
      generalize root.child? key = c' at hchild ⊢
      cases hchild with
      | some hc => exact .some ⟨d, by omega, hc⟩

theorem of_normalizeTree {after} (hkind : n.kind = "TemplateRoot")
    (h : normalizeTree ctx n before = .ok (program, after)) :
    ∃ root out, Finished ctx root out after program ∧
      (∀ source, before.Faithful source → out.Faithful source) ∧
      ∀ key ∈ sectionKeys, Option.Rel (fun c c' => ∃ d,
        Yields (normalizeWithin ctx (d + 1) { c with kind := sectionKind key c.kind }) c')
          (n.child? key) (root.child? key) := by
  obtain ⟨root, out, hfinished, hfaithful, hsections⟩ := walked_of_normalizeTree hkind h
  exact ⟨root, out, hfinished, hfaithful, fun key hkey =>
    optionRel_imp (fun c c' hc => hc.imp fun d hd => hd.2) (hsections key hkey)⟩

end Places

end SvelteSyntax.Program
