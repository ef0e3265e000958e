import SvelteSyntax.Proofs.Program.Visits
import SvelteSyntax.Proofs.Script.Builder

namespace SvelteSyntax

open Run

variable {depth : Nat}

namespace Node

inductive Binds : Node → String → Prop
  | identifier {n name} (hkind : n.kind = "Identifier")
      (hname : n.string? "name" = some name) : Binds n name
  | property {n p c name} (hkind : n.kind = "ObjectPattern") (hp : p ∈ n.children "properties")
      (hc : p.child? (if p.is "RestElement" then "argument" else "value") = some c)
      (h : Binds c name) : Binds n name
  | element {n c name} (hkind : n.kind = "ArrayPattern")
      (hc : c ∈ n.nodesAt "elements") (h : Binds c name) : Binds n name
  | inner {n c key name}
      (hkey : (n.kind, key) ∈ [("AssignmentPattern", "left"), ("RestElement", "argument")])
      (hc : n.child? key = some c) (h : Binds c name) : Binds n name

/-- A name that a statement declares. -/
inductive Declares : Node → String → Prop
  | declarator {n d id name} (hkind : n.kind = "VariableDeclaration")
      (hd : d ∈ n.children "declarations") (hid : d.child? "id" = some id) (h : id.Binds name) :
      Declares n name
  | named {n id name} (hkind : n.kind = "FunctionDeclaration" ∨ n.kind = "ClassDeclaration")
      (hid : n.child? "id" = some id) (h : id.Binds name) : Declares n name
  | specifier {n s id name} (hkind : n.kind = "ImportDeclaration")
      (hs : s ∈ n.children "specifiers") (hid : s.child? "local" = some id) (h : id.Binds name) :
      Declares n name
  | exported {n m name} (hkind : n.kind = "ExportNamedDeclaration")
      (hm : n.child? "declaration" = some m) (h : Declares m name) : Declares n name

variable {n : Node} {name : String}

theorem mem_map_getD {α β : Type} {o : Option α} {f : α → List β} {b : β} :
    b ∈ (o.map f).getD [] ↔ ∃ a, o = some a ∧ b ∈ f a := by
  cases o <;> simp

theorem binds_of_mem {i} (hi : i ∈ n.boundWithin depth) (hname : i.string? "name" = some name) :
    n.Binds name := by
  induction depth generalizing n with
  | zero => cases hi
  | succ depth ih =>
    unfold boundWithin at hi
    split at hi
    · next hkind =>
      cases List.mem_singleton.mp hi
      exact .identifier hkind hname
    · next hkind =>
      obtain ⟨p, hp, hi⟩ := List.mem_flatMap.mp hi
      obtain ⟨c, hc, hi⟩ := mem_map_getD.mp hi
      exact .property hkind hp hc (ih hi)
    · next hkind =>
      obtain ⟨c, hc, hi⟩ := List.mem_flatMap.mp hi
      exact .element hkind hc (ih hi)
    · next hkind =>
      obtain ⟨c, hc, hi⟩ := mem_map_getD.mp hi
      exact .inner (by simp [hkind]) hc (ih hi)
    · next hkind =>
      obtain ⟨c, hc, hi⟩ := mem_map_getD.mp hi
      exact .inner (by simp [hkind]) hc (ih hi)
    · cases hi

theorem Binds.exists_mem (h : n.Binds name) (hdepth : n.depth ≤ depth) :
    ∃ i ∈ n.boundWithin depth, i.string? "name" = some name := by
  induction h generalizing depth with
  | @identifier n name hkind hname =>
    obtain ⟨d, rfl⟩ : ∃ d, depth = d + 1 :=
      Nat.exists_eq_add_one.mpr (Nat.lt_of_lt_of_le n.depth_pos hdepth)
    exact ⟨n, by simp [boundWithin, hkind], hname⟩
  | @property n p c name hkind hp hc _ ih =>
    have hpdepth := depth_lt_of_hasChild (hasChild_of_children hp)
    have hcdepth := depth_lt_of_hasChild (hasChild_of_child? hc)
    obtain ⟨d, rfl⟩ : ∃ d, depth = d + 1 := Nat.exists_eq_add_one.mpr (by omega)
    obtain ⟨i, hi, hname⟩ := @ih d (by omega)
    refine ⟨i, ?_, hname⟩
    simp only [boundWithin, hkind]
    exact List.mem_flatMap.mpr ⟨p, hp, mem_map_getD.mpr ⟨c, hc, hi⟩⟩
  | @element n c name hkind hc _ ih =>
    obtain ⟨v, hv, hcv⟩ := holds_of_nodesAt hc
    have hcdepth := depth_lt_of_hasChild (hasChild_of_get? hv hcv)
    obtain ⟨d, rfl⟩ : ∃ d, depth = d + 1 := Nat.exists_eq_add_one.mpr (by omega)
    obtain ⟨i, hi, hname⟩ := @ih d (by omega)
    refine ⟨i, ?_, hname⟩
    simp only [boundWithin, hkind]
    exact List.mem_flatMap.mpr ⟨c, hc, hi⟩
  | @inner n c key name hkey hc _ ih =>
    have hcdepth := depth_lt_of_hasChild (hasChild_of_child? hc)
    obtain ⟨d, rfl⟩ : ∃ d, depth = d + 1 := Nat.exists_eq_add_one.mpr (by omega)
    obtain ⟨i, hi, hname⟩ := @ih d (by omega)
    refine ⟨i, ?_, hname⟩
    simp only [List.mem_cons, Prod.mk.injEq, List.not_mem_nil, or_false] at hkey
    rcases hkey with ⟨hkind, rfl⟩ | ⟨hkind, rfl⟩
    · simp only [boundWithin, hkind]
      exact mem_map_getD.mpr ⟨c, hc, hi⟩
    · simp only [boundWithin, hkind]
      exact mem_map_getD.mpr ⟨c, hc, hi⟩

theorem Binds.exists_boundIdentifier (h : n.Binds name) :
    ∃ i ∈ n.boundIdentifiers, i.string? "name" = some name :=
  h.exists_mem (Nat.le_refl _)

theorem Binds.of_not_pattern (h : n.Binds name) (hkind : n.kind ∉ Script.patternKinds) :
    n.kind = "Identifier" ∧ n.string? "name" = some name := by
  cases h with
  | identifier hidentifier hname => exact ⟨hidentifier, hname⟩
  | property hobject => exact absurd (hobject ▸ by decide) hkind
  | element harray => exact absurd (harray ▸ by decide) hkind
  | inner hkey =>
    simp only [List.mem_cons, Prod.mk.injEq, List.not_mem_nil, or_false] at hkey
    rcases hkey with ⟨hinner, -⟩ | ⟨hinner, -⟩
    · exact absurd (hinner ▸ by decide) hkind
    · exact absurd (hinner ▸ by decide) hkind

end Node

namespace Program

/-- What the last pass makes of a node. -/
def Renews (ctx : NormalizeContext) (n n' : Node) : Prop :=
  ∃ depth, Yields (normalizeWithin ctx depth n) n'

section Renews

variable {ctx : NormalizeContext} {n n' c : Node} {key : String}

theorem Renews.refl (ctx : NormalizeContext) (n : Node) : Renews ctx n n := ⟨0, {}, {}, rfl⟩

theorem Renews.place (h : Renews ctx n n') (hkind : n.kind ≠ "TemplateRoot") : SamePlace n n' := by
  obtain ⟨depth, h⟩ := h
  exact samePlace_normalizeWithin hkind h

theorem normalizeWithin_again {n₁ n₂} (hkind : n.kind ≠ "TemplateRoot")
    (h₁ : Yields (normalizeWithin ctx depth n) n₁) (h₂ : Yields (normalizeWithin ctx depth n₁) n₂) :
    n₂ = n₁ := by
  cases depth with
  | zero => exact Yields.pure h₂
  | succ depth =>
    obtain ⟨n₀, henter, -⟩ := Yields.bind h₂
    exact absurd (visited_normalizeWithin hkind h₁) (unmarked_of_enterNode henter)

/-- A node in a field has its final form after a walk through some fields, unless they do not have
it. -/
theorem get?_node_of_foldlM {keys : List String} {c₀ : Node} (hkind : c.kind ≠ "TemplateRoot")
    (hc₀ : c₀ = c ∨ Yields (normalizeWithin ctx depth c) c₀) (hget : n.get? key = some (.node c₀))
    (h : Yields (keys.foldlM (mapFieldM fun _ c => normalizeWithin ctx depth c) n) n') :
    ∃ c', n'.get? key = some (.node c') ∧ (c' = c ∨ Yields (normalizeWithin ctx depth c) c') := by
  induction keys generalizing n c₀ with
  | nil =>
    rw [h.pure]
    exact ⟨c₀, hget, hc₀⟩
  | cons k keys ih =>
    rw [List.foldlM_cons] at h
    obtain ⟨n₁, h₁, hrest⟩ := h.bind
    by_cases hk : key = k
    · subst hk
      have hwalked := get?_mapFieldM h₁
      rw [hget] at hwalked
      obtain ⟨v, hv, hyields⟩ := of_optionRel_some hwalked
      obtain ⟨c₁, hc₁, hyields⟩ := hyields.bind
      rw [hyields.pure] at hv
      refine ih ?_ hv hrest
      rcases hc₀ with rfl | hc₀
      · exact .inr hc₁
      · exact .inr (normalizeWithin_again hkind hc₀ hc₁ ▸ hc₀)
    · exact ih hc₀ ((get?_mapFieldM_of_ne hk h₁).trans hget) hrest

theorem child?_of_mapChildrenM (hkind : c.kind ≠ "TemplateRoot")
    (h : Yields (mapChildrenM (fun _ c => normalizeWithin ctx depth c) n) n')
    (hc : n.child? key = some c) : ∃ c', n'.child? key = some c' ∧ Renews ctx c c' := by
  obtain ⟨c', hget, hc'⟩ := get?_node_of_foldlM hkind (.inl rfl) (Node.get?_of_child? hc) h
  refine ⟨c', by rw [Node.child?, hget]; rfl, ?_⟩
  rcases hc' with rfl | hc'
  · exact .refl ctx c'
  · exact ⟨depth, hc'⟩

section Halves

variable {first second : String} {k : Node}

theorem get?_dropShorthand (hkey : ∀ first, shorthandFields? n.kind ≠ some (first, key)) :
    (dropShorthand n).get? key = n.get? key := by
  unfold dropShorthand
  split
  · rfl
  · next first second hshort =>
    have hne : key ≠ second := fun he => hkey first (by rw [hshort, he])
    split
    · split
      · exact Fields.get?_erase_of_ne hne _
      · rfl
    · rfl

theorem get?_restoreShorthand (hkey : ∀ first, shorthandFields? n.kind ≠ some (first, key)) :
    (restoreShorthand n).get? key = n.get? key := by
  unfold restoreShorthand
  split
  · rfl
  · next first second hshort =>
    have hne : key ≠ second := fun he => hkey first (by rw [hshort, he])
    split
    · rfl
    · split
      · exact Node.get?_set_of_ne hne _ _
      · rfl

variable (hshort : shorthandFields? n.kind = some (first, second))
include hshort

theorem dropShorthand_of_same (hk : n.child? first = some k) (hc : n.child? second = some c)
    (hsame : sameNode k c) : dropShorthand n = n.erase second := by
  simp [dropShorthand, hshort, hk, hc, hsame]

theorem dropShorthand_of_apart (hc : n.child? second = some c)
    (happart : ∀ k, n.child? first = some k → ¬sameNode k c) : dropShorthand n = n := by
  cases hk : n.child? first with
  | none => simp [dropShorthand, hshort, hk]
  | some k => simp [dropShorthand, hshort, hk, hc, happart k hk]

theorem child?_restoreShorthand (hnone : n.get? second = none) (hk : n.child? first = some k) :
    (restoreShorthand n).child? second = some k := by
  have hset : restoreShorthand n = n.set second (.node k) := by
    simp [restoreShorthand, hshort, Node.has, hnone, hk]
  rw [hset, Node.child?, Node.get?_set_self]
  rfl

theorem restoreShorthand_of_child? (hc : n.child? second = some c) : restoreShorthand n = n := by
  simp [restoreShorthand, hshort, Node.has, Node.get?_of_child? hc]

theorem shorthand_eq : n.kind = "Property" ∧ first = "key" ∧ second = "value" ∨
    n.kind = "ImportSpecifier" ∧ first = "imported" ∧ second = "local" := by
  unfold shorthandFields? at hshort
  split at hshort
  · next hkind =>
    cases hshort
    exact .inl ⟨hkind, rfl, rfl⟩
  · next hkind =>
    cases hshort
    exact .inr ⟨hkind, rfl, rfl⟩
  · cases hshort

theorem first_ne_second : first ≠ second := by
  rcases shorthand_eq hshort with heq | heq
  · obtain ⟨-, rfl, rfl⟩ := heq
    decide
  · obtain ⟨-, rfl, rfl⟩ := heq
    decide

omit hshort in
theorem not_second (hkey : key ≠ "value" ∧ key ≠ "local") (first : String) :
    shorthandFields? n.kind ≠ some (first, key) := by
  intro hshort
  rcases shorthand_eq hshort with ⟨-, -, heq⟩ | ⟨-, -, heq⟩
  · exact hkey.1 heq
  · exact hkey.2 heq

end Halves

theorem Renews.child? (h : Renews ctx n n') (hroot : n.kind ≠ "TemplateRoot")
    (hkey : ∀ first, shorthandFields? n.kind ≠ some (first, key)) (hc : n.child? key = some c)
    (hkind : c.kind ≠ "TemplateRoot") : ∃ c', n'.child? key = some c' ∧ Renews ctx c c' := by
  obtain ⟨depth, h⟩ := h
  cases depth with
  | zero =>
    rw [Yields.pure h]
    exact ⟨c, hc, .refl ctx c⟩
  | succ depth =>
    obtain ⟨n₁, loc, hmap, hplace, rfl⟩ := of_normalizeWithin hroot h
    have hdrop : (dropShorthand { n with visited := true }).child? key = some c := by
      rw [Node.child?, get?_dropShorthand (n := { n with visited := true }) hkey]
      exact hc
    obtain ⟨c', hc', hrenews⟩ := child?_of_mapChildrenM hkind hmap hdrop
    have hrestore : (restoreShorthand n₁).child? key = n₁.child? key := by
      rw [Node.child?, get?_restoreShorthand (by rwa [hplace.kind]), Node.child?]
    exact ⟨c', hrestore.trans hc', hrenews⟩

theorem Renews.second {first second : String} (h : Renews ctx n n') (hroot : n.kind ≠ "TemplateRoot")
    (hshort : shorthandFields? n.kind = some (first, second)) (hnames : n.fieldNames.Nodup)
    (hkinds : ∀ m, n.HasChild m → m.kind ≠ "TemplateRoot") (hc : n.child? second = some c) :
    ∃ c', n'.child? second = some c' ∧ (Renews ctx c c' ∨
      ∃ k, n.child? first = some k ∧ sameNode k c ∧ Renews ctx k c') := by
  obtain ⟨depth, h⟩ := h
  cases depth with
  | zero =>
    rw [Yields.pure h]
    exact ⟨c, hc, .inl (.refl ctx c)⟩
  | succ depth =>
    obtain ⟨n₁, loc, hmap, hplace, rfl⟩ := of_normalizeWithin hroot h
    have hshort₁ : shorthandFields? n₁.kind = some (first, second) := by rw [hplace.kind, hshort]
    by_cases hshared : ∃ k, n.child? first = some k ∧ sameNode k c
    · obtain ⟨k, hk, hsame⟩ := hshared
      rw [dropShorthand_of_same (n := { n with visited := true }) hshort hk hc hsame] at hmap
      have hfirst : (Node.erase { n with visited := true } second).child? first = some k := by
        rw [Node.child?, Node.get?, Node.erase, Fields.get?_erase_of_ne (first_ne_second hshort)]
        exact hk
      obtain ⟨k', hk', hrenews⟩ :=
        child?_of_mapChildrenM (hkinds k (Node.hasChild_of_child? hk)) hmap hfirst
      have hnone : n₁.get? second = none := by
        rw [Node.get?, Fields.get?_eq_none_iff]
        change second ∉ n₁.fieldNames
        rw [fieldNames_mapChildrenM hmap]
        exact Fields.get?_eq_none_iff.mp (Fields.get?_erase_self hnames)
      exact ⟨k', child?_restoreShorthand hshort₁ hnone hk', .inr ⟨k, hk, hsame, hrenews⟩⟩
    · have happart : ∀ k, n.child? first = some k → ¬sameNode k c := fun k hk hsame =>
        hshared ⟨k, hk, hsame⟩
      rw [dropShorthand_of_apart (n := { n with visited := true }) hshort hc happart] at hmap
      obtain ⟨c', hc', hrenews⟩ :=
        child?_of_mapChildrenM (hkinds c (Node.hasChild_of_child? hc)) hmap hc
      refine ⟨c', ?_, .inl hrenews⟩
      rw [restoreShorthand_of_child? hshort₁ hc']
      exact hc'

/-- The lists of nodes that bind or declare something. -/
def declaringLists : List (String × String) :=
  [("Program", "body"), ("ObjectPattern", "properties"), ("ArrayPattern", "elements"),
   ("VariableDeclaration", "declarations"), ("ImportDeclaration", "specifiers")]

theorem Renews.get? (h : Renews ctx n n') (hkey : (n.kind, key) ∈ declaringLists) :
    n'.get? key = n.get? key ∨ ∃ depth, Option.Rel (fun v v' =>
      Yields (mapNodesM (normalizeWithin ctx depth) v) v') (n.get? key) (n'.get? key) := by
  have hlists : ∀ field ∈ declaringLists, field.1 ≠ "TemplateRoot" ∧
      shorthandFields? field.1 = none ∧ (childKeys? field.1).any (field.2 ∈ ·) := by decide
  obtain ⟨hroot, hplain, hkeys⟩ := hlists _ hkey
  obtain ⟨keys, hkeys, hmem⟩ := Option.any_eq_true _ _ |>.mp hkeys
  obtain ⟨depth, h⟩ := h
  cases depth with
  | zero =>
    rw [Yields.pure h]
    exact .inl rfl
  | succ depth =>
    obtain ⟨n₁, hmap, -, hfields⟩ := of_normalizeWithin_of_plain hroot hplain h
    refine .inr ⟨depth, ?_⟩
    rw [Node.get?, Node.get?, hfields]
    exact get?_mapChildrenM hmap hkeys (Node.nodup_of_visitorKeys hkeys) (of_decide_eq_true hmem)

theorem Renews.nodesAt (h : Renews ctx n n') (hkey : (n.kind, key) ∈ declaringLists)
    (hc : c ∈ n.nodesAt key) : ∃ c' ∈ n'.nodesAt key, Renews ctx c c' := by
  rcases h.get? hkey with hsame | ⟨depth, hrel⟩
  · exact ⟨c, by rwa [Node.nodesAt, hsame], .refl ctx c⟩
  · unfold Node.nodesAt at hc ⊢
    cases hget : n.get? key with
    | none => simp [hget] at hc
    | some v =>
      rw [hget] at hc hrel
      obtain ⟨v', hv', hyields⟩ := of_optionRel_some hrel
      obtain ⟨c', hc', hyields⟩ := exists_of_mapNodesM hyields hc
      rw [hv']
      exact ⟨c', hc', depth, hyields⟩

theorem Renews.children (h : Renews ctx n n') (hkey : (n.kind, key) ∈ declaringLists)
    (hc : c ∈ n.children key) : ∃ c' ∈ n'.children key, Renews ctx c c' := by
  rcases h.get? hkey with hsame | ⟨depth, hrel⟩
  · exact ⟨c, by rwa [Node.children, hsame], .refl ctx c⟩
  · unfold Node.children at hc
    split at hc
    · next cs hget =>
      rw [hget] at hrel
      obtain ⟨v', hv', hyields⟩ := of_optionRel_some hrel
      obtain ⟨cs', hcs, hyields⟩ := hyields.bind
      obtain ⟨c', hc', hyields'⟩ := exists_of_mapM hcs hc
      rw [hyields.pure] at hv'
      exact ⟨c', by rwa [Node.children, hv'], depth, hyields'⟩
    · cases hc

end Renews

section Names

/-- What is known of a tree of a script: no two names stand at one place, and what may be a shorthand
has no pattern in its first half. -/
structure Sited (named : Span → String → Prop) (n : Node) : Prop where
  unique : ∀ span name name', named span name → named span name' → name = name'
  kind : ∀ m, n.InTree m → m.kind ∉ markupKinds
  identifier : ∀ m, n.InTree m → m.kind = "Identifier" →
    ∃ name, named ⟨m.start, m.stop⟩ name ∧ m.string? "name" = some name
  fieldNames : ∀ m, n.InTree m → (shorthandFields? m.kind).isSome → m.fieldNames.Nodup
  first : ∀ m, n.InTree m → ∀ first second k, shorthandFields? m.kind = some (first, second) →
    m.child? first = some k → k.kind ∉ Script.patternKinds

variable {ctx : NormalizeContext} {named : Span → String → Prop} {n n' c : Node} {name : String}

theorem sited_child (h : Sited named n) (hc : n.HasChild c) : Sited named c where
  unique := h.unique
  kind := (Node.forall_inTree.mp h.kind).2 c hc
  identifier := (Node.forall_inTree.mp h.identifier).2 c hc
  fieldNames := (Node.forall_inTree.mp h.fieldNames).2 c hc
  first := (Node.forall_inTree.mp h.first).2 c hc

theorem sited_kind (h : Sited named n) : n.kind ≠ "TemplateRoot" := fun he =>
  h.kind n .root (he ▸ by decide)

theorem binds_of_identifier (h : Renews ctx n n') (hkind : n.kind = "Identifier")
    (hname : n.string? "name" = some name) : n'.Binds name := by
  have hroot : n.kind ≠ "TemplateRoot" := hkind ▸ by decide
  refine .identifier ((h.place hroot).kind.trans hkind) ?_
  obtain ⟨depth, h⟩ := h
  cases depth with
  | zero =>
    rw [Yields.pure h]
    exact hname
  | succ depth =>
    obtain ⟨n₁, hmap, -, hfields⟩ := of_normalizeWithin_of_plain hroot (hkind ▸ rfl) h
    have hkeys : childKeys? n.kind = some [] := by rw [hkind]; decide
    rw [Node.string?, Node.get?, hfields]
    change (n₁.get? "name").bind _ = _
    rw [get?_mapChildrenM_of_not_mem hmap hkeys (by simp)]
    exact hname

theorem string?_of_sameNode (hk : Sited named n) (hc : Sited named c) (hsame : sameNode n c)
    (hkind : c.kind = "Identifier") (hname : c.string? "name" = some name) :
    n.kind = "Identifier" ∧ n.string? "name" = some name := by
  simp only [sameNode, Bool.and_eq_true, beq_iff_eq] at hsame
  obtain ⟨⟨hkinds, hstart⟩, hstop⟩ := hsame
  obtain ⟨x, hx, hnx⟩ := hk.identifier n .root (hkinds.trans hkind)
  obtain ⟨y, hy, hcy⟩ := hc.identifier c .root hkind
  rw [hstart, hstop] at hx
  obtain rfl : y = name := Option.some.inj (hcy.symm.trans hname)
  obtain rfl := hk.unique _ _ _ hx hy
  exact ⟨hkinds.trans hkind, hnx⟩

theorem binds_second {first second : String} (hn : Sited named n)
    (hshort : shorthandFields? n.kind = some (first, second)) (h : Renews ctx n n')
    (hc : n.child? second = some c) (hbinds : c.Binds name)
    (ih : ∀ c', Renews ctx c c' → c'.Binds name) :
    ∃ c', n'.child? second = some c' ∧ c'.Binds name := by
  have hnames := hn.fieldNames n .root (by rw [hshort]; rfl)
  obtain ⟨c', hc', hrenews | ⟨k, hk, hsame, hrenews⟩⟩ := h.second (sited_kind hn) hshort hnames
    (fun m hm => sited_kind (sited_child hn hm)) hc
  · exact ⟨c', hc', ih c' hrenews⟩
  · have hkinds : k.kind = c.kind := by
      simp only [sameNode, Bool.and_eq_true, beq_iff_eq] at hsame
      exact hsame.1.1
    obtain ⟨hkind, hname⟩ := hbinds.of_not_pattern (hkinds ▸ hn.first n .root first second k hshort hk)
    obtain ⟨hkind, hname⟩ := string?_of_sameNode (sited_child hn (Node.hasChild_of_child? hk))
      (sited_child hn (Node.hasChild_of_child? hc)) hsame hkind hname
    exact ⟨c', hc', binds_of_identifier hrenews hkind hname⟩

theorem binds_field {key : String} (hn : Sited named n)
    (hkey : ∀ first, shorthandFields? n.kind ≠ some (first, key)) (h : Renews ctx n n')
    (hc : n.child? key = some c) (ih : ∀ c', Renews ctx c c' → c'.Binds name) :
    ∃ c', n'.child? key = some c' ∧ c'.Binds name := by
  obtain ⟨c', hc', hrenews⟩ := h.child? (sited_kind hn) hkey hc
    (sited_kind (sited_child hn (Node.hasChild_of_child? hc)))
  exact ⟨c', hc', ih c' hrenews⟩

theorem binds_value (hn : Sited named n) (h : Renews ctx n n')
    (hc : n.child? "value" = some c) (hbinds : c.Binds name)
    (ih : ∀ c', Renews ctx c c' → c'.Binds name) :
    ∃ c', n'.child? "value" = some c' ∧ c'.Binds name := by
  by_cases hkind : n.kind = "Property"
  · have hshort : shorthandFields? n.kind = some ("key", "value") := by rw [hkind]; rfl
    exact binds_second hn hshort h hc hbinds ih
  · refine binds_field hn (fun first hshort => ?_) h hc ih
    rcases shorthand_eq hshort with ⟨hother, -⟩ | ⟨-, -, heq⟩
    · exact hkind hother
    · exact absurd heq (by decide)

theorem binds_local (hn : Sited named n) (h : Renews ctx n n')
    (hc : n.child? "local" = some c) (hbinds : c.Binds name)
    (ih : ∀ c', Renews ctx c c' → c'.Binds name) :
    ∃ c', n'.child? "local" = some c' ∧ c'.Binds name := by
  by_cases hkind : n.kind = "ImportSpecifier"
  · have hshort : shorthandFields? n.kind = some ("imported", "local") := by rw [hkind]; rfl
    exact binds_second hn hshort h hc hbinds ih
  · refine binds_field hn (fun first hshort => ?_) h hc ih
    rcases shorthand_eq hshort with ⟨-, -, heq⟩ | ⟨hother, -⟩
    · exact absurd heq (by decide)
    · exact hkind hother

theorem binds_of_renews (hbinds : n.Binds name) (hn : Sited named n) (h : Renews ctx n n') :
    n'.Binds name := by
  induction hbinds generalizing n' with
  | identifier hkind hname => exact binds_of_identifier h hkind hname
  | @property n p c name hkind hp hc hbinds ih =>
    have hpsited := sited_child hn (Node.hasChild_of_children hp)
    have ih := fun c' => @ih c' (sited_child hpsited (Node.hasChild_of_child? hc))
    obtain ⟨p', hp', hrenews⟩ := h.children (by simp [hkind, declaringLists]) hp
    have hpkind := (hrenews.place (sited_kind hpsited)).kind
    have hobject := (h.place (sited_kind hn)).kind.trans hkind
    by_cases hrest : p.kind = "RestElement"
    · rw [Node.is, hrest, beq_self_eq_true, if_pos rfl] at hc
      obtain ⟨c', hc', hbinds'⟩ := binds_field hpsited (not_second (by decide)) hrenews hc ih
      refine .property hobject hp' ?_ hbinds'
      rwa [Node.is, hpkind, hrest, beq_self_eq_true, if_pos rfl]
    · have hnot : (p.kind == "RestElement") = false := by simpa using hrest
      rw [Node.is, hnot, if_neg (by decide)] at hc
      obtain ⟨c', hc', hbinds'⟩ := binds_value hpsited hrenews hc hbinds ih
      refine .property hobject hp' ?_ hbinds'
      rwa [Node.is, hpkind, hnot, if_neg (by decide)]
  | @element n c name hkind hc hbinds ih =>
    obtain ⟨v, hv, hcv⟩ := Node.holds_of_nodesAt hc
    obtain ⟨c', hc', hrenews⟩ := h.nodesAt (by simp [hkind, declaringLists]) hc
    exact .element ((h.place (sited_kind hn)).kind.trans hkind) hc'
      (ih (sited_child hn (Node.hasChild_of_get? hv hcv)) hrenews)
  | @inner n c key name hkey hc hbinds ih =>
    have hplain : ∀ field ∈ [("AssignmentPattern", "left"), ("RestElement", "argument")],
        field.2 ≠ "value" ∧ field.2 ≠ "local" := by decide
    obtain ⟨c', hc', hbinds'⟩ := binds_field hn (not_second (hplain _ hkey)) h hc fun c' =>
      ih (sited_child hn (Node.hasChild_of_child? hc))
    exact .inner (by rwa [(h.place (sited_kind hn)).kind]) hc' hbinds'

theorem declares_of_renews (hdeclares : n.Declares name) (hn : Sited named n)
    (h : Renews ctx n n') : n'.Declares name := by
  induction hdeclares generalizing n' with
  | @declarator n d id name hkind hd hid hbinds =>
    have hdsited := sited_child hn (Node.hasChild_of_children hd)
    have hidsited := sited_child hdsited (Node.hasChild_of_child? hid)
    obtain ⟨d', hd', hrenews⟩ := h.children (by simp [hkind, declaringLists]) hd
    obtain ⟨id', hid', hbinds'⟩ := binds_field hdsited (not_second (by decide)) hrenews hid
      fun _ => binds_of_renews hbinds hidsited
    exact .declarator ((h.place (sited_kind hn)).kind.trans hkind) hd' hid' hbinds'
  | @named n id name hkind hid hbinds =>
    have hidsited := sited_child hn (Node.hasChild_of_child? hid)
    obtain ⟨id', hid', hbinds'⟩ := binds_field hn (not_second (by decide)) h hid
      fun _ => binds_of_renews hbinds hidsited
    exact .named (by rwa [(h.place (sited_kind hn)).kind]) hid' hbinds'
  | @specifier n s id name hkind hs hid hbinds =>
    have hssited := sited_child hn (Node.hasChild_of_children hs)
    have hidsited := sited_child hssited (Node.hasChild_of_child? hid)
    obtain ⟨s', hs', hrenews⟩ := h.children (by simp [hkind, declaringLists]) hs
    obtain ⟨id', hid', hbinds'⟩ := binds_local hssited hrenews hid hbinds
      fun _ => binds_of_renews hbinds hidsited
    exact .specifier ((h.place (sited_kind hn)).kind.trans hkind) hs' hid' hbinds'
  | @exported n m name hkind hm _ ih =>
    have hmsited := sited_child hn (Node.hasChild_of_child? hm)
    obtain ⟨m', hm', hrenews⟩ :=
      h.child? (sited_kind hn) (not_second (by decide)) hm (sited_kind hmsited)
    exact .exported ((h.place (sited_kind hn)).kind.trans hkind) hm' (ih hmsited hrenews)

end Names

end Program

end SvelteSyntax
