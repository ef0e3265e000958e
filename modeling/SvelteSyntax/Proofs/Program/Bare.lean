import SvelteSyntax.Proofs.Program.Bindings

namespace SvelteSyntax

open Run Text

namespace Program

def sharedHalf? (n : Node) : Option (String × Node) := do
  let (first, second) ← shorthandFields? n.kind
  let a ← n.child? first
  let b ← n.child? second
  if sameNode a b then some (second, b) else none

def halfLast (n : Node) : Node :=
  match sharedHalf? n with
  | none => n
  | some (second, b) => (n.erase second).set second (.node b)

end Program

mutual

/-- All of a tree that the last pass keeps: there are no locations and no marks, and the second half of
a shorthand is in the place it gets. -/
def Node.bare : Node → Node
  | { kind, start, stop, loc := _, fields, placeholder, visited := _ } =>
    Program.halfLast { kind, start, stop, fields := Node.bareFields fields, placeholder }

def Node.bareFields : List (String × Value) → List (String × Value)
  | [] => []
  | (k, v) :: fs => (k, v.bare) :: Node.bareFields fs

def Value.bare : Value → Value
  | .node n => .node n.bare
  | .nodes ns => .nodes (Node.bareList ns)
  | .sparse ns => .sparse (Node.bareSparse ns)
  | .object es => .object (Node.bareFields es)
  | .null => .null
  | .bool b => .bool b
  | .number n => .number n
  | .string s => .string s
  | .strings ss => .strings ss

def Node.bareList : List Node → List Node
  | [] => []
  | n :: ns => n.bare :: Node.bareList ns

def Node.bareSparse : List (Option Node) → List (Option Node)
  | [] => []
  | none :: ns => none :: Node.bareSparse ns
  | some n :: ns => some n.bare :: Node.bareSparse ns

end

/-- The node without decoration, its fields in the order they have. -/
def Node.plain (n : Node) : Node :=
  { kind := n.kind, start := n.start, stop := n.stop, fields := Node.bareFields n.fields,
    placeholder := n.placeholder }

theorem Node.bare_eq (n : Node) : n.bare = Program.halfLast n.plain := by
  cases n
  rw [Node.bare]
  rfl

theorem Node.bareList_eq (ns : List Node) : Node.bareList ns = ns.map Node.bare := by
  induction ns with
  | nil => rfl
  | cons n ns ih => rw [Node.bareList, ih, List.map_cons]

theorem Node.bareSparse_eq (ns : List (Option Node)) :
    Node.bareSparse ns = ns.map (Option.map Node.bare) := by
  induction ns with
  | nil => rfl
  | cons n ns ih => cases n <;> simp [Node.bareSparse, ih]

variable {v' v : Value} {c : Node}

section Fields

variable {key : String} {fs : List (String × Value)}

theorem Node.names_bareFields (fs : List (String × Value)) :
    Fields.names (Node.bareFields fs) = Fields.names fs := by
  induction fs with
  | nil => rfl
  | cons f fs ih => simpa [Node.bareFields, Fields.names] using ih

theorem Node.get?_bareFields (key : String) (fs : List (String × Value)) :
    Fields.get? key (Node.bareFields fs) = (Fields.get? key fs).map Value.bare := by
  induction fs with
  | nil => rfl
  | cons f fs ih =>
    obtain ⟨k, v⟩ := f
    by_cases hk : k = key <;> simp [Node.bareFields, Fields.get?, hk, ih]

theorem Node.bareFields_set (key : String) (v : Value) (fs : List (String × Value)) :
    Node.bareFields (Fields.set key v fs) = Fields.set key v.bare (Node.bareFields fs) := by
  induction fs with
  | nil => rfl
  | cons f fs ih =>
    obtain ⟨k, w⟩ := f
    by_cases hk : k = key <;> simp [Node.bareFields, Fields.set, hk, ih]

theorem Node.bareFields_erase (key : String) (fs : List (String × Value)) :
    Node.bareFields (Fields.erase key fs) = Fields.erase key (Node.bareFields fs) := by
  induction fs with
  | nil => rfl
  | cons f fs ih =>
    obtain ⟨k, w⟩ := f
    by_cases hk : k = key <;> simp [Node.bareFields, Fields.erase, hk, ih]

/-- A field whose new value differs in decoration only. -/
theorem Node.bareFields_set_of_get? (h : Fields.get? key fs = some v) (hv : v'.bare = v.bare) :
    Node.bareFields (Fields.set key v' fs) = Node.bareFields fs := by
  rw [Node.bareFields_set, hv]
  refine Fields.set_of_get? ?_
  rw [Node.get?_bareFields, h, Option.map_some]

end Fields

theorem Value.toNode?_bare (v : Value) : v.bare.toNode? = v.toNode?.map Node.bare := by
  cases v <;> simp [Value.bare, Value.toNode?]

theorem Value.holdsNodes_bare (v : Value) : v.bare.holdsNodes = v.holdsNodes := by
  cases v <;> simp [Value.bare, Value.holdsNodes]

theorem Node.get?_plain (n : Node) (key : String) :
    n.plain.get? key = (n.get? key).map Value.bare :=
  Node.get?_bareFields key n.fields

theorem Node.child?_plain (n : Node) (key : String) :
    n.plain.child? key = (n.child? key).map Node.bare := by
  rw [Node.child?, Node.get?_plain, Node.child?]
  cases n.get? key with
  | none => rfl
  | some v => exact v.toNode?_bare

theorem Node.children_plain (n : Node) (key : String) :
    n.plain.children key = (n.children key).map Node.bare := by
  rw [Node.children, Node.get?_plain, Node.children]
  cases n.get? key with
  | none => rfl
  | some v => cases v <;> simp [Value.bare, Node.bareList_eq]

theorem Node.fieldNames_plain (n : Node) : n.plain.fieldNames = n.fieldNames :=
  Node.names_bareFields n.fields

/-- A node is reached from another one by the fields that a walk goes into. -/
inductive Node.Reaches : Node → Node → Prop
  | refl (n : Node) : n.Reaches n
  | step {n c m : Node} {key : String} (hkey : key ∈ n.traversalKeys) (hc : c ∈ n.nodesAt key)
      (h : c.Reaches m) : n.Reaches m

variable {n n' : Node} {key : String}

namespace Program

section Shorthands

variable {n n₁ : Node} {first second : String} {b : Node}

/-- The halves of a shorthand are there, each once, and halves at one place are one node. -/
structure Paired (n : Node) : Prop where
  once : ∀ first second, shorthandFields? n.kind = some (first, second) →
    n.fieldNames.count first = 1 ∧ n.fieldNames.count second = 1
  same : ∀ first second, shorthandFields? n.kind = some (first, second) → ∀ a b,
    n.child? first = some a → n.child? second = some b → sameNode a b → a = b

theorem sharedHalf?_eq_some : sharedHalf? n = some (second, b) ↔ ∃ first a,
    shorthandFields? n.kind = some (first, second) ∧ n.child? first = some a ∧
      n.child? second = some b ∧ sameNode a b := by
  simp only [sharedHalf?, Option.bind_eq_bind, Option.bind_eq_some_iff, Prod.exists,
    Option.ite_none_right_eq_some, Option.some.injEq, Prod.mk.injEq]
  constructor
  · rintro ⟨first, _, hshort, a, ha, _, hb, hsame, rfl, rfl⟩
    exact ⟨first, a, hshort, ha, hb, hsame⟩
  · rintro ⟨first, a, hshort, ha, hb, hsame⟩
    exact ⟨first, second, hshort, a, ha, b, hb, hsame, rfl, rfl⟩

theorem samePlace_halfLast (n : Node) : SamePlace n (halfLast n) := by
  unfold halfLast
  split
  · rfl
  · exact (SamePlace.erase ..).trans (.set ..)

theorem samePlace_bare (n : Node) : SamePlace n n.bare := by
  rw [n.bare_eq]
  exact .trans (b := n.plain) ⟨rfl, rfl, rfl, rfl⟩ (samePlace_halfLast n.plain)

theorem sameNode_bare (a b : Node) : sameNode a.bare b.bare = sameNode a b := by
  have ha := samePlace_bare a
  have hb := samePlace_bare b
  simp only [sameNode, ha.kind, ha.start, ha.stop, hb.kind, hb.start, hb.stop]

theorem sharedHalf?_plain (n : Node) :
    sharedHalf? n.plain = (sharedHalf? n).map fun half => (half.1, half.2.bare) := by
  have hkind : n.plain.kind = n.kind := rfl
  unfold sharedHalf?
  rw [hkind]
  cases shorthandFields? n.kind with
  | none => rfl
  | some fields =>
    obtain ⟨first, second⟩ := fields
    simp only [Option.bind_eq_bind, Option.bind_some, n.child?_plain]
    cases n.child? first with
    | none => rfl
    | some a =>
      cases n.child? second with
      | none => rfl
      | some b => by_cases hsame : sameNode a b <;> simp [sameNode_bare, hsame]

theorem dropShorthand_of_shared (h : sharedHalf? n = some (second, b)) :
    dropShorthand n = n.erase second := by
  obtain ⟨first, a, hshort, ha, hb, hsame⟩ := sharedHalf?_eq_some.mp h
  exact dropShorthand_of_same hshort ha hb hsame

theorem dropShorthand_of_none (h : sharedHalf? n = none) : dropShorthand n = n := by
  unfold dropShorthand
  split
  · rfl
  · next first second hshort =>
    split
    · next a b ha hb =>
      refine if_neg fun hsame => ?_
      rw [sharedHalf?_eq_some.mpr ⟨first, a, hshort, ha, hb, hsame⟩] at h
      cases h
    · rfl

theorem Paired.not_mem_erase (h : Paired n) (hshort : shorthandFields? n.kind = some (first, second)) :
    second ∉ Fields.names (Fields.erase second n.fields) := by
  have hcount : (Fields.names n.fields).count second = 1 := (h.once first second hshort).2
  rw [Fields.names_erase, ← List.count_eq_zero, List.count_erase_self, hcount]

theorem Paired.has_second (h : Paired n)
    (hshort : shorthandFields? n.kind = some (first, second)) : n.has second = true := by
  have hmem : second ∈ Fields.names n.fields := by
    rw [← List.count_pos_iff]
    exact Nat.lt_of_lt_of_eq Nat.one_pos (h.once first second hshort).2.symm
  rw [Node.has, Option.isSome_iff_ne_none]
  exact fun hnone => Fields.get?_eq_none_iff.mp hnone hmem

theorem plain_congr (hplace : SamePlace n n₁)
    (hfields : Node.bareFields n₁.fields = Node.bareFields n.fields) : n₁.plain = n.plain := by
  rw [Node.plain, hplace.kind, hplace.start, hplace.stop, hplace.placeholder, hfields, Node.plain]

theorem halfLast_set_erase (hhalf : sharedHalf? n = some (second, b))
    (honce : second ∉ Fields.names (Fields.erase second n.fields)) :
    halfLast ((n.erase second).set second (.node b)) = (n.erase second).set second (.node b) := by
  obtain ⟨first, a, hshort, ha, -, hsame⟩ := sharedHalf?_eq_some.mp hhalf
  have hne := first_ne_second hshort
  have hagain : sharedHalf? ((n.erase second).set second (.node b)) = some (second, b) := by
    refine sharedHalf?_eq_some.mpr ⟨first, a, hshort, ?_, ?_, hsame⟩
    · rw [Node.child?, Node.get?_set_of_ne hne, Node.get?, Node.erase, Fields.get?_erase_of_ne hne]
      exact ha
    · rw [Node.child?, Node.get?_set_self]
      rfl
  have herase : ((n.erase second).set second (.node b)).erase second = n.erase second := by
    rw [Node.erase, Node.set, Node.erase, Fields.erase_set_of_not_mem honce]
  rw [halfLast, hagain]
  simp only [herase]

theorem restoreShorthand_of_has (hshort : shorthandFields? n.kind = some (first, second))
    (h : n.has second = true) : restoreShorthand n = n := by
  simp [restoreShorthand, hshort, h]

theorem restoreShorthand_of_plain (hshort : shorthandFields? n.kind = none) :
    restoreShorthand n = n := by
  simp [restoreShorthand, hshort]

theorem has_congr (h : n₁.fieldNames = n.fieldNames) (key : String) : n₁.has key = n.has key := by
  have hnames : ∀ m : Node, m.has key = true ↔ key ∈ m.fieldNames := by
    intro m
    rw [Node.has, Option.isSome_iff_ne_none, Node.get?, Ne, Fields.get?_eq_none_iff, not_not]
    rfl
  rw [Bool.eq_iff_iff, hnames, hnames, h]

theorem restoreShorthand_of_paired (hpaired : Paired n) (hkind : n₁.kind = n.kind)
    (hnames : n₁.fieldNames = n.fieldNames) : restoreShorthand n₁ = n₁ := by
  cases hshort : shorthandFields? n.kind with
  | none => exact restoreShorthand_of_plain (hkind ▸ hshort)
  | some fields =>
    obtain ⟨first, second⟩ := fields
    refine restoreShorthand_of_has (hkind ▸ hshort) ?_
    rw [has_congr hnames]
    exact hpaired.has_second hshort

theorem bare_restoreShorthand (hpaired : Paired n) (hplace : SamePlace n n₁)
    (hfields : Node.bareFields n₁.fields = Node.bareFields (dropShorthand n).fields) :
    (restoreShorthand n₁).bare = n.bare := by
  cases hhalf : sharedHalf? n with
  | none =>
    rw [dropShorthand_of_none hhalf] at hfields
    have hplain := plain_congr hplace hfields
    have hnames : n₁.fieldNames = n.fieldNames := by
      rw [← n₁.fieldNames_plain, hplain, n.fieldNames_plain]
    rw [restoreShorthand_of_paired hpaired hplace.kind hnames, Node.bare_eq, hplain, Node.bare_eq]
  | some half =>
    obtain ⟨second, b⟩ := half
    obtain ⟨first, a, hshort, ha, hb, hsame⟩ := sharedHalf?_eq_some.mp hhalf
    cases hpaired.same first second hshort a b ha hb hsame
    rw [dropShorthand_of_shared hhalf] at hfields
    have hplain : n₁.plain = n.plain.erase second := by
      rw [plain_congr (n := n.erase second) ⟨hplace.kind, hplace.start, hplace.stop,
        hplace.placeholder⟩ hfields, Node.plain, Node.erase, Node.bareFields_erase]
      rfl
    have hhalf' : sharedHalf? n.plain = some (second, b.bare) := by
      rw [sharedHalf?_plain, hhalf]
      rfl
    have honce : second ∉ Fields.names (Fields.erase second n.plain.fields) := by
      rw [Node.plain, ← Node.bareFields_erase, Node.names_bareFields]
      exact hpaired.not_mem_erase hshort
    have hfirst : (n₁.child? first).map Node.bare = some b.bare := by
      rw [← n₁.child?_plain, hplain, Node.child?, Node.get?, Node.erase,
        Fields.get?_erase_of_ne (first_ne_second hshort)]
      exact (n.child?_plain first).trans (congrArg _ ha)
    obtain ⟨a', ha', hbare⟩ := Option.map_eq_some_iff.mp hfirst
    have hnone : n₁.has second = false := by
      rw [Node.has, Option.isSome_eq_false_iff, Option.isNone_iff_eq_none, Node.get?,
        Fields.get?_eq_none_iff, ← Node.names_bareFields]
      change second ∉ Fields.names n₁.plain.fields
      rw [hplain]
      exact honce
    have hrestore : restoreShorthand n₁ = n₁.set second (.node a') := by
      simp [restoreShorthand, hplace.kind, hshort, hnone, ha']
    have hset : (n₁.set second (.node a')).plain = (n.plain.erase second).set second (.node b.bare) := by
      rw [← hplain, ← hbare, Node.plain, Node.set, Node.bareFields_set, Value.bare]
      rfl
    rw [hrestore, Node.bare_eq, hset, halfLast_set_erase hhalf' honce, n.bare_eq, halfLast, hhalf']

end Shorthands

def LocatedBelow (index : LineIndex) (n : Node) : Prop := ∀ m, n.Reaches m → Located index m

theorem LocatedBelow.intro {index} (h : Located index n)
    (hchildren : ∀ key ∈ n.traversalKeys, ∀ c ∈ n.nodesAt key, LocatedBelow index c) :
    LocatedBelow index n := by
  intro m hm
  cases hm with
  | refl => exact h
  | step hkey hc hm => exact hchildren _ hkey _ hc m hm

theorem childKeys?_of_shorthand {kind first second : String}
    (h : shorthandFields? kind = some (first, second)) : childKeys? kind = some [first, second] := by
  rcases shorthand_eq (n := { kind, start := 0, stop := 0 }) h with ⟨hkind, rfl, rfl⟩ | ⟨hkind, rfl, rfl⟩
  · cases hkind
    decide
  · cases hkind
    decide

theorem traversalKeys_bare (n : Node) : n.bare.traversalKeys = n.traversalKeys := by
  unfold Node.traversalKeys
  rw [(samePlace_bare n).kind]
  split
  · rfl
  · next hunknown =>
    have hplain : sharedHalf? n.plain = none := by
      cases hhalf : sharedHalf? n.plain with
      | none => rfl
      | some half =>
        obtain ⟨first, -, hshort, -⟩ := sharedHalf?_eq_some.mp hhalf
        have hkeys : childKeys? n.kind = some [first, half.1] := childKeys?_of_shorthand hshort
        rw [hkeys] at hunknown
        cases hunknown
    rw [n.bare_eq, halfLast, hplain]
    change ((Node.bareFields n.fields).filter (·.2.holdsNodes)).map (·.1) = _
    induction n.fields with
    | nil => rfl
    | cons f fs ih => by_cases hf : f.2.holdsNodes <;> simp [Node.bareFields, Value.holdsNodes_bare, hf, ih]

theorem traversalKeys_dropShorthand (n : Node) : (dropShorthand n).traversalKeys = n.traversalKeys := by
  cases hhalf : sharedHalf? n with
  | none => rw [dropShorthand_of_none hhalf]
  | some half =>
    obtain ⟨first, -, hshort, -⟩ := sharedHalf?_eq_some.mp hhalf
    rw [Node.traversalKeys, (samePlace_dropShorthand n).kind, childKeys?_of_shorthand hshort,
      Node.traversalKeys, childKeys?_of_shorthand hshort]

theorem mem_nodesAt_restoreShorthand (h : c ∈ (restoreShorthand n).nodesAt key) :
    c ∈ n.nodesAt key ∨
      ∃ first, shorthandFields? n.kind = some (first, key) ∧ c ∈ n.nodesAt first := by
  unfold restoreShorthand at h
  split at h
  · exact .inl h
  · next first second hshort =>
    split at h
    · exact .inl h
    · split at h
      · next a ha =>
        by_cases hkey : key = second
        · subst hkey
          rw [Node.nodesAt, Node.get?_set_self] at h
          refine .inr ⟨first, hshort, ?_⟩
          rw [Node.nodesAt, Node.get?_of_child? ha]
          exact h
        · rw [Node.nodesAt, Node.get?_set_of_ne hkey] at h
          exact .inl h
      · exact .inl h

theorem hasChild_of_nodesAt_dropShorthand (h : c ∈ (dropShorthand n).nodesAt key) :
    n.HasChild c := by
  obtain ⟨v, hv, hc⟩ := Node.holds_of_nodesAt h
  have hchild := Node.hasChild_of_get? hv hc
  cases hhalf : sharedHalf? n with
  | none => rwa [dropShorthand_of_none hhalf] at hchild
  | some half =>
    rw [dropShorthand_of_shared hhalf] at hchild
    exact Fields.hold_erase hchild

section Walk

variable {σ ε : Type} {f : Parent → Node → StateT σ (Except ε) Node} {before after : Node → Prop}

theorem map_bare_mapM {α : Type} {g : α → StateT σ (Except ε) α} {b : α → α} {p q : α → Prop}
    (hg : ∀ c c', p c → Yields (g c) c' → b c' = b c ∧ q c') {cs cs' : List α}
    (hcs : ∀ c ∈ cs, p c) (h : Yields (cs.mapM g) cs') : cs'.map b = cs.map b ∧ ∀ c' ∈ cs', q c' := by
  have hall := h.mapM
  clear h
  induction hall with
  | nil => simp
  | @cons c c' cs cs' hfirst _ ih =>
    obtain ⟨hc, hcs⟩ := List.forall_mem_cons.mp hcs
    obtain ⟨hbare, hafter⟩ := hg c c' hc hfirst
    obtain ⟨hrest, hall⟩ := ih hcs
    exact ⟨by simp [hbare, hrest], List.forall_mem_cons.mpr ⟨hafter, hall⟩⟩

theorem bare_mapNodesM {g : Node → StateT σ (Except ε) Node}
    (hg : ∀ c c', before c → Yields (g c) c' → c'.bare = c.bare ∧ after c')
    (hv : ∀ c ∈ v.toNodes, before c) (h : Yields (mapNodesM g v) v') :
    v'.bare = v.bare ∧ ∀ c ∈ v'.toNodes, after c := by
  cases v with
  | node c =>
    obtain ⟨c', hc', h⟩ := h.bind
    obtain ⟨hbare, hafter⟩ := hg c c' (hv c (List.mem_singleton_self c)) hc'
    rw [h.pure]
    exact ⟨by rw [Value.bare, hbare, Value.bare], by simpa [Value.toNodes] using hafter⟩
  | nodes cs =>
    obtain ⟨cs', hcs', h⟩ := h.bind
    obtain ⟨hbare, hafter⟩ := map_bare_mapM hg hv hcs'
    rw [h.pure]
    refine ⟨?_, hafter⟩
    rw [Value.bare, Value.bare, Node.bareList_eq, Node.bareList_eq, hbare, Value.toNodes]
  | sparse cs =>
    obtain ⟨cs', hcs', h⟩ := h.bind
    obtain ⟨hbare, hafter⟩ : cs'.map (Option.map Node.bare) = cs.map (Option.map Node.bare) ∧
        ∀ o ∈ cs', ∀ c, o = some c → after c := by
      refine map_bare_mapM (p := fun o => ∀ c, o = some c → before c) (fun o o' ho h => ?_)
        (fun o ho c hc => hv c (by simpa [Value.toNodes] using hc ▸ ho)) hcs'
      cases o with
      | none =>
        rw [h.pure]
        exact ⟨rfl, fun c hc => by cases hc⟩
      | some c =>
        obtain ⟨c', hc', rfl⟩ := h.map
        obtain ⟨hbare, hafter⟩ := hg c c' (ho c rfl) hc'
        refine ⟨congrArg some hbare, fun d hd => ?_⟩
        cases hd
        exact hafter
    rw [h.pure]
    refine ⟨?_, fun c hc => hafter (some c) (by simpa [Value.toNodes] using hc) c rfl⟩
    rw [Value.bare, Value.bare, Node.bareSparse_eq, Node.bareSparse_eq, hbare]
  | _ =>
    rw [h.pure]
    exact ⟨rfl, fun c hc => by cases hc⟩

section Fields

variable (hf : ∀ p c c', before c → Yields (f p c) c' → c'.bare = c.bare ∧ after c')
include hf

theorem bare_mapFieldM (hn : ∀ c ∈ n.nodesAt key, before c) (h : Yields (mapFieldM f n key) n') :
    Node.bareFields n'.fields = Node.bareFields n.fields ∧ ∀ c ∈ n'.nodesAt key, after c := by
  unfold mapFieldM at h
  unfold Node.nodesAt at hn ⊢
  cases hv : n.get? key with
  | none =>
    rw [hv] at h
    rw [h.pure, hv]
    exact ⟨rfl, fun c hc => by cases hc⟩
  | some v =>
    rw [hv] at h hn
    obtain ⟨v', hv', h⟩ := h.bind
    obtain ⟨hbare, hafter⟩ := bare_mapNodesM (hf ⟨n.kind, key⟩) hn hv'
    rw [h.pure, Node.get?_set_self]
    exact ⟨Node.bareFields_set_of_get? hv hbare, hafter⟩

theorem bare_foldlM (hafter : ∀ c, after c → before c) {keys : List String} {w : String → Prop}
    (hn : ∀ key, ∀ c ∈ n.nodesAt key, before c) (hwalked : ∀ key, w key → ∀ c ∈ n.nodesAt key, after c)
    (h : Yields (keys.foldlM (mapFieldM f) n) n') :
    Node.bareFields n'.fields = Node.bareFields n.fields ∧
      ∀ key, w key ∨ key ∈ keys → ∀ c ∈ n'.nodesAt key, after c := by
  induction keys generalizing n w with
  | nil =>
    rw [h.pure]
    exact ⟨rfl, fun key hkey => hwalked key (hkey.resolve_right (by simp))⟩
  | cons first keys ih =>
    rw [List.foldlM_cons] at h
    obtain ⟨n₁, h₁, h⟩ := h.bind
    obtain ⟨hbare, hfirst⟩ := bare_mapFieldM hf (hn first) h₁
    have hother : ∀ key ≠ first, n₁.nodesAt key = n.nodesAt key := by
      intro key hne
      rw [Node.nodesAt, get?_mapFieldM_of_ne hne h₁, Node.nodesAt]
    have hn₁ : ∀ key, ∀ c ∈ n₁.nodesAt key, before c := by
      intro key c hc
      by_cases hkey : key = first
      · exact hafter c (hfirst c (hkey ▸ hc))
      · exact hn key c (hother key hkey ▸ hc)
    have hwalked₁ : ∀ key, w key ∨ key = first → ∀ c ∈ n₁.nodesAt key, after c := by
      intro key hkey c hc
      by_cases he : key = first
      · exact hfirst c (he ▸ hc)
      · exact hwalked key (hkey.resolve_right he) c (hother key he ▸ hc)
    obtain ⟨hrest, hall⟩ := ih hn₁ hwalked₁ h
    refine ⟨hrest.trans hbare, fun key hkey => hall key ?_⟩
    rw [List.mem_cons, ← or_assoc] at hkey
    exact hkey

theorem bare_mapChildrenM (hafter : ∀ c, after c → before c) (hn : ∀ key, ∀ c ∈ n.nodesAt key, before c)
    (h : Yields (mapChildrenM f n) n') :
    Node.bareFields n'.fields = Node.bareFields n.fields ∧
      ∀ key ∈ n.traversalKeys, ∀ c ∈ n'.nodesAt key, after c := by
  obtain ⟨hbare, hall⟩ := bare_foldlM hf hafter (w := fun _ => False) hn (fun _ hw => hw.elim) h
  exact ⟨hbare, fun key hkey => hall key (.inr hkey)⟩

end Fields

end Walk

section Bare

variable {n n' : Node} {key : String}

theorem bare_of_plain (h : shorthandFields? n.kind = none) : n.bare = n.plain := by
  have hhalf : sharedHalf? n.plain = none := by
    change (shorthandFields? n.kind).bind _ = none
    rw [h]
    rfl
  rw [n.bare_eq, halfLast, hhalf]

theorem shorthandFields?_of_mem (hkey : key ∈ n.traversalKeys)
    (hother : key ∉ ["key", "value", "imported", "local"]) : shorthandFields? n.kind = none := by
  cases hshort : shorthandFields? n.kind with
  | none => rfl
  | some fields =>
    obtain ⟨first, second⟩ := fields
    rw [Node.traversalKeys, childKeys?_of_shorthand hshort] at hkey
    rcases shorthand_eq hshort with ⟨-, rfl, rfl⟩ | ⟨-, rfl, rfl⟩
    · simp_all
    · simp_all

section Same

variable (hbare : n'.bare = n.bare) (hplain : shorthandFields? n.kind = none)
include hbare hplain

theorem plain_of_bare : n'.plain = n.plain := by
  have hkind : n'.kind = n.kind := by
    rw [← (samePlace_bare n').kind, hbare, (samePlace_bare n).kind]
  rw [← bare_of_plain hplain, ← hbare, bare_of_plain (by rwa [hkind])]

theorem get?_of_bare (key : String) :
    (n'.get? key).map Value.bare = (n.get? key).map Value.bare := by
  rw [← n'.get?_plain, plain_of_bare hbare hplain, n.get?_plain]

theorem child?_of_bare (key : String) :
    (n'.child? key).map Node.bare = (n.child? key).map Node.bare := by
  rw [← n'.child?_plain, plain_of_bare hbare hplain, n.child?_plain]

theorem children_of_bare (key : String) :
    (n'.children key).map Node.bare = (n.children key).map Node.bare := by
  rw [← n'.children_plain, plain_of_bare hbare hplain, n.children_plain]

end Same

theorem statementsOf_of_bare (hbare : n'.bare = ({ n with kind := "ScriptElement" } : Node).bare)
    (hbody : ∀ content, n.child? "content" = some content → "body" ∈ content.traversalKeys) :
    (statementsOf n').map Node.bare = (statementsOf n).map Node.bare := by
  have hcontent : (n'.child? "content").map Node.bare = (n.child? "content").map Node.bare :=
    child?_of_bare hbare rfl "content"
  unfold statementsOf
  cases hc : n.child? "content" with
  | none =>
    rw [hc, Option.map_none, Option.map_eq_none_iff] at hcontent
    rw [hcontent]
  | some content =>
    rw [hc, Option.map_some] at hcontent
    obtain ⟨content', hc', hsame⟩ := Option.map_eq_some_iff.mp hcontent
    rw [hc']
    exact children_of_bare hsame (shorthandFields?_of_mem (hbody content hc) (by decide)) "body"

end Bare

end Program

end SvelteSyntax
