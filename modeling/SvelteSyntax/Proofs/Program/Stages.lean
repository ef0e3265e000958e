import SvelteSyntax.Proofs.Program.Convert

namespace SvelteSyntax

open Run

variable {key : String} {c c' : Node}

namespace Program

def markupKinds : List String := templateKeys.map (·.1)

def sectionKinds : List String := ["PendingBlock", "ThenBlock", "CatchBlock"]

/-- The kinds of nodes that never stand in a list. -/
def loneKinds : List String := "Fragment" :: sectionKinds

/-- The kinds of nodes that cannot do without a variable they declare. -/
def declaringKinds : List String := ["EachBlock", "Let"]

def nameFields : List (String × String) :=
  [("InlineComponent", "name"), ("Action", "name"), ("Animation", "name"), ("Transition", "name"),
   ("Let", "name"), ("EachBlock", "index"), ("EachBlock", "key"), ("ThenBlock", "value"),
   ("CatchBlock", "error")]

def scriptFields : List (String × String) :=
  embedHandlers.flatMap (fun h => h.parents.map (·, h.field)) ++ nameFields

/-- The fields for what an await block binds, before and after it is moved to the sections. -/
def awaitBindings : List (String × String) := [("AwaitBlock", "value"), ("AwaitBlock", "error")]

def sectionBindings : List (String × String) := [("ThenBlock", "value"), ("CatchBlock", "error")]

def declaredFields : List (String × String) :=
  [("EachBlock", "index"), ("EachBlock", "key")] ++ awaitBindings ++ sectionBindings

/-- The fields with one node of markup, and the kind of that node. -/
def branchFields : List (String × String × String) :=
  [("IfBlock", "else", "ElseBlock"), ("EachBlock", "else", "ElseBlock"),
   ("AwaitBlock", "pending", "PendingBlock"), ("AwaitBlock", "then", "ThenBlock"),
   ("AwaitBlock", "catch", "CatchBlock")]

/-- Whether the field of a node of markup is walked through. -/
def isWalked (kind key : String) : Bool := ((childKeys? kind).getD []).contains key

theorem isWalked_scriptFields {kind : String} (h : (kind, key) ∈ scriptFields) :
    isWalked kind key = true := by
  have hall : ∀ field ∈ scriptFields, isWalked field.1 field.2 = true := by decide
  exact hall _ h

theorem isWalked_branchFields {kind other : String} (h : (kind, key, other) ∈ branchFields) :
    isWalked kind key = true := by
  have hall : ∀ field ∈ branchFields, isWalked field.1 field.2.1 = true := by decide
  exact hall _ h

theorem exists_childKeys {kind : String} (h : kind ∈ markupKinds) :
    ∃ keys, childKeys? kind = some keys ∧ keys.Nodup := by
  have hall : ∀ kind ∈ markupKinds, (childKeys? kind).any fun keys => decide keys.Nodup := by decide
  simpa [Option.any_eq_true] using hall kind h

/-- How far a tree has come. -/
inductive Stage where
  /-- As the markup parser leaves it. -/
  | drafted
  /-- All names are identifiers. -/
  | named
  /-- All scripts are parsed. -/
  | embedded
  deriving DecidableEq

/-- A script that is still to be parsed. -/
structure Pending (n : Node) : Prop where
  placeholder : n.placeholder = true
  fields : n.fields = []
  kind : n.kind ∉ markupKinds

def Scripted (n : Node) : Prop := ∀ m, n.InTree m → m.placeholder = false ∧ m.kind ∉ markupKinds

/-- What may stand in a field for a script. -/
inductive Leaf (s : Stage) (kind key : String) (c : Node) : Prop
  | pending (hs : s ≠ .embedded) (hslot : (slot? ⟨kind, key⟩).isSome) (h : Pending c)
  | scripted (h : Scripted c)

/-- What may stand in a field of a node of markup. -/
inductive Fits (s : Stage) (kind key : String) : Value → Prop
  /-- Something that holds no nodes. -/
  | bare {v : Value} (hkey : (kind, key) ∉ declaredFields) (h : ∀ c, ¬v.Holds c) : Fits s kind key v
  | name {name : String} (hs : s = .drafted) (hkey : (kind, key) ∈ declaredFields) :
      Fits s kind key (.string name)
  | pattern {c : Node} (hs : s = .drafted) (hkey : (kind, key) ∈ awaitBindings) (h : Pending c) :
      Fits s kind key (.node c)
  | unboundYet (hs : s = .drafted) (hkey : (kind, key) ∈ awaitBindings) : Fits s kind key .null
  | unbound (hkey : (kind, key) ∈ sectionBindings) : Fits s kind key .null
  | script {c : Node} (hkey : (kind, key) ∈ scriptFields) (h : Leaf s kind key c) :
      Fits s kind key (.node c)
  | scripts {cs : List Node} (hkey : (kind, key) ∈ scriptFields) (hother : (kind, key) ∉ declaredFields)
      (h : ∀ c ∈ cs, Leaf s kind key c) : Fits s kind key (.nodes cs)
  | child {c : Node} (hkey : (kind, key, c.kind) ∈ branchFields) : Fits s kind key (.node c)
  | children {cs : List Node} (hkey : isWalked kind key) (hother : (kind, key) ∉ declaredFields)
      (h : ∀ c ∈ cs, c.kind ∈ markupKinds ∧ c.kind ∉ loneKinds) : Fits s kind key (.nodes cs)

/-- What an each block and a `let:` declare is there. A `let:` declares its expression, or else its
name, which is a plain text at first. -/
structure Declares (s : Stage) (n : Node) : Prop where
  context : n.kind = "EachBlock" → ∃ c, n.get? "context" = some (.node c)
  target : n.kind = "Let" → (∃ key ∈ ["expression", "name"], ∃ c, n.get? key = some (.node c)) ∨
    s = .drafted ∧ n.get? "expression" = some .null ∧ ∃ name, n.get? "name" = some (.string name)

structure Formed (s : Stage) (n : Node) : Prop where
  placeholder : n.placeholder = false
  kind : n.kind ∈ markupKinds
  inner : n.kind ≠ "TemplateRoot"
  names : n.fieldNames.Nodup
  fields : ∀ key v, n.get? key = some v → Fits s n.kind key v
  /-- Sections that are not written are only there at first. -/
  present : s ≠ .drafted → n.kind ∈ sectionKinds → n.flag "skip" = false
  bound : s ≠ .drafted → ∀ key, (n.kind, key) ∈ sectionBindings → n.has key
  declares : Declares s n

inductive Staged (s : Stage) : Node → Prop
  | pending {n : Node} (hs : s ≠ .embedded) (h : Pending n) : Staged s n
  | scripted {n : Node} (h : Scripted n) : Staged s n
  | markup {n : Node} (h : Formed s n) (hchildren : ∀ c, n.HasChild c → Staged s c) : Staged s n

section Scripts

variable {n m : Node}

theorem scripted_iff :
    Scripted n ↔ (n.placeholder = false ∧ n.kind ∉ markupKinds) ∧ ∀ c, n.HasChild c → Scripted c := by
  rw [Scripted, Node.forall_inTree]
  rfl

theorem Scripted.congr (h : Scripted n) (hplaceholder : m.placeholder = n.placeholder)
    (hkind : m.kind = n.kind) (hfields : m.fields = n.fields) : Scripted m := by
  obtain ⟨⟨hpending, hscript⟩, hchildren⟩ := scripted_iff.mp h
  refine scripted_iff.mpr ⟨⟨hplaceholder.trans hpending, hkind ▸ hscript⟩, fun c hc => ?_⟩
  rw [Node.HasChild, hfields] at hc
  exact hchildren c hc

theorem Scripted.set (h : Scripted n) (key : String) {v : Value} (hv : ∀ c, v.Holds c → Scripted c) :
    Scripted (n.set key v) := by
  obtain ⟨hnode, hchildren⟩ := scripted_iff.mp h
  exact scripted_iff.mpr ⟨hnode, fun c hc => (Fields.hold_set hc).elim (hv c) (hchildren c)⟩

theorem Scripted.erase (h : Scripted n) (key : String) : Scripted (n.erase key) := by
  obtain ⟨hnode, hchildren⟩ := scripted_iff.mp h
  exact scripted_iff.mpr ⟨hnode, fun c hc => hchildren c (Fields.hold_erase hc)⟩

theorem Scripted.child (h : Scripted n) (hc : n.HasChild c) : Scripted c :=
  (scripted_iff.mp h).2 c hc

theorem scripted_identifierNode (name : String) (start stop : Nat) :
    Scripted (identifierNode name start stop) := by
  refine scripted_iff.mpr ⟨⟨rfl, by simp only [identifierNode]; decide⟩, fun c hc => ?_⟩
  simp [Node.HasChild, identifierNode] at hc

variable {σ ε : Type} {f : Parent → Node → StateT σ (Except ε) Node} {n' : Node}

theorem scripted_mapChildrenM (hf : ∀ p c c', Scripted c → Yields (f p c) c' → Scripted c')
    (hn : Scripted n) (h : Yields (mapChildrenM f n) n') : Scripted n' := by
  unfold mapChildrenM at h
  generalize n.traversalKeys = keys at h
  induction keys generalizing n with
  | nil => exact h.pure ▸ hn
  | cons key keys ih =>
    rw [List.foldlM_cons] at h
    obtain ⟨n₁, h₁, h⟩ := h.bind
    refine ih ?_ h
    unfold mapFieldM at h₁
    split at h₁
    · rename_i v hv
      obtain ⟨v', hv', h₁⟩ := h₁.bind
      rw [h₁.pure]
      refine hn.set key fun c' hc' => ?_
      rcases holds_of_mapNodesM hv' hc' with hc | ⟨c, hc, hyields⟩
      · exact hn.child (Node.hasChild_of_get? hv hc)
      · exact hf _ c c' (hn.child (Node.hasChild_of_get? hv hc)) hyields
    · exact h₁.pure ▸ hn

theorem mapChildrenM_of_fields_nil (hn : n.fields = []) : mapChildrenM f n = pure n := by
  have hnone : ∀ key, n.get? key = none := fun key => by rw [Node.get?, hn]; rfl
  unfold mapChildrenM
  induction n.traversalKeys with
  | nil => rfl
  | cons key keys ih =>
    rw [List.foldlM_cons, mapFieldM, hnone, pure_bind]
    exact ih

end Scripts

section Walk

variable {σ ε : Type} {g : Node → StateT σ (Except ε) Node} {s s' : Stage} {kind key : String}
  {v v' : Value}

/-- Nodes stand only in fields that are walked through. -/
theorem Fits.walked (h : Fits s kind key v) (hs : s ≠ .drafted) (hc : v.Holds c) :
    isWalked kind key = true := by
  cases h with
  | bare _ h => exact absurd hc (h c)
  | name h | pattern h | unboundYet h => exact absurd h hs
  | unbound => exact absurd hc (by simp)
  | script hkey | scripts hkey => exact isWalked_scriptFields hkey
  | child hkey => exact isWalked_branchFields hkey
  | children hkey => exact hkey

theorem Fits.still (h : Fits s kind key v) (hs : s ≠ .drafted) (hkey : isWalked kind key = false) :
    Fits s' kind key v := by
  have hnone : ∀ c, ¬v.Holds c := fun c hc => by
    rw [h.walked hs hc] at hkey
    cases hkey
  cases h with
  | bare hother h => exact .bare hother h
  | name h | pattern h | unboundYet h => exact absurd h hs
  | unbound hkey => exact .unbound hkey
  | script | child => exact absurd .node (hnone _)
  | scripts _ hother | children _ hother => exact .bare hother hnone

theorem Fits.walk (h : Fits s kind key v) (hs : s ≠ .drafted)
    (hleaf : ∀ c c', v.Holds c → Leaf s kind key c → Yields (g c) c' → Leaf s' kind key c')
    (hkind : ∀ c c', v.Holds c → c.kind ∈ markupKinds → Yields (g c) c' → c'.kind = c.kind)
    (hmap : Yields (mapNodesM g v) v') : Fits s' kind key v' := by
  cases h with
  | bare hother h =>
    refine .bare hother fun c' hc' => ?_
    rcases holds_of_mapNodesM hmap hc' with hc | ⟨c, hc, -⟩
    · exact h c' hc
    · exact h c hc
  | name h | pattern h | unboundYet h => exact absurd h hs
  | unbound hkey =>
    cases hmap.pure
    exact .unbound hkey
  | @script c hkey h =>
    obtain ⟨c', hc', hmap⟩ := hmap.bind
    rw [hmap.pure]
    exact .script hkey (hleaf c c' .node h hc')
  | @scripts cs hkey hother h =>
    obtain ⟨cs', hcs', hmap⟩ := hmap.bind
    rw [hmap.pure]
    refine .scripts hkey hother fun c' hc' => ?_
    obtain ⟨c, hc, hyields⟩ := holds_of_mapM hcs' hc'
    exact hleaf c c' (.nodes hc) (h c hc) hyields
  | @child c hkey =>
    obtain ⟨c', hc', hmap⟩ := hmap.bind
    rw [hmap.pure]
    have hall : ∀ field ∈ branchFields, field.2.2 ∈ markupKinds := by decide
    refine .child ?_
    rw [hkind c c' .node (hall _ hkey) hc']
    exact hkey
  | @children cs hkey hother h =>
    obtain ⟨cs', hcs', hmap⟩ := hmap.bind
    rw [hmap.pure]
    refine .children hkey hother fun c' hc' => ?_
    obtain ⟨c, hc, hyields⟩ := holds_of_mapM hcs' hc'
    rw [hkind c c' (.nodes hc) (h c hc).1 hyields]
    exact h c hc

theorem Fits.holds_of_walk (h : Fits s kind key v) (hs : s ≠ .drafted) (hmap : Yields (mapNodesM g v) v')
    (hc' : v'.Holds c') :
    ∃ c, v.Holds c ∧ Yields (g c) c' := by
  rcases holds_of_mapNodesM hmap hc' with hc | hc
  · cases h with
    | bare _ h => exact absurd hc (h c')
    | name h | pattern h | unboundYet h => exact absurd h hs
    | unbound => exact absurd hc (by simp)
    | script | child =>
      obtain ⟨d, hd, hmap⟩ := hmap.bind
      rw [hmap.pure, Value.holds_node] at hc'
      exact ⟨_, .node, hc' ▸ hd⟩
    | scripts | children =>
      obtain ⟨ds, hds, hmap⟩ := hmap.bind
      rw [hmap.pure, Value.holds_nodes] at hc'
      obtain ⟨c, hc, hyields⟩ := holds_of_mapM hds hc'
      exact ⟨c, .nodes hc, hyields⟩
  · exact hc

variable {f : Parent → Node → StateT σ (Except ε) Node} {n n' : Node}

theorem get?_of_walk (hkind : n.kind ∈ markupKinds) (hmap : Yields (mapChildrenM f n) n')
    (key : String) :
    (isWalked n.kind key = false ∧ n'.get? key = n.get? key) ∨
      Option.Rel (fun v v' => Yields (mapNodesM (f ⟨n.kind, key⟩) v) v') (n.get? key) (n'.get? key) := by
  obtain ⟨keys, hkeys, hnodup⟩ := exists_childKeys hkind
  by_cases hkey : key ∈ keys
  · exact .inr (get?_mapChildrenM hmap hkeys hnodup hkey)
  · refine .inl ⟨?_, get?_mapChildrenM_of_not_mem hmap hkeys hkey⟩
    simp [isWalked, hkeys, hkey]

theorem Declares.of_other (h : n.kind ∉ declaringKinds) : Declares s n := by
  simp only [declaringKinds, List.mem_cons, List.not_mem_nil, or_false, not_or] at h
  exact ⟨fun hkind => absurd hkind h.1, fun hkind => absurd hkind h.2⟩

theorem Declares.congr (h : Declares s n) (hs : s ≠ .drafted) (hkind : n'.kind = n.kind)
    (hget : ∀ key c, n.get? key = some (.node c) → ∃ c', n'.get? key = some (.node c')) :
    Declares s' n' where
  context := fun he => by
    obtain ⟨c, hc⟩ := h.context (hkind ▸ he)
    exact hget _ c hc
  target := fun he => by
    rcases h.target (hkind ▸ he) with ⟨key, hkey, c, hc⟩ | ⟨hdrafted, -⟩
    · exact .inl ⟨key, hkey, hget key c hc⟩
    · exact absurd hdrafted hs

theorem Formed.walk (h : Formed s n) (hs : s ≠ .drafted)
    (hleaf : ∀ key c c', n.HasChild c → Leaf s n.kind key c → Yields (f ⟨n.kind, key⟩ c) c' →
      Leaf s' n.kind key c')
    (hkind : ∀ p c c', n.HasChild c → c.kind ∈ markupKinds → Yields (f p c) c' → c'.kind = c.kind)
    (hmap : Yields (mapChildrenM f n) n') : Formed s' n' := by
  have hplace := samePlace_mapChildrenM hmap
  refine
    { placeholder := hplace.placeholder.trans h.placeholder
      kind := hplace.kind ▸ h.kind
      inner := hplace.kind ▸ h.inner
      names := fieldNames_mapChildrenM hmap ▸ h.names
      fields := fun key v' hv' => ?_
      present := fun _ hsection => ?_
      bound := fun _ key hkey => ?_
      declares := h.declares.congr hs hplace.kind fun key c hc => ?_ }
  · rw [hplace.kind]
    rcases get?_of_walk h.kind hmap key with ⟨hkey, hsame⟩ | hrel
    · exact (h.fields key v' (hsame ▸ hv')).still hs hkey
    · rw [hv'] at hrel
      generalize hv : n.get? key = v at hrel
      cases hrel with
      | some hvalue =>
        refine (h.fields key _ hv).walk hs (fun c c' hc => ?_) (fun c c' hc => ?_) hvalue
        · exact hleaf key c c' (Node.hasChild_of_get? hv hc)
        · exact hkind _ c c' (Node.hasChild_of_get? hv hc)
  · rw [hplace.kind] at hsection
    have hskip : isWalked n.kind "skip" = false := by
      simp only [sectionKinds, List.mem_cons, List.not_mem_nil, or_false] at hsection
      rcases hsection with hk | hk | hk <;> rw [hk] <;> decide
    have hsame : n'.get? "skip" = n.get? "skip" := by
      rcases get?_of_walk h.kind hmap "skip" with ⟨-, hsame⟩ | hrel
      · exact hsame
      · obtain ⟨keys, hkeys, -⟩ := exists_childKeys h.kind
        refine get?_mapChildrenM_of_not_mem hmap hkeys fun hmem => ?_
        simp [isWalked, hkeys, hmem] at hskip
    rw [Node.flag, hsame]
    exact h.present hs hsection
  · rw [hplace.kind] at hkey
    have hhas := h.bound hs key hkey
    rw [Node.has] at hhas ⊢
    rcases get?_of_walk h.kind hmap key with ⟨-, hsame⟩ | hrel
    · rw [hsame]
      exact hhas
    · generalize n.get? key = v, n'.get? key = v' at hhas hrel ⊢
      cases hrel with
      | none => cases hhas
      | some => rfl
  · rcases get?_of_walk h.kind hmap key with ⟨-, hsame⟩ | hrel
    · exact ⟨c, hsame.trans hc⟩
    · rw [hc] at hrel
      generalize n'.get? key = v' at hrel ⊢
      cases hrel with
      | some hvalue =>
        obtain ⟨c', -, hvalue⟩ := hvalue.bind
        exact ⟨c', congrArg some hvalue.pure⟩

theorem Formed.child_of_walk (h : Formed s n) (hs : s ≠ .drafted) (hmap : Yields (mapChildrenM f n) n')
    (hc' : n'.HasChild c') :
    ∃ key v c, n.get? key = some v ∧ v.Holds c ∧ Yields (f ⟨n.kind, key⟩ c) c' := by
  obtain ⟨key, v', hmem, hheld⟩ := hc'
  have hnames : n'.fieldNames.Nodup := fieldNames_mapChildrenM hmap ▸ h.names
  have hv' : n'.get? key = some v' := Fields.get?_of_mem hnames hmem
  rcases get?_of_walk h.kind hmap key with ⟨hkey, hsame⟩ | hrel
  · rw [hsame] at hv'
    rw [(h.fields key v' hv').walked hs hheld] at hkey
    cases hkey
  · rw [hv'] at hrel
    generalize hv : n.get? key = v at hrel
    cases hrel with
    | some hvalue =>
      obtain ⟨c, hc, hyields⟩ := (h.fields key _ hv).holds_of_walk hs hvalue hheld
      exact ⟨key, _, c, hv, hc, hyields⟩

end Walk

end Program

end SvelteSyntax
