import SvelteSyntax.Proofs.Tree.Fields
import SvelteSyntax.Tree.Node

namespace SvelteSyntax

inductive Value.Holds (c : Node) : Value → Prop
  | node : Holds c (.node c)
  | nodes {ns} (h : c ∈ ns) : Holds c (.nodes ns)
  | sparse {ns} (h : some c ∈ ns) : Holds c (.sparse ns)
  | object {entries key v} (h : (key, v) ∈ entries) (hv : Holds c v) : Holds c (.object entries)

def Fields.Hold (c : Node) (fields : List (String × Value)) : Prop :=
  ∃ key v, (key, v) ∈ fields ∧ v.Holds c

def Node.HasChild (n c : Node) : Prop := Fields.Hold c n.fields

/-- The node itself, its children, their children and so on. -/
inductive Node.InTree (root : Node) : Node → Prop
  | root : InTree root root
  | child {n c} (h : InTree root n) (hc : n.HasChild c) : InTree root c

variable {ns : List Node} {c n : Node} {key : String} {fs : List (String × Value)} {v : Value}
  {hi lo : Nat}

namespace Value

variable {c n : Node}

@[simp] theorem holds_node : (Value.node n).Holds c ↔ c = n := by
  constructor
  · rintro ⟨⟩
    rfl
  · rintro rfl
    exact .node

@[simp] theorem holds_nodes : (Value.nodes ns).Holds c ↔ c ∈ ns :=
  ⟨fun h => by cases h; assumption, .nodes⟩

@[simp] theorem holds_sparse {ns : List (Option Node)} : (Value.sparse ns).Holds c ↔ some c ∈ ns :=
  ⟨fun h => by cases h; assumption, .sparse⟩

@[simp] theorem holds_object {entries} :
    (Value.object entries).Holds c ↔ Fields.Hold c entries :=
  ⟨fun h => by cases h with | object h hv => exact ⟨_, _, h, hv⟩, fun ⟨_, _, h, hv⟩ => .object h hv⟩

@[simp] theorem not_holds_null : ¬Value.null.Holds c := nofun

@[simp] theorem not_holds_bool {b} : ¬(Value.bool b).Holds c := nofun

@[simp] theorem not_holds_number {d} : ¬(Value.number d).Holds c := nofun

@[simp] theorem not_holds_string {s} : ¬(Value.string s).Holds c := nofun

@[simp] theorem not_holds_strings {ss} : ¬(Value.strings ss).Holds c := nofun

@[simp] theorem holds_ofOption {e} : (Value.ofOption e).Holds c ↔ e = some c := by
  cases e with
  | none => simp [ofOption]
  | some e => simp [ofOption, eq_comm]

end Value

namespace Fields

variable {c : Node} {fs gs : List (String × Value)}

@[simp] theorem hold_nil : ¬Hold c [] := by
  rintro ⟨key, v, h, -⟩
  cases h

@[simp] theorem hold_cons {f} : Hold c (f :: fs) ↔ f.2.Holds c ∨ Hold c fs := by
  constructor
  · rintro ⟨key, v, h, hv⟩
    rcases List.mem_cons.mp h with rfl | h
    · exact .inl hv
    · exact .inr ⟨key, v, h, hv⟩
  · rintro (h | ⟨key, v, h, hv⟩)
    · exact ⟨f.1, f.2, by simp, h⟩
    · exact ⟨key, v, .tail f h, hv⟩

/-- All the fields have the property. -/
def All (motive : String → Value → Prop) (fields : List (String × Value)) : Prop :=
  ∀ f ∈ fields, motive f.1 f.2

namespace All

variable {motive : String → Value → Prop}

theorem nil : All motive [] := by simp [All]

theorem cons (h : motive key v) (hs : All motive fs) : All motive ((key, v) :: fs) :=
  List.forall_mem_cons.mpr ⟨h, hs⟩

theorem one (h : motive key v) : All motive [(key, v)] := cons h nil

theorem append (h : All motive fs) (h' : All motive gs) : All motive (fs ++ gs) :=
  List.forall_mem_append.mpr ⟨h, h'⟩

end All

end Fields

theorem Fields.hold_set (h : Fields.Hold c (Fields.set key v fs)) : v.Holds c ∨ Fields.Hold c fs := by
  obtain ⟨k, u, hmem, hu⟩ := h
  rcases Fields.mem_set hmem with he | hmem
  · cases he
    exact .inl hu
  · exact .inr ⟨k, u, hmem, hu⟩

theorem Fields.hold_erase (h : Fields.Hold c (Fields.erase key fs)) : Fields.Hold c fs := by
  obtain ⟨k, u, hmem, hu⟩ := h
  exact ⟨k, u, (Fields.erase_sublist key fs).subset hmem, hu⟩

theorem Fields.hold_rename {old new} (h : Fields.Hold c (Fields.rename old new fs)) :
    Fields.Hold c fs := by
  induction fs with
  | nil => exact h
  | cons f fs ih =>
    rw [Fields.rename] at h
    split at h
    · simpa using h
    · rw [Fields.hold_cons] at h ⊢
      exact h.imp_right ih

theorem Node.set_of_get? (h : n.get? key = some v) :
    n.set key v = n := by
  rw [Node.set, Fields.set_of_get? h]
  cases n
  rfl

theorem Node.hasChild_of_child? (h : n.child? key = some c) :
    n.HasChild c := by
  obtain ⟨v, hget, hv⟩ := Option.bind_eq_some_iff.mp h
  refine ⟨key, v, Fields.mem_of_get? hget, ?_⟩
  cases v with
  | node m =>
    cases hv
    exact .node
  | _ => cases hv

theorem Node.hasChild_of_get? (h : n.get? key = some v) (hv : v.Holds c) : n.HasChild c :=
  ⟨key, v, Fields.mem_of_get? h, hv⟩

theorem Node.holds_of_nodesAt (hc : c ∈ n.nodesAt key) :
    ∃ v, n.get? key = some v ∧ v.Holds c := by
  unfold Node.nodesAt at hc
  cases hv : n.get? key with
  | none => simp [hv] at hc
  | some v =>
    rw [hv, Option.map_some, Option.getD_some] at hc
    refine ⟨v, rfl, ?_⟩
    cases v with
    | node m =>
      cases List.mem_singleton.mp hc
      exact .node
    | nodes ns => exact .nodes hc
    | sparse ns => exact .sparse (by simpa [Value.toNodes] using hc)
    | _ => cases hc

theorem Node.hasChild_of_children (hc : c ∈ n.children key) :
    n.HasChild c := by
  unfold Node.children at hc
  split at hc
  · next hget => exact Node.hasChild_of_get? hget (.nodes hc)
  · cases hc

theorem Node.forall_inTree {p : Node → Prop} :
    (∀ m, n.InTree m → p m) ↔ p n ∧ ∀ c, n.HasChild c → ∀ m, c.InTree m → p m := by
  constructor
  · refine fun h => ⟨h n .root, fun c hc m hm => h m ?_⟩
    clear h
    induction hm with
    | root => exact .child .root hc
    | child _ hchild ih => exact .child ih hchild
  · rintro ⟨hroot, hchildren⟩ m hm
    suffices m = n ∨ ∃ c, n.HasChild c ∧ c.InTree m by
      rcases this with rfl | ⟨c, hc, hm⟩
      · exact hroot
      · exact hchildren c hc m hm
    clear hroot hchildren
    induction hm with
    | root => exact .inl rfl
    | child _ hchild ih =>
      rcases ih with rfl | ⟨c, hc, hm⟩
      · exact .inr ⟨_, hchild, .root⟩
      · exact .inr ⟨c, hc, .child hm hchild⟩

/-- The nodes stand one after the other from one offset to another, without gaps. -/
def Tiles : Nat → Nat → List Node → Prop
  | lo, hi, [] => lo = hi
  | lo, hi, n :: ns => n.start = lo ∧ n.start < n.stop ∧ Tiles n.stop hi ns

/-- The nodes stand one after the other between two offsets. -/
def InOrder : Nat → Nat → List Node → Prop
  | lo, hi, [] => lo ≤ hi
  | lo, hi, n :: ns => lo ≤ n.start ∧ n.start < n.stop ∧ InOrder n.stop hi ns

/-- The span of one node lies in that of the other. -/
structure Node.Inside (c n : Node) : Prop where
  start : n.start ≤ c.start
  order : c.start ≤ c.stop
  stop : c.stop ≤ n.stop

/-- The span of a node is one, those of its children lie in it, and those in a list come one after
the other. -/
structure Node.Exact (n : Node) : Prop where
  order : n.start ≤ n.stop
  inside : ∀ c, n.HasChild c → c.Inside n
  listed : ∀ key ns, (key, .nodes ns) ∈ n.fields → InOrder n.start n.stop ns

theorem Node.Inside.trans {a b : Node} (h : a.Inside b) (h' : b.Inside c) : a.Inside c :=
  ⟨Nat.le_trans h'.start h.start, h.order, Nat.le_trans h.stop h'.stop⟩

theorem InOrder.le (h : InOrder lo hi ns) : lo ≤ hi := by
  induction ns generalizing lo with
  | nil => exact h
  | cons n ns ih =>
    have := ih h.2.2
    have := h.1
    have := h.2.1
    omega

theorem InOrder.mono {lo' hi'} (h : InOrder lo hi ns) (hlo : lo' ≤ lo) (hhi : hi ≤ hi') :
    InOrder lo' hi' ns := by
  induction ns generalizing lo lo' with
  | nil => exact Nat.le_trans hlo (Nat.le_trans h hhi)
  | cons n ns ih => exact ⟨Nat.le_trans hlo h.1, h.2.1, ih h.2.2 (Nat.le_refl _)⟩

theorem InOrder.sublist {ms} (h : InOrder lo hi ns) (hsub : ms.Sublist ns) :
    InOrder lo hi ms := by
  induction hsub generalizing lo with
  | slnil => exact h
  | cons n _ ih => exact (ih h.2.2).mono (by have := h.1; have := h.2.1; omega) (Nat.le_refl _)
  | cons_cons n _ ih => exact ⟨h.1, h.2.1, ih h.2.2⟩

theorem InOrder.mem (h : InOrder lo hi ns) (hn : n ∈ ns) :
    lo ≤ n.start ∧ n.start < n.stop ∧ n.stop ≤ hi := by
  induction ns generalizing lo with
  | nil => cases hn
  | cons m ns ih =>
    rcases List.mem_cons.mp hn with rfl | hn
    · exact ⟨h.1, h.2.1, h.2.2.le⟩
    · have := ih h.2.2 hn
      have := h.1
      have := h.2.1
      omega

theorem InOrder.toLast (h : InOrder lo hi ns) :
    InOrder lo ((ns.getLast?.map (·.stop)).getD lo) ns := by
  induction ns generalizing lo with
  | nil => exact Nat.le_refl _
  | cons n ns ih =>
    refine ⟨h.1, h.2.1, ?_⟩
    have hrest := ih h.2.2
    cases ns with
    | nil => exact Nat.le_refl _
    | cons m ns => rwa [List.getLast?_cons_cons]

theorem Tiles.inOrder (h : Tiles lo hi ns) : InOrder lo hi ns := by
  induction ns generalizing lo with
  | nil => exact Nat.le_of_eq h
  | cons n ns ih => exact ⟨Nat.le_of_eq h.1.symm, h.2.1, ih h.2.2⟩

end SvelteSyntax
