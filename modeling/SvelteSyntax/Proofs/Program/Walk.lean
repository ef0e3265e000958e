import SvelteSyntax.Program.Walk
import SvelteSyntax.Proofs.Run
import SvelteSyntax.Proofs.Tree.Spans

namespace SvelteSyntax

theorem Node.get?_set_self (n : Node) (key : String) (value : Value) :
    (n.set key value).get? key = some value :=
  Fields.get?_set_self key value n.fields

variable {key : String} {n c b a : Node} {v v' : Value} {α : Type}

theorem Node.get?_set_of_ne {other} (h : other ≠ key) (n : Node) (value : Value) :
    (n.set key value).get? other = n.get? other :=
  Fields.get?_set_of_ne h value n.fields

theorem Node.depth_le_depthOfFields {value fields} (h : (key, value) ∈ fields) :
    value.depth ≤ Node.depthOfFields fields := by
  induction fields with
  | nil => cases h
  | cons f fs ih =>
    rw [Node.depthOfFields]
    rcases List.mem_cons.mp h with rfl | h
    · exact Nat.le_max_left ..
    · exact Nat.le_trans (ih h) (Nat.le_max_right ..)

theorem Node.depth_le_depthOfList {ns} (h : n ∈ ns) :
    n.depth ≤ Node.depthOfList ns := by
  induction ns with
  | nil => cases h
  | cons m ns ih =>
    rw [Node.depthOfList]
    rcases List.mem_cons.mp h with rfl | h
    · exact Nat.le_max_left ..
    · exact Nat.le_trans (ih h) (Nat.le_max_right ..)

theorem Node.depth_le_depthOfSparse {ns} (h : some n ∈ ns) :
    n.depth ≤ Node.depthOfSparse ns := by
  induction ns with
  | nil => cases h
  | cons m ns ih =>
    rcases List.mem_cons.mp h with rfl | hmem
    · rw [Node.depthOfSparse]
      exact Nat.le_max_left ..
    · cases m with
      | none =>
        rw [Node.depthOfSparse]
        exact ih hmem
      | some m =>
        rw [Node.depthOfSparse]
        exact Nat.le_trans (ih hmem) (Nat.le_max_right ..)

theorem Value.depth_le_of_holds (h : v.Holds c) : c.depth ≤ v.depth := by
  induction h with
  | node =>
    have hdepth : (Value.node c).depth = c.depth := by rw [Value.depth]
    exact Nat.le_of_eq hdepth.symm
  | nodes h =>
    rw [Value.depth]
    exact Node.depth_le_depthOfList h
  | sparse h =>
    rw [Value.depth]
    exact Node.depth_le_depthOfSparse h
  | object h _ ih =>
    rw [Value.depth]
    exact Nat.le_trans ih (Node.depth_le_depthOfFields h)

theorem Node.depth_eq (n : Node) : n.depth = Node.depthOfFields n.fields + 1 := by
  cases n
  rw [Node.depth]

theorem Node.depth_pos (n : Node) : 0 < n.depth := by
  rw [Node.depth_eq]
  exact Nat.succ_pos _

theorem Node.depth_lt_of_hasChild (h : n.HasChild c) : c.depth < n.depth := by
  obtain ⟨key, v, hmem, hv⟩ := h
  have hc := Value.depth_le_of_holds hv
  have hle := Node.depth_le_depthOfFields hmem
  have hn := Node.depth_eq n
  omega

namespace Program

open Run

section Ancestry

variable {m : Type → Type} [Monad m]

def mapFieldM (f : Parent → Node → m Node) (n : Node) (key : String) : m Node :=
  match n.get? key with
  | some value => return n.set key (← mapNodesM (f ⟨n.kind, key⟩) value)
  | none => return n

/-- Changes the children of a node in the order of the walk. -/
def mapChildrenM (f : Parent → Node → m Node) (n : Node) : m Node :=
  n.traversalKeys.foldlM (mapFieldM f) n

/-- The walk of a tree in a field of a parent. -/
def Pass.withinFrom (pass : Pass m) (again : Node → m Node) : Nat → Option Parent → Node → m Node
  | 0, _, n => return n
  | depth + 1, parent, n => do
    match ← pass.enter parent n with
    | .kept n => pass.leave (← mapChildrenM (fun p c => pass.withinFrom again depth (some p) c) n)
    | .replaced n => again n

/-- The walk of a tree with what takes the place of its nodes. -/
def Pass.within [MonadExceptOf Error m] (pass : Pass m) :
    (level : Nat) → (depth : Nat) → Option Parent → Node → m Node
  | 0 => pass.withinFrom refuseNested
  | level + 1 => pass.withinFrom fun n => do
    pass.leave (← mapChildrenM (fun p c => pass.within level n.depth (some p) c) n)

variable [LawfulMonad m] {a : Ancestry}

theorem run_mapM {f : α → StateT Ancestry m α} {g : α → m α} (h : ∀ c, (f c).run a = (·, a) <$> g c)
    (cs : List α) :
    (cs.mapM f).run a = (·, a) <$> cs.mapM g := by
  induction cs with
  | nil => simp
  | cons c cs ih => simp [List.mapM_cons, h, ih]

theorem run_mapNodesM {f : Node → StateT Ancestry m Node} {g : Node → m Node}
    (h : ∀ c, (f c).run a = (·, a) <$> g c) (v : Value) :
    (mapNodesM f v).run a = (·, a) <$> mapNodesM g v := by
  cases v with
  | node c => simp [mapNodesM, h]
  | nodes cs => simp [mapNodesM, run_mapM h]
  | sparse cs =>
    unfold mapNodesM
    rw [StateT.run_bind, run_mapM (g := Option.mapM g) fun c => ?_]
    · rw [map_bind, bind_map_left]
      congr 1
      · congr 1
        funext c
        cases c <;> rfl
      · funext ns
        simp
    · cases c <;> simp [h]
  | _ => simp [mapNodesM]

section Fields

variable {f : Node → StateT Ancestry m Node} {g : Option Parent → Node → m Node}
  (h : ∀ a c, (f c).run a = (·, a) <$> g a.head? c)
include h

theorem run_walkField (a : Ancestry) (n : Node) (key : String) :
    (walkField f n key).run a = (·, a) <$> mapFieldM (fun p c => g (some p) c) n key := by
  have hinner : ∀ v, (mapNodesM f v).run (⟨n.kind, key⟩ :: a) =
      (·, ⟨n.kind, key⟩ :: a) <$> mapNodesM (g (some ⟨n.kind, key⟩)) v :=
    run_mapNodesM (h (⟨n.kind, key⟩ :: a))
  unfold walkField inField mapFieldM
  cases n.get? key with
  | none => simp
  | some v => simp [hinner]

theorem run_walkChildren (a : Ancestry) (n : Node) :
    (walkChildren f n).run a = (·, a) <$> mapChildrenM (fun p c => g (some p) c) n := by
  unfold walkChildren mapChildrenM
  induction n.traversalKeys generalizing n with
  | nil => simp
  | cons key keys ih =>
    rw [List.foldlM_cons, List.foldlM_cons, StateT.run_bind, run_walkField h]
    simp [ih]

end Fields

theorem Pass.run_visitFrom (pass : Pass m) {again : Node → StateT Ancestry m Node}
    {again' : Node → m Node} (h : ∀ a n, (again n).run a = (·, a) <$> again' n) (depth : Nat)
    (a : Ancestry) (n : Node) :
    (pass.visitFrom again depth n).run a = (·, a) <$> pass.withinFrom again' depth a.head? n := by
  induction depth generalizing a n with
  | zero => simp [visitFrom, withinFrom]
  | succ depth ih =>
    simp only [visitFrom, withinFrom, StateT.run_bind, StateT.run_get, pure_bind, map_bind]
    rw [StateT.run_monadLift]
    simp only [bind_assoc, pure_bind]
    congr 1
    funext step
    cases step with
    | kept n => simp [run_walkChildren ih]
    | replaced n => exact h a n

theorem Pass.run_visit [MonadExceptOf Error m] (pass : Pass m) (level depth : Nat) (a : Ancestry) (n : Node) :
    (pass.visit level depth n).run a = (·, a) <$> pass.within level depth a.head? n := by
  induction level generalizing depth a n with
  | zero => exact pass.run_visitFrom (by simp) depth a n
  | succ level ih =>
    refine pass.run_visitFrom (fun a n => ?_) depth a n
    simp [run_walkChildren fun a c => ih n.depth a c]

end Ancestry

/-- Every field that a walk goes into is left again, so the check at its end never fails. -/
theorem Pass.traverse_eq_within {σ : Type} (pass : Pass (StateT σ (Except Error)))
    (level depth : Nat) (n : Node) :
    pass.traverse level depth n = pass.within level depth none n := by
  simp [traverse, run_visit]

/-- Two nodes of one kind at one place. -/
structure SamePlace (n n' : Node) : Prop where
  kind : n'.kind = n.kind
  start : n'.start = n.start
  stop : n'.stop = n.stop
  placeholder : n'.placeholder = n.placeholder

namespace SamePlace

@[refl] theorem refl (n : Node) : SamePlace n n := ⟨rfl, rfl, rfl, rfl⟩

@[trans] theorem trans (hab : SamePlace a b) (hbc : SamePlace b c) : SamePlace a c :=
  ⟨hbc.kind.trans hab.kind, hbc.start.trans hab.start, hbc.stop.trans hab.stop,
    hbc.placeholder.trans hab.placeholder⟩

theorem set (n : Node) (key : String) (value : Value) : SamePlace n (n.set key value) :=
  ⟨rfl, rfl, rfl, rfl⟩

theorem erase (n : Node) (key : String) : SamePlace n (n.erase key) := ⟨rfl, rfl, rfl, rfl⟩

end SamePlace

/-- What the passes over a tree keep of a node. The root of a template becomes a program, so nothing
is said about it. -/
def Kept (n n' : Node) : Prop := n.kind ≠ "TemplateRoot" → SamePlace n n'

theorem Kept.trans (hab : Kept a b) (hbc : Kept b c) : Kept a c := by
  intro ha
  have hb := hab ha
  exact hb.trans (hbc (hb.kind ▸ ha))

theorem forall₂_kept_refl (ns : List Node) : List.Forall₂ Kept ns ns :=
  List.forall₂_same.mpr fun n _ _ => .refl n

theorem forall₂_kept_trans {as bs cs} (hab : List.Forall₂ Kept as bs)
    (hbc : List.Forall₂ Kept bs cs) : List.Forall₂ Kept as cs := by
  induction hab generalizing cs with
  | nil => exact hbc
  | cons h _ ih =>
    cases hbc with
    | cons h' hbc => exact .cons (h.trans h') (ih hbc)

structure KeptList (key : String) (n n' : Node) : Prop where
  place : SamePlace n n'
  children : List.Forall₂ Kept (n.children key) (n'.children key)
  fields : ∀ other ≠ key, n'.get? other = n.get? other

namespace KeptList

variable {key : String}

theorem of_fields {n' : Node} (hplace : SamePlace n n') (hfields : n'.fields = n.fields) :
    KeptList key n n' := by
  have hget : ∀ other, n'.get? other = n.get? other := fun other => by rw [Node.get?, hfields, Node.get?]
  have hchildren : n'.children key = n.children key := by unfold Node.children; rw [hget]
  exact ⟨hplace, hchildren ▸ forall₂_kept_refl _, fun other _ => hget other⟩

theorem refl (n : Node) : KeptList key n n := of_fields (.refl n) rfl

theorem trans (hab : KeptList key a b) (hbc : KeptList key b c) : KeptList key a c :=
  ⟨hab.place.trans hbc.place, forall₂_kept_trans hab.children hbc.children,
    fun other hne => (hbc.fields other hne).trans (hab.fields other hne)⟩

end KeptList

section Walk

variable {σ ε : Type} {f : Parent → Node → StateT σ (Except ε) Node} {n n' : Node}

section Keeps

variable {P : σ → Prop}

theorem keeps_mapNodesM {g : Node → StateT σ (Except ε) Node} (hg : ∀ c, Keeps P (g c)) (v : Value) :
    Keeps P (mapNodesM g v) := by
  cases v with
  | node c => exact .map (hg c) fun _ _ hs => hs
  | nodes cs => exact .map (.mapM fun c _ => hg c) fun _ _ hs => hs
  | sparse cs =>
    refine .map (.mapM fun c _ => ?_) fun _ _ hs => hs
    cases c with
    | none => exact .pure fun _ hs => hs
    | some c => exact .map (hg c) fun _ _ hs => hs
  | _ => exact .pure fun _ hs => hs

theorem keeps_mapFieldM (hf : ∀ p c, Keeps P (f p c)) (n : Node) (key : String) :
    Keeps P (mapFieldM f n key) := by
  unfold mapFieldM
  split
  · exact .bind (keeps_mapNodesM (hf _) _) fun _ => .pure fun _ hs => hs
  · exact .pure fun _ hs => hs

theorem keeps_mapChildrenM (hf : ∀ p c, Keeps P (f p c)) (n : Node) : Keeps P (mapChildrenM f n) :=
  .foldlM fun n key _ => keeps_mapFieldM hf n key

end Keeps

theorem holds_of_mapM {g : α → StateT σ (Except ε) α} {cs cs' : List α} {c' : α}
    (h : Yields (cs.mapM g) cs') (hc : c' ∈ cs') : ∃ c ∈ cs, Yields (g c) c' := by
  have hall := h.mapM
  clear h
  induction hall with
  | nil => cases hc
  | cons hfirst _ ih =>
    rcases List.mem_cons.mp hc with rfl | hc
    · exact ⟨_, List.mem_cons_self .., hfirst⟩
    · obtain ⟨c, hmem, hyields⟩ := ih hc
      exact ⟨c, List.mem_cons_of_mem _ hmem, hyields⟩

theorem holds_of_mapNodesM {g : Node → StateT σ (Except ε) Node} {c'}
    (h : Yields (mapNodesM g v) v') (hc : v'.Holds c') :
    v.Holds c' ∨ ∃ c, v.Holds c ∧ Yields (g c) c' := by
  cases v with
  | node c =>
    obtain ⟨d, hd, h⟩ := h.bind
    rw [h.pure, Value.holds_node] at hc
    exact .inr ⟨c, .node, hc ▸ hd⟩
  | nodes cs =>
    obtain ⟨ds, hds, h⟩ := h.bind
    rw [h.pure, Value.holds_nodes] at hc
    obtain ⟨c, hmem, hyields⟩ := holds_of_mapM hds hc
    exact .inr ⟨c, .nodes hmem, hyields⟩
  | sparse cs =>
    obtain ⟨ds, hds, h⟩ := h.bind
    rw [h.pure, Value.holds_sparse] at hc
    obtain ⟨c, hmem, hyields⟩ := holds_of_mapM hds hc
    cases c with
    | none => cases hyields.pure
    | some c =>
      obtain ⟨d, hd, he⟩ := Yields.map hyields
      cases he
      exact .inr ⟨c, .sparse hmem, hd⟩
  | _ =>
    rw [h.pure] at hc
    exact .inl hc

theorem exists_of_mapM {g : α → StateT σ (Except ε) α} {cs cs' : List α} {c : α}
    (h : Yields (cs.mapM g) cs') (hc : c ∈ cs) : ∃ c' ∈ cs', Yields (g c) c' := by
  have hall := h.mapM
  clear h
  induction hall with
  | nil => cases hc
  | cons hfirst _ ih =>
    rcases List.mem_cons.mp hc with rfl | hc
    · exact ⟨_, List.mem_cons_self .., hfirst⟩
    · obtain ⟨c', hmem, hyields⟩ := ih hc
      exact ⟨c', List.mem_cons_of_mem _ hmem, hyields⟩

theorem exists_of_mapNodesM {g : Node → StateT σ (Except ε) Node} (h : Yields (mapNodesM g v) v')
    (hc : c ∈ v.toNodes) : ∃ c' ∈ v'.toNodes, Yields (g c) c' := by
  cases v with
  | node d =>
    cases List.mem_singleton.mp hc
    obtain ⟨d', hd, h⟩ := h.bind
    rw [h.pure]
    exact ⟨d', List.mem_singleton_self d', hd⟩
  | nodes cs =>
    obtain ⟨cs', hcs, h⟩ := h.bind
    rw [h.pure]
    exact exists_of_mapM hcs hc
  | sparse cs =>
    obtain ⟨cs', hcs, h⟩ := h.bind
    rw [h.pure]
    have hmem : some c ∈ cs := by simpa [Value.toNodes] using hc
    obtain ⟨o, ho, hyields⟩ := exists_of_mapM hcs hmem
    obtain ⟨c', hc', rfl⟩ := Yields.map hyields
    exact ⟨c', by simpa [Value.toNodes] using ho, hc'⟩
  | _ => cases hc

theorem eq_of_mapM {g : α → StateT σ (Except ε) α} {cs cs' : List α} (h : Yields (cs.mapM g) cs')
    (hg : ∀ c ∈ cs, ∀ c', Yields (g c) c' → c' = c) : cs' = cs := by
  have hall := h.mapM
  clear h
  induction hall with
  | nil => rfl
  | @cons c c' cs cs' hfirst _ ih =>
    rw [hg c (List.mem_cons_self ..) c' hfirst, ih fun d hd => hg d (List.mem_cons_of_mem _ hd)]

theorem eq_of_mapNodesM {g : Node → StateT σ (Except ε) Node} (h : Yields (mapNodesM g v) v')
    (hg : ∀ c, v.Holds c → ∀ c', Yields (g c) c' → c' = c) :
    v' = v := by
  cases v with
  | node c =>
    obtain ⟨c', hc', h⟩ := h.bind
    rw [h.pure, hg c .node c' hc']
  | nodes cs =>
    obtain ⟨cs', hcs', h⟩ := h.bind
    rw [h.pure, eq_of_mapM hcs' fun c hc => hg c (.nodes hc)]
  | sparse cs =>
    obtain ⟨cs', hcs', h⟩ := h.bind
    rw [h.pure, eq_of_mapM hcs' fun o ho o' ho' => ?_]
    cases o with
    | none => exact ho'.pure
    | some c =>
      obtain ⟨c', hc', rfl⟩ := ho'.map
      rw [hg c (.sparse ho) c' hc']
  | _ => exact h.pure

theorem eq_of_mapChildrenM (h : Yields (mapChildrenM f n) n')
    (hf : ∀ p c, n.HasChild c → ∀ c', Yields (f p c) c' → c' = c) :
    n' = n := by
  unfold mapChildrenM at h
  generalize n.traversalKeys = keys at h
  induction keys with
  | nil => exact h.pure
  | cons key keys ih =>
    rw [List.foldlM_cons] at h
    obtain ⟨n₁, h₁, h⟩ := h.bind
    have hn₁ : n₁ = n := by
      unfold mapFieldM at h₁
      split at h₁
      · next v hv =>
        obtain ⟨v', hv', h₁⟩ := h₁.bind
        rw [eq_of_mapNodesM hv' fun c hc => hf _ c (Node.hasChild_of_get? hv hc)] at h₁
        rw [h₁.pure, Node.set_of_get? hv]
      · exact h₁.pure
    exact ih (hn₁ ▸ h)

theorem samePlace_mapFieldM (h : Yields (mapFieldM f n key) n') : SamePlace n n' := by
  unfold mapFieldM at h
  split at h
  · obtain ⟨v, -, h⟩ := h.bind
    cases h.pure
    exact .set n key v
  · cases h.pure
    exact .refl n

theorem fieldNames_mapFieldM (h : Yields (mapFieldM f n key) n') :
    n'.fieldNames = n.fieldNames := by
  unfold mapFieldM at h
  split at h
  · rename_i v hv
    obtain ⟨v', -, h⟩ := h.bind
    rw [h.pure, Node.fieldNames, Node.set, Fields.names_set, if_pos]
    · rfl
    · exact List.mem_map.mpr ⟨_, Fields.mem_of_get? hv, rfl⟩
  · rw [h.pure]

theorem get?_mapFieldM_of_ne {other} (hne : other ≠ key) (h : Yields (mapFieldM f n key) n') :
    n'.get? other = n.get? other := by
  unfold mapFieldM at h
  split at h
  · obtain ⟨v, -, h⟩ := h.bind
    cases h.pure
    exact Node.get?_set_of_ne hne n v
  · cases h.pure
    rfl

theorem get?_mapFieldM (h : Yields (mapFieldM f n key) n') :
    Option.Rel (fun v v' => Yields (mapNodesM (f ⟨n.kind, key⟩) v) v') (n.get? key)
      (n'.get? key) := by
  unfold mapFieldM at h
  cases hv : n.get? key with
  | none =>
    rw [hv] at h
    rw [h.pure, hv]
    exact .none
  | some v =>
    rw [hv] at h
    obtain ⟨v', hv', h⟩ := h.bind
    rw [h.pure, Node.get?_set_self]
    exact .some hv'

section Keys

variable {keys : List String}

theorem samePlace_foldlM_mapFieldM (h : Yields (keys.foldlM (mapFieldM f) n) n') :
    SamePlace n n' := by
  induction keys generalizing n with
  | nil =>
    rw [h.pure]
  | cons key keys ih =>
    rw [List.foldlM_cons] at h
    obtain ⟨n₁, h₁, h⟩ := h.bind
    exact (samePlace_mapFieldM h₁).trans (ih h)

theorem fieldNames_foldlM_mapFieldM (h : Yields (keys.foldlM (mapFieldM f) n) n') :
    n'.fieldNames = n.fieldNames := by
  induction keys generalizing n with
  | nil =>
    rw [h.pure]
  | cons key keys ih =>
    rw [List.foldlM_cons] at h
    obtain ⟨n₁, h₁, h⟩ := h.bind
    exact (ih h).trans (fieldNames_mapFieldM h₁)

theorem get?_foldlM_mapFieldM_of_not_mem (hkey : key ∉ keys)
    (h : Yields (keys.foldlM (mapFieldM f) n) n') : n'.get? key = n.get? key := by
  induction keys generalizing n with
  | nil =>
    rw [h.pure]
  | cons first keys ih =>
    rw [List.foldlM_cons] at h
    obtain ⟨n₁, h₁, h₂⟩ := h.bind
    obtain ⟨hne, hrest⟩ := List.ne_and_not_mem_of_not_mem_cons hkey
    rw [ih hrest h₂, get?_mapFieldM_of_ne hne h₁]

theorem get?_foldlM_mapFieldM (hnodup : keys.Nodup) (hkey : key ∈ keys)
    (h : Yields (keys.foldlM (mapFieldM f) n) n') :
    Option.Rel (fun v v' => Yields (mapNodesM (f ⟨n.kind, key⟩) v) v') (n.get? key)
      (n'.get? key) := by
  induction keys generalizing n with
  | nil => cases hkey
  | cons first keys ih =>
    rw [List.foldlM_cons] at h
    obtain ⟨n₁, h₁, h₂⟩ := h.bind
    obtain ⟨hfirst, hrest⟩ := List.nodup_cons.mp hnodup
    by_cases he : key = first
    · subst he
      rw [get?_foldlM_mapFieldM_of_not_mem hfirst h₂]
      exact get?_mapFieldM h₁
    · have hmem : key ∈ keys := (List.mem_cons.mp hkey).resolve_left he
      rw [← (samePlace_mapFieldM h₁).kind, ← get?_mapFieldM_of_ne he h₁]
      exact ih hrest hmem h₂

end Keys

variable (h : Yields (mapChildrenM f n) n')
include h

theorem samePlace_mapChildrenM : SamePlace n n' := samePlace_foldlM_mapFieldM h

theorem fieldNames_mapChildrenM : n'.fieldNames = n.fieldNames := fieldNames_foldlM_mapFieldM h

variable {keys : List String} (hkeys : childKeys? n.kind = some keys)
include hkeys

theorem get?_mapChildrenM_of_not_mem (hkey : key ∉ keys) :
    n'.get? key = n.get? key := by
  have htraversal : n.traversalKeys = keys := by rw [Node.traversalKeys, hkeys]
  rw [mapChildrenM, htraversal] at h
  exact get?_foldlM_mapFieldM_of_not_mem hkey h

theorem get?_mapChildrenM (hnodup : keys.Nodup) (hkey : key ∈ keys) :
    Option.Rel (fun v v' => Yields (mapNodesM (f ⟨n.kind, key⟩) v) v') (n.get? key)
      (n'.get? key) := by
  have htraversal : n.traversalKeys = keys := by rw [Node.traversalKeys, hkeys]
  rw [mapChildrenM, htraversal] at h
  exact get?_foldlM_mapFieldM hnodup hkey h

theorem children_mapChildrenM (hnodup : keys.Nodup) (hkey : key ∈ keys) :
    List.Forall₂ (fun c c' => Yields (f ⟨n.kind, key⟩ c) c') (n.children key) (n'.children key) := by
  have hget := get?_mapChildrenM h hkeys hnodup hkey
  unfold Node.children
  generalize n.get? key = v, n'.get? key = v' at hget ⊢
  cases hget with
  | none => exact .nil
  | @some v v' hv =>
    cases v with
    | nodes cs =>
      obtain ⟨cs', hcs, hv⟩ := hv.bind
      rw [hv.pure]
      exact hcs.mapM
    | node c | sparse cs =>
      obtain ⟨_, -, hv⟩ := hv.bind
      rw [hv.pure]
      exact .nil
    | _ =>
      rw [hv.pure]
      exact .nil

omit hkeys in
theorem keptList_mapChildrenM (hkeys : childKeys? n.kind = some [key])
    (hf : ∀ c c', Yields (f ⟨n.kind, key⟩ c) c' → Kept c c') : KeptList key n n' where
  place := samePlace_mapChildrenM h
  children := (children_mapChildrenM h hkeys (by simp) (by simp)).imp hf
  fields other hne := get?_mapChildrenM_of_not_mem h hkeys (by simpa using hne)

theorem child?_mapChildrenM (hnodup : keys.Nodup) (hkey : key ∈ keys) :
    Option.Rel (fun c c' => Yields (f ⟨n.kind, key⟩ c) c') (n.child? key) (n'.child? key) := by
  have hget := get?_mapChildrenM h hkeys hnodup hkey
  unfold Node.child?
  generalize n.get? key = v, n'.get? key = v' at hget ⊢
  cases hget with
  | none => exact .none
  | @some v v' hv =>
    cases v with
    | node c =>
      obtain ⟨c', hc, hv⟩ := hv.bind
      rw [hv.pure]
      exact .some hc
    | nodes cs | sparse cs =>
      obtain ⟨_, -, hv⟩ := hv.bind
      rw [hv.pure]
      exact .none
    | _ =>
      rw [hv.pure]
      exact .none

end Walk

end Program

end SvelteSyntax
