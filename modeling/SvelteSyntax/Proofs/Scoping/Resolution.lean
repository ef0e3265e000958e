import SvelteSyntax.Proofs.Scoping.Built
import SvelteSyntax.Scoping.Reconcile

namespace SvelteSyntax.Scoping

variable {g g' : Graph} {a c b : ScopeId} {name : String} {i : ReferenceId} {r : Reference}
  {opens : List ScopeId} {s : Scope}

theorem lookupWithin_eq (hg : Rooted g) (name : String) {m n id} (hm : id < m) (hn : id < n) :
    g.lookupWithin name m id = g.lookupWithin name n id := by
  induction m generalizing n id with
  | zero => omega
  | succ m ih =>
    obtain ⟨n, rfl⟩ : ∃ k, n = k + 1 := ⟨n - 1, by omega⟩
    simp only [Graph.lookupWithin]
    cases hs : g.scopeAt? id with
    | none => rfl
    | some s =>
      dsimp only
      cases hp : s.parent with
      | none => rfl
      | some p =>
        have hlt : p < id := (hg id s hs).1 p hp
        simp only [Option.bind_some]
        rw [ih (Nat.lt_of_lt_of_le hlt (Nat.le_of_lt_succ hm))
          (Nat.lt_of_lt_of_le hlt (Nat.le_of_lt_succ hn))]

theorem lookup?_eq (hg : Rooted g) (id : ScopeId) (name : String) :
    g.lookup? id name = (g.variableIn? id name).or ((g.parent? id).bind (g.lookup? · name)) := by
  unfold Graph.lookup? Graph.variableIn? Graph.parent?
  rw [Graph.lookupWithin]
  cases hs : g.scopeAt? id with
  | none => rfl
  | some s =>
    simp only [Option.bind_some]
    cases Fields.get? name s.names with
    | some v => rfl
    | none =>
      cases hp : s.parent with
      | none => rfl
      | some p =>
        have hlt : p < id := (hg id s hs).1 p hp
        exact lookupWithin_eq hg name hlt (Nat.lt_succ_self p)

inductive Clear (g : Graph) (opens : List ScopeId) (name : String) : ScopeId → ScopeId → Prop
  | refl (a : ScopeId) : Clear g opens name a a
  | up {a p b} (hp : g.parent? a = some p) (hn : g.variableIn? a name = none)
    (ha : a ∉ opens) (h : Clear g opens name p b) : Clear g opens name a b

namespace Clear

variable {g g' : Graph} {opens opens' : List ScopeId} {name : String} {a b : ScopeId}

theorem lookup?_eq (hg : Rooted g) (h : Clear g opens name a b) :
    g.lookup? a name = g.lookup? b name := by
  induction h with
  | refl a => rfl
  | up hp hn _ _ ih => rw [Scoping.lookup?_eq hg, hn, hp, Option.none_or, Option.bind_some, ih]

theorem trans (h : Clear g opens name a b) (h' : Clear g opens name b c) :
    Clear g opens name a c := by
  induction h with
  | refl a => exact h'
  | up hp hn ha _ ih => exact up hp hn ha (ih h')

theorem mono (hstep : ∀ x p, x ∉ opens → g.parent? x = some p → g.variableIn? x name = none →
      g'.parent? x = some p ∧ g'.variableIn? x name = none ∧ x ∉ opens')
    (h : Clear g opens name a b) : Clear g' opens' name a b := by
  induction h with
  | refl a => exact refl a
  | up hp hn ha _ ih =>
    obtain ⟨hp', hn', ha'⟩ := hstep _ _ ha hp hn
    exact up hp' hn' ha' ih

/-- There is only one open scope at the end of a clear way. -/
theorem unique (h : Clear g opens name a b) (hb : b ∈ opens) (h' : Clear g opens name a c)
    (hc : c ∈ opens) : b = c := by
  induction h with
  | refl a =>
    cases h' with
    | refl => rfl
    | up _ _ ha _ => exact absurd hb ha
  | up hp _ ha _ ih =>
    cases h' with
    | refl => exact absurd hc ha
    | up hp' _ _ h' =>
      cases Option.some.inj (hp.symm.trans hp')
      exact ih hb h'

end Clear

/-- Where a reference stands: it waits in an open scope, it was resolved in a closed one, or the
global scope has closed without a variable for it. -/
inductive Standing (g : Graph) (opens : List ScopeId) (i : ReferenceId) (r : Reference) : Prop
  | waiting {x} (hc : Clear g opens r.name r.scope x) (hx : x ∈ opens)
    (hl : i ∈ g.leftOf x) (hr : r.resolved = none)
  | resolved {x v} (hc : Clear g opens r.name r.scope x) (hx : x ∉ opens)
    (hv : g.variableIn? x r.name = some v) (hr : r.resolved = some v)
  | unfound (hc : Clear g opens r.name r.scope Graph.globalScope) (hx : Graph.globalScope ∉ opens)
    (hv : g.variableIn? Graph.globalScope r.name = none) (hr : r.resolved = none)
    (ht : i ∈ g.throughOf Graph.globalScope)

def Registered (g : Graph) : Prop :=
  (∀ x name v, g.variableIn? x name = some v →
    ∃ w, g.variableAt? v = some w ∧ w.name = name ∧ w.scope = x) ∧
  ∀ x s, g.scopeAt? x = some s → (Fields.names s.names).Nodup

structure Sound (opens : List ScopeId) (g : Graph) : Prop where
  standing : ∀ i r, g.referenceAt? i = some r → Standing g opens i r
  left : ∀ x, ∀ i ∈ g.leftOf x, ∃ r, g.referenceAt? i = some r ∧ r.resolved = none ∧ x ∈ opens ∧
    Clear g opens r.name r.scope x
  leftNodup : ∀ x, (g.leftOf x).Nodup
  through : ∀ i ∈ g.throughOf Graph.globalScope, Graph.globalScope ∉ opens ∧
    ∃ r, g.referenceAt? i = some r ∧ r.resolved = none
  throughNodup : (g.throughOf Graph.globalScope).Nodup

structure Frame (opens opens' : List ScopeId) (g g' : Graph) : Prop where
  references : ∀ i, g'.referenceAt? i = g.referenceAt? i
  left : ∀ x, g'.leftOf x = g.leftOf x
  through : ∀ x, g'.throughOf x = g.throughOf x
  stays : ∀ x ∈ opens, x ∈ opens'
  closed : ∀ x s, g.scopeAt? x = some s → x ∉ opens →
    x ∉ opens' ∧ g'.parent? x = g.parent? x ∧ g'.variableIn? x = g.variableIn? x

namespace Frame

variable {opens opens' : List ScopeId} {g g' : Graph} (f : Frame opens opens' g g')
include f

theorem clear (h : Clear g opens name a b) :
    Clear g' opens' name a b := by
  refine h.mono fun x p hx hp hn => ?_
  obtain ⟨s, hs, -⟩ := Graph.parent?_eq_some.mp hp
  obtain ⟨hx', hp', hn'⟩ := f.closed x s hs hx
  exact ⟨hp' ▸ hp, hn' ▸ hn, hx'⟩

theorem standing (h : Standing g opens i r) :
    Standing g' opens' i r := by
  cases h with
  | waiting hc hx hl hr => exact .waiting (f.clear hc) (f.stays _ hx) ((f.left _).symm ▸ hl) hr
  | resolved hc hx hv hr =>
    obtain ⟨s, hs, -⟩ := Graph.variableIn?_eq_some.mp hv
    obtain ⟨hx', -, hn⟩ := f.closed _ s hs hx
    exact .resolved (f.clear hc) hx' (hn ▸ hv) hr
  | unfound hc hx hv hr ht =>
    obtain ⟨s, hs, -⟩ := Graph.exists_scope_of_throughOf ht
    obtain ⟨hx', -, hn⟩ := f.closed _ s hs hx
    exact .unfound (f.clear hc) hx' (hn ▸ hv) hr ((f.through _).symm ▸ ht)

theorem sound (h : Sound opens g) : Sound opens' g' where
  standing i r hr := f.standing (h.standing i r (f.references i ▸ hr))
  left x i hi := by
    rw [f.left] at hi
    obtain ⟨r, hr, hn, hx, hc⟩ := h.left x i hi
    exact ⟨r, (f.references i).symm ▸ hr, hn, f.stays x hx, f.clear hc⟩
  leftNodup x := f.left x ▸ h.leftNodup x
  through i hi := by
    rw [f.through] at hi
    obtain ⟨hx, r, hr, hn⟩ := h.through i hi
    obtain ⟨s, hs, -⟩ := Graph.exists_scope_of_throughOf hi
    exact ⟨(f.closed _ s hs hx).1, r, (f.references i).symm ▸ hr, hn⟩
  throughNodup := f.through _ ▸ h.throughNodup

end Frame

section Steps

variable {g : Graph} {current : ScopeId} {outer opens : List ScopeId}

theorem frame_pushScope (hg : Nested g (current :: outer)) (kind : ScopeKind) (blockKind : String)
    (blockStart : Nat) :
    Frame (current :: outer) (g.scopes.length :: current :: outer) g
      (g.pushScope kind (some current) blockKind blockStart) := by
  obtain ⟨s, hs⟩ := hg.exists_scope (List.mem_cons_self ..)
  have hne : some current ≠ some g.scopes.length := by
    intro he
    exact Nat.ne_of_lt (Graph.scopeAt?_lt hs) (Option.some.inj he)
  refine ⟨by simp, by simp [Graph.leftOf_pushScope _ _ hne],
    by simp [Graph.throughOf_pushScope _ _ hne], fun x hx => List.mem_cons_of_mem _ hx, ?_⟩
  intro x t ht hx
  have hx' : x ≠ g.scopes.length := Nat.ne_of_lt (Graph.scopeAt?_lt ht)
  refine ⟨fun hm => ?_, ?_, by rw [Graph.variableIn?_pushScope _ _ hne]⟩
  · rcases List.mem_cons.mp hm with h | h
    · exact hx' h
    · exact hx h
  · rw [Graph.parent?_pushScope _ _ hne, if_neg hx']

theorem frame_declare {scope} (hn : Nested g opens) (hscope : scope ∈ opens) (name : String)
    (d : Definition) : Frame opens opens g (g.declare scope name d).2 := by
  obtain ⟨s, hs⟩ := hn.exists_scope hscope
  refine ⟨by simp, by simp [Graph.leftOf_declare], by simp [Graph.throughOf_declare],
    fun x hx => hx, fun x t ht hx => ⟨hx, by rw [Graph.parent?_declare], ?_⟩⟩
  funext n
  have hne : x ≠ scope := fun h => hx (h ▸ hscope)
  rw [Graph.variableIn?_declare hs, if_neg fun h => hne h.1]

theorem frame_modifyVariable (v : VariableId) (f : Variable → Variable) :
    Frame opens opens g (g.modifyVariable v f) :=
  ⟨fun _ => rfl, fun _ => rfl, fun _ => rfl, fun _ hx => hx, fun _ _ _ hx => ⟨hx, rfl, rfl⟩⟩

theorem Sound.addReference (h : Sound (current :: outer) g) (hn : Nested g (current :: outer))
    (name : String) (start stop : Nat) (access : Access) (init : Bool) :
    Sound (current :: outer) (g.addReference current name start stop access init) := by
  obtain ⟨s, hs⟩ := hn.exists_scope (List.mem_cons_self ..)
  have href := Graph.referenceAt?_addReference g current name start stop access init
  have hleft := Graph.leftOf_addReference g current name start stop access init hs
  have hnew : g.referenceAt? g.references.length = none := List.getElem?_eq_none (Nat.le_refl _)
  have hold : ∀ i r, g.referenceAt? i = some r →
      (g.addReference current name start stop access init).referenceAt? i = some r := by
    intro i r hr
    have hi : i ≠ g.references.length := fun hi => by simp [hi, hnew] at hr
    rw [href, if_neg hi, hr]
  have hclear : ∀ {n a b}, Clear g (current :: outer) n a b →
      Clear (g.addReference current name start stop access init) (current :: outer) n a b :=
    fun hc => hc.mono fun x p hx hp hn => ⟨by simpa using hp, by simpa using hn, hx⟩
  constructor
  · intro i r hr
    rw [href] at hr
    split at hr
    · rename_i hi
      cases hr
      refine .waiting (x := current) (.refl _) (List.mem_cons_self ..) ?_ rfl
      simp [hleft, hi]
    · cases h.standing i r hr with
      | waiting hc hx hl hr =>
        refine .waiting (hclear hc) hx ?_ hr
        rw [hleft]
        split
        · exact List.mem_append_left _ hl
        · exact hl
      | resolved hc hx hv hr => exact .resolved (hclear hc) hx (by simpa using hv) hr
      | unfound hc hx hv hr ht =>
        exact .unfound (hclear hc) hx (by simpa using hv) hr (by simpa using ht)
  · intro x i hi
    have hcases : i ∈ g.leftOf x ∨ x = current ∧ i = g.references.length := by
      rw [hleft] at hi
      split at hi
      · rename_i hx
        simpa [hx] using hi
      · exact .inl hi
    rcases hcases with hi | ⟨rfl, rfl⟩
    · obtain ⟨r, hr, hn, hx, hc⟩ := h.left x i hi
      exact ⟨r, hold i r hr, hn, hx, hclear hc⟩
    · exact ⟨_, by rw [href, if_pos rfl], rfl, List.mem_cons_self .., .refl _⟩
  · intro x
    rw [hleft]
    split
    · have hfresh : g.references.length ∉ g.leftOf x := by
        intro hi
        obtain ⟨r, hr, -⟩ := h.left x _ hi
        simp [hnew] at hr
      simp [List.nodup_append, h.leftNodup x]
      exact fun i hi he => hfresh (he ▸ hi)
    · exact h.leftNodup x
  · intro i hi
    obtain ⟨hx, r, hr, hn⟩ := h.through i (by simpa using hi)
    exact ⟨hx, r, hold i r hr, hn⟩
  · simpa using h.throughNodup

section Close

variable (hn : Nested g (current :: outer)) (hg : Rooted g)
include hn hg

theorem current_not_mem_outer : current ∉ outer := fun hm => Nat.lt_irrefl _ (hn.lt hg hm)

omit hg in
theorem parent?_current : g.parent? current = outer.head? := by
  obtain ⟨⟨s, hs, hp⟩, -⟩ := hn
  rw [Graph.parent?, hs, Option.bind_some, hp]

theorem variableIn?_close : (g.close current).variableIn? = g.variableIn? := by
  obtain ⟨⟨s, hs, -⟩, -⟩ := hn
  exact Graph.variableIn?_close hs (hg.parent_ne hs)

omit hg in
theorem referenceAt?_close (i : ReferenceId) :
    (g.close current).referenceAt? i =
      (g.referenceAt? i).map fun r =>
        if i ∈ g.leftOf current then
          { r with resolved := (g.variableIn? current r.name).or r.resolved }
        else r := by
  obtain ⟨⟨s, hs, -⟩, -⟩ := hn
  have hl : g.leftOf current = s.left := by simp [Graph.leftOf, hs]
  rw [hl, Graph.referenceAt?_close hs]

theorem leftOf_close (x : ScopeId) :
    (g.close current).leftOf x =
      if x = current then [] else
      if outer.head? = some x then
        g.leftOf x ++ g.unresolved current (g.leftOf current)
      else g.leftOf x := by
  obtain ⟨⟨s, hs, hp⟩, hout⟩ := hn
  have hl : g.leftOf current = s.left := by simp [Graph.leftOf, hs]
  rw [hl, ← hp]
  refine Graph.leftOf_close hs (hg.parent_ne hs) (fun p hsp => ?_) x
  exact hout.exists_scope (List.mem_of_head? (hp ▸ hsp))

theorem throughOf_close (x : ScopeId) :
    (g.close current).throughOf x =
      if x = current then g.throughOf x ++ g.unresolved current (g.leftOf current)
      else g.throughOf x := by
  obtain ⟨⟨s, hs, -⟩, -⟩ := hn
  have hl : g.leftOf current = s.left := by simp [Graph.leftOf, hs]
  rw [hl]
  exact Graph.throughOf_close hs (hg.parent_ne hs) x

theorem Clear.close (h : Clear g (current :: outer) name a b) :
    Clear (g.close current) outer name a b := by
  obtain ⟨⟨s, hs, -⟩, -⟩ := hn
  refine h.mono fun x p hx hp hv => ?_
  rw [Graph.parent?_close hs (hg.parent_ne hs), Graph.variableIn?_close hs (hg.parent_ne hs)]
  exact ⟨hp, hv, fun hm => hx (List.mem_cons_of_mem _ hm)⟩

theorem Clear.close_up {p} (h : Clear g (current :: outer) name a current)
    (hv : g.variableIn? current name = none) (hp : outer.head? = some p) :
    Clear (g.close current) outer name a p := by
  refine (h.close hn hg).trans (.up ?_ ?_ (current_not_mem_outer hn hg) (.refl p))
  · obtain ⟨⟨s, hs, -⟩, -⟩ := id hn
    rw [Graph.parent?_close hs (hg.parent_ne hs), parent?_current hn, hp]
  · rw [variableIn?_close hn hg, hv]

variable (h : Sound (current :: outer) g)
include h

/-- A reference waits in one scope only. -/
theorem not_mem_leftOf_current {x} (hr : g.referenceAt? i = some r) (hx : x ∈ outer)
    (hc : Clear g (current :: outer) r.name r.scope x) : i ∉ g.leftOf current := by
  intro hi
  obtain ⟨r', hr', -, -, hc'⟩ := h.left current i hi
  cases Option.some.inj (hr.symm.trans hr')
  have hxc : x = current := hc.unique (List.mem_cons_of_mem _ hx) hc' (List.mem_cons_self ..)
  exact current_not_mem_outer hn hg (hxc ▸ hx)

theorem standing_close_of_mem (hr : g.referenceAt? i = some r) (hi : i ∈ g.leftOf current) :
    Standing (g.close current) outer i
      { r with resolved := (g.variableIn? current r.name).or r.resolved } := by
  obtain ⟨r', hr', hres, -, hc⟩ := h.left current i hi
  cases Option.some.inj (hr.symm.trans hr')
  cases hv : g.variableIn? current r.name with
  | some v =>
    refine .resolved (hc.close hn hg) (current_not_mem_outer hn hg) (v := v) ?_ rfl
    rw [variableIn?_close hn hg, hv]
  | none =>
    have hu : i ∈ g.unresolved current (g.leftOf current) := by
      simp [Graph.unresolved, hi, Graph.target?, hr, hv]
    cases hp : outer.head? with
    | some p =>
      have hmem : p ∈ outer := List.mem_of_head? hp
      have hpc : p ≠ current := fun he => current_not_mem_outer hn hg (he ▸ hmem)
      refine .waiting (hc.close_up hn hg hv hp) hmem ?_ hres
      rw [leftOf_close hn hg, if_neg hpc, if_pos hp]
      exact List.mem_append_right _ hu
    | none =>
      have hnil : outer = [] := List.head?_eq_none_iff.mp hp
      subst hnil
      have hcur : current = Graph.globalScope := by simpa [eq_comm] using hn.global_mem hg
      subst hcur
      refine .unfound (hc.close hn hg) (by simp) ?_ hres ?_
      · rw [variableIn?_close hn hg, hv]
      · rw [throughOf_close hn hg, if_pos rfl]
        exact List.mem_append_right _ hu

omit hg in
theorem unresolved_close (hi : i ∈ g.unresolved current (g.leftOf current)) :
    ∃ r, (g.close current).referenceAt? i = some r ∧ r.resolved = none ∧
      g.variableIn? current r.name = none ∧ Clear g (current :: outer) r.name r.scope current := by
  obtain ⟨hi, ht⟩ := List.mem_filter.mp hi
  obtain ⟨r, hr, hres, -, hc⟩ := h.left current i hi
  have hv : g.variableIn? current r.name = none := by simpa [Graph.target?, hr] using ht
  refine ⟨r, ?_, hres, hv, hc⟩
  rw [referenceAt?_close hn, hr, Option.map_some, if_pos hi, hv, Option.none_or]

theorem Sound.close : Sound outer (g.close current) := by
  have hcur := current_not_mem_outer hn hg
  have hglobal := hn.global_mem hg
  have hempty : g.throughOf Graph.globalScope = [] := by
    refine List.eq_nil_iff_forall_not_mem.mpr fun i hi => ?_
    exact (h.through i hi).1 hglobal
  have hnodup : (g.unresolved current (g.leftOf current)).Nodup := (h.leftNodup current).filter _
  have hsame : ∀ i r, g.referenceAt? i = some r → i ∉ g.leftOf current →
      (g.close current).referenceAt? i = some r := by
    intro i r hr hi
    rw [referenceAt?_close hn, hr, Option.map_some, if_neg hi]
  constructor
  · intro i r' hr'
    obtain ⟨r, hr, rfl⟩ := Option.map_eq_some_iff.mp (referenceAt?_close hn i ▸ hr')
    split
    · exact standing_close_of_mem hn hg h hr ‹_›
    · rename_i hi
      cases h.standing i r hr with
      | @waiting x hc hx hl hres =>
        rcases List.mem_cons.mp hx with rfl | hx
        · exact absurd hl hi
        · have hxc : x ≠ current := fun he => hcur (he ▸ hx)
          refine .waiting (hc.close hn hg) hx ?_ hres
          rw [leftOf_close hn hg, if_neg hxc]
          split
          · exact List.mem_append_left _ hl
          · exact hl
      | resolved hc hx hv hres =>
        refine .resolved (hc.close hn hg) (fun hm => hx (List.mem_cons_of_mem _ hm)) ?_ hres
        rw [variableIn?_close hn hg, hv]
      | unfound _ hx => exact absurd hglobal hx
  · intro x i hi
    rw [leftOf_close hn hg] at hi
    split at hi
    · simp at hi
    · rename_i hxc
      have hold : i ∈ g.leftOf x → ∃ r, (g.close current).referenceAt? i = some r ∧
          r.resolved = none ∧ x ∈ outer ∧ Clear (g.close current) outer r.name r.scope x := by
        intro hi
        obtain ⟨r, hr, hres, hx, hc⟩ := h.left x i hi
        have hx' : x ∈ outer := (List.mem_cons.mp hx).resolve_left hxc
        have hnot := not_mem_leftOf_current hn hg h hr hx' hc
        exact ⟨r, hsame i r hr hnot, hres, hx', hc.close hn hg⟩
      split at hi
      · rename_i hp
        rcases List.mem_append.mp hi with hi | hi
        · exact hold hi
        · obtain ⟨r, hr, hres, hv, hc⟩ := unresolved_close hn h hi
          exact ⟨r, hr, hres, List.mem_of_head? hp, hc.close_up hn hg hv hp⟩
      · exact hold hi
  · intro x
    rw [leftOf_close hn hg]
    split
    · exact List.nodup_nil
    · split
      · rename_i hxc hp
        refine List.nodup_append.mpr ⟨h.leftNodup x, hnodup, fun i hi j hj hij => ?_⟩
        obtain ⟨r, hr, -, hx, hc⟩ := h.left x i hi
        have hx' : x ∈ outer := (List.mem_cons.mp hx).resolve_left hxc
        refine not_mem_leftOf_current hn hg h hr hx' hc ?_
        exact hij ▸ (List.mem_filter.mp hj).1
      · exact h.leftNodup x
  · intro i hi
    rw [throughOf_close hn hg, hempty] at hi
    split at hi
    · rename_i hx
      obtain ⟨r, hr, hres, -, -⟩ := unresolved_close hn h (by simpa using hi)
      exact ⟨hx ▸ hcur, r, hr, hres⟩
    · simp at hi
  · rw [throughOf_close hn hg, hempty]
    split
    · simpa using hnodup
    · exact List.nodup_nil

end Close

end Steps

theorem Built.sound (h : Built opens g) : Sound opens g := by
  induction h with
  | root kind blockKind blockStart =>
    have hne : (none : Option ScopeId) ≠ some (Graph.scopes {}).length := by simp
    have hleft : ∀ x, (Graph.pushScope {} kind none blockKind blockStart).leftOf x = [] :=
      fun x => congrFun (Graph.leftOf_pushScope {} kind hne blockKind blockStart) x
    have hthrough : ∀ x, (Graph.pushScope {} kind none blockKind blockStart).throughOf x = [] :=
      fun x => congrFun (Graph.throughOf_pushScope {} kind hne blockKind blockStart) x
    constructor
    · intro i r hr
      rw [Graph.referenceAt?_pushScope] at hr
      cases hr
    · intro x i hi
      simp [hleft] at hi
    · intro x
      simp [hleft]
    · intro i hi
      simp [hthrough] at hi
    · simp [hthrough]
  | pushScope kind blockKind blockStart h ih =>
    exact (frame_pushScope h.nested.1 kind blockKind blockStart).sound ih
  | declare name d hs h ih => exact (frame_declare h.nested.1 hs name d).sound ih
  | addReference name start stop access init h ih =>
    exact ih.addReference h.nested.1 name start stop access init
  | markUsed v _ _ ih => exact (frame_modifyVariable v _).sound ih
  | close h ih => exact ih.close h.nested.1 h.nested.2

theorem Registered.congr {f : VariableId → Variable → Variable}
    (hnames : ∀ x, (g'.scopeAt? x).map Scope.names = (g.scopeAt? x).map Scope.names)
    (hvars : ∀ v, g'.variableAt? v = (g.variableAt? v).map (f v))
    (hf : ∀ v w, (f v w).name = w.name ∧ (f v w).scope = w.scope) (h : Registered g) :
    Registered g' := by
  refine ⟨fun x name v hv => ?_, fun x s hs => ?_⟩
  · rw [Graph.variableIn?_congr hnames] at hv
    obtain ⟨w, hw, hname, hscope⟩ := h.1 x name v hv
    exact ⟨f v w, by rw [hvars, hw]; rfl, (hf v w).1.trans hname, (hf v w).2.trans hscope⟩
  · have hx := hnames x
    rw [hs, Option.map_some] at hx
    obtain ⟨t, ht, hst⟩ := Option.map_eq_some_iff.mp hx.symm
    exact hst ▸ h.2 x t ht

theorem registered_declare {scope} (hs : g.scopeAt? scope = some s) (name : String) (d : Definition)
    (h : Registered g) :
    Registered (g.declare scope name d).2 := by
  refine ⟨fun x n v hv => ?_, fun x t ht => ?_⟩
  · rw [Graph.variableIn?_declare hs] at hv
    rw [Graph.variableAt?_declare]
    split at hv
    · rename_i hc
      obtain ⟨rfl, rfl, hnew⟩ := hc
      cases hv
      simp [hnew]
    · obtain ⟨w, hw, hname, hscope⟩ := h.1 x n v hv
      cases hnew : g.variableIn? scope name with
      | none =>
        have hlt : v < g.vars.length := (List.getElem?_eq_some_iff.mp hw).1
        exact ⟨w, by simp [Nat.ne_of_lt hlt, hw], hname, hscope⟩
      | some u =>
        refine ⟨_, by simp only [hw, Option.map_some]; rfl, ?_, ?_⟩
        · split <;> exact hname
        · split <;> exact hscope
  · rw [Graph.scopeAt?_declare] at ht
    obtain ⟨u, hu, rfl⟩ := Option.map_eq_some_iff.mp ht
    split
    · exact Fields.nodup_names_set (h.2 x u hu)
    · exact h.2 x u hu

theorem registered_modifyVariable (v : VariableId) {f : Variable → Variable}
    (hf : ∀ w, (f w).name = w.name ∧ (f w).scope = w.scope) (h : Registered g) :
    Registered (g.modifyVariable v f) := by
  refine Registered.congr (g := g) (f := fun u w => if u = v then f w else w) (fun _ => rfl)
    (fun u => Graph.variableAt?_modifyVariable ..) (fun u w => ?_) h
  split
  · exact hf w
  · exact ⟨rfl, rfl⟩

theorem registered_pushScope (kind : ScopeKind) {parent} (hp : parent ≠ some g.scopes.length)
    (blockKind : String) (blockStart : Nat) (h : Registered g) :
    Registered (g.pushScope kind parent blockKind blockStart) := by
  refine ⟨fun x name v hv => ?_, fun x s hs => ?_⟩
  · rw [Graph.variableIn?_pushScope g kind hp] at hv
    simpa using h.1 x name v hv
  · rw [Graph.scopeAt?_pushScope g kind hp] at hs
    split at hs
    · cases hs
      exact List.nodup_nil
    · obtain ⟨t, ht, rfl⟩ := Option.map_eq_some_iff.mp hs
      split <;> exact h.2 x t ht

theorem registered_hoist {id v target} (hv : g.variableAt? id = some v) (hne : v.scope ≠ target)
    (hok : g.hoist id target = .ok g') {t} (hs : g.scopeAt? v.scope = some s)
    (ht : g.scopeAt? target = some t) (h : Registered g) :
    Registered g' := by
  have hin := Graph.variableIn?_hoist hv hne hok hs ht (h.2 _ s hs)
  have hid := Graph.variableIn?_of_hoist hv hne hok
  refine ⟨fun x n u hu => ?_, fun x r hr => ?_⟩
  · rw [Graph.variableAt?_hoist hv hne hok]
    by_cases hnew : n = v.name ∧ x = target
    · obtain ⟨rfl, rfl⟩ := hnew
      rw [hin, if_pos rfl, if_pos rfl] at hu
      cases hu
      exact ⟨{ v with scope := x }, by simp [hv], rfl, rfl⟩
    · -- what was found before is another variable, since the moved one had only one place
      have hold : g.variableIn? x n = some u ∧ ¬(n = v.name ∧ x = v.scope) := by
        rw [hin] at hu
        grind
      obtain ⟨w, hw, hname, hscope⟩ := h.1 x n u hold.1
      have hu' : u ≠ id := by
        rintro rfl
        cases hv.symm.trans hw
        exact hold.2 ⟨hname.symm, hscope.symm⟩
      exact ⟨w, by simp [hw, hu'], hname, hscope⟩
  · rw [Graph.scopeAt?_hoist hv hne hok] at hr
    obtain ⟨u, hu, rfl⟩ := Option.map_eq_some_iff.mp hr
    have hnodup := h.2 x u hu
    split
    · exact Fields.nodup_names_set hnodup
    · split
      · simpa [Fields.names_erase] using hnodup.erase _
      · exact hnodup

theorem Built.registered (h : Built opens g) : Registered g := by
  induction h with
  | root kind blockKind blockStart =>
    refine registered_pushScope kind (by simp) blockKind blockStart ⟨fun x name v hv => ?_, ?_⟩
    · simp [Graph.variableIn?, Graph.scopeAt?] at hv
    · intro x s hs
      simp [Graph.scopeAt?] at hs
  | pushScope kind blockKind blockStart h ih =>
    obtain ⟨s, hs⟩ := h.nested.1.exists_scope (List.mem_cons_self ..)
    refine registered_pushScope kind (fun he => ?_) blockKind blockStart ih
    exact Nat.ne_of_lt (Graph.scopeAt?_lt hs) (Option.some.inj he)
  | declare name d hs h ih =>
    obtain ⟨s, hs⟩ := h.nested.1.exists_scope hs
    exact registered_declare hs name d ih
  | addReference name start stop access init h ih =>
    refine ih.congr (f := fun _ w => w) (Graph.map_scopeAt?_congr
      (Graph.scopeAt?_addReference _ _ name start stop access init) fun x s => ?_) (by simp) (by simp)
    split <;> rfl
  | markUsed v _ _ ih => exact registered_modifyVariable v (fun _ => ⟨rfl, rfl⟩) ih
  | close h ih =>
    obtain ⟨⟨⟨s, hs, -⟩, -⟩, hg⟩ := h.nested
    exact ih.congr (Graph.map_scopeAt?_congr (Graph.scopeAt?_close hs (hg.parent_ne hs)) fun x t => rfl)
      (Graph.variableAt?_close hs) fun v w => ⟨rfl, rfl⟩

end SvelteSyntax.Scoping
