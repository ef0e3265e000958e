import Mathlib.Data.List.Nodup
import SvelteSyntax.Proofs.Scoping.Reconcile

namespace SvelteSyntax

/-- A value that stands under one key only goes with its key. -/
theorem Fields.filter_values {key : String} {v : Nat} {fs : Fields Nat}
    (hnodup : (Fields.names fs).Nodup) (hget : Fields.get? key fs = some v)
    (honly : ∀ n, (n, v) ∈ fs → n = key) :
    (fs.map (·.2)).filter (· ≠ v) = (Fields.erase key fs).map (·.2) := by
  induction fs with
  | nil => rfl
  | cons f fs ih =>
    obtain ⟨k, u⟩ := f
    have hnot : k ∉ Fields.names fs ∧ (Fields.names fs).Nodup := List.nodup_cons.mp hnodup
    by_cases hk : k = key
    · subst hk
      have hu : u = v := by simpa [Fields.get?] using hget
      have hrest : ∀ a ∈ fs.map (·.2), a ≠ v := by
        rintro a ha rfl
        obtain ⟨⟨n, b⟩, hmem, rfl⟩ := List.mem_map.mp ha
        have hn : n = k := honly n (List.mem_cons_of_mem _ hmem)
        exact hnot.1 (List.mem_map.mpr ⟨_, hmem, hn⟩)
      simpa [Fields.erase, hu] using hrest
    · have hu : u ≠ v := by
        rintro rfl
        exact hk (honly k (List.mem_cons_self ..))
      have hget' : Fields.get? key fs = some v := by simpa [Fields.get?, hk] using hget
      have hrest := ih hnot.2 hget' fun n hn => honly n (List.mem_cons_of_mem _ hn)
      simpa [Fields.erase, hk, hu] using hrest

variable {x current : ScopeId} {w : Variable}

namespace Scoping

open Run

variable {β : Type} {g g' : Graph} {s : Scope} {f : ScopeId → Scope → Scope} {scope : ScopeId}
  {id : VariableId}

/-- Both sides of every relation in a graph agree. -/
structure Graph.Consistent (g : Graph) : Prop where
  /-- Every scope but the global one is inside an older one, which lists it once. -/
  parents : ∀ x s, g.scopeAt? x = some s → x ≠ Graph.globalScope →
    ∃ p t, s.parent = some p ∧ p < x ∧ g.scopeAt? p = some t ∧ t.children.count x = 1
  /-- A scope has the same variables by number and by name. -/
  names : ∀ x s, g.scopeAt? x = some s →
    s.vars.Perm (s.names.map (·.2)) ∧ s.vars.Nodup ∧ (Fields.names s.names).Nodup ∧
      ∀ name v, (name, v) ∈ s.names → ∃ w, g.variableAt? v = some w ∧ w.name = name
  /-- A variable is listed by one scope, the one it names. -/
  owners : ∀ v w, g.variableAt? v = some w → (∃ s, g.scopeAt? w.scope = some s) ∧
    ∀ x s, g.scopeAt? x = some s → (v ∈ s.vars ↔ x = w.scope)
  /-- A reference is listed by one scope, the one it is made in. -/
  references : ∀ i r, g.referenceAt? i = some r → (∃ s, g.scopeAt? r.scope = some s) ∧
    ∀ x s, g.scopeAt? x = some s → s.references.count i = if x = r.scope then 1 else 0
  /-- A variable lists the references that mean it, each once. -/
  meanings : ∀ v w, g.variableAt? v = some w → w.references.Nodup ∧
    ∀ i, i ∈ w.references ↔ ∃ r, g.referenceAt? i = some r ∧ r.resolved = some v

/-- A list that a scope keeps; a scope that does not exist keeps none. -/
def Graph.listed {β : Type} (g : Graph) (π : Scope → List β) (x : ScopeId) : List β :=
  ((g.scopeAt? x).map π).getD []

theorem Graph.listed_of_scopeAt? (hs : g.scopeAt? x = some s) (π : Scope → List β) :
    g.listed π x = π s := by
  simp [listed, hs]

theorem Graph.listed_congr {π : Scope → List β} (hat : ∀ x, g'.scopeAt? x = (g.scopeAt? x).map (f x))
    (hf : ∀ x s, π (f x s) = π s) : g'.listed π = g.listed π := by
  funext x
  rw [listed, map_scopeAt?_congr hat hf, listed]

theorem Graph.exists_scope_of_listed {π : Scope → List β} {b : β} (h : b ∈ g.listed π x) :
    ∃ s, g.scopeAt? x = some s := by
  unfold listed at h
  cases hs : g.scopeAt? x with
  | none => simp [hs] at h
  | some s => exact ⟨s, rfl⟩

/-- The invariant of the operations, in the form in which they keep it. -/
structure Tabled (g : Graph) : Prop where
  children : ∀ p, (g.listed Scope.children p).Nodup ∧
    ∀ c, c ∈ g.listed Scope.children p ↔ g.parent? c = some p
  vars : ∀ x, g.listed Scope.vars x = (g.listed Scope.names x).map (·.2)
  located : ∀ v w, g.variableAt? v = some w → g.variableIn? w.scope w.name = some v
  references : ∀ x, (g.listed Scope.references x).Nodup ∧
    ∀ i, i ∈ g.listed Scope.references x ↔ ∃ r, g.referenceAt? i = some r ∧ r.scope = x
  meanings : ∀ v w, g.variableAt? v = some w → w.references.Nodup ∧
    ∀ i, i ∈ w.references ↔ ∃ r, g.referenceAt? i = some r ∧ r.resolved = some v
  targets : ∀ i r v, g.referenceAt? i = some r → r.resolved = some v →
    ∃ w, g.variableAt? v = some w

/-- The scopes of two graphs list the same, apart from what is passed on. -/
def SameLists (f : ScopeId → Scope → Scope) : Prop :=
  ∀ x s, (f x s).parent = s.parent ∧ (f x s).children = s.children ∧ (f x s).vars = s.vars ∧
    (f x s).names = s.names ∧ (f x s).references = s.references

namespace Tabled

variable {g g' : Graph}

theorem scope_lt (h : Tabled g) {v} (hw : g.variableAt? v = some w) :
    w.scope < g.scopes.length := by
  obtain ⟨s, hs, -⟩ := Option.bind_eq_some_iff.mp (h.located v w hw)
  exact Graph.scopeAt?_lt hs

theorem congr (h : Tabled g) (hat : ∀ x, g'.scopeAt? x = (g.scopeAt? x).map (f x)) (hf : SameLists f)
    {p : ReferenceId → Reference → Reference}
    (hrefs : ∀ i, g'.referenceAt? i = (g.referenceAt? i).map (p i)) (hp : ∀ i r, (p i r).scope = r.scope)
    {q : VariableId → Variable → Variable} (hvars : ∀ v, g'.variableAt? v = (g.variableAt? v).map (q v))
    (hq : ∀ v w, (q v w).name = w.name ∧ (q v w).scope = w.scope)
    (hmeanings : ∀ v w, g.variableAt? v = some w → (q v w).references.Nodup ∧
      ∀ i, i ∈ (q v w).references ↔ ∃ r, g.referenceAt? i = some r ∧ (p i r).resolved = some v)
    (htargets : ∀ i r v, g.referenceAt? i = some r → (p i r).resolved = some v →
      ∃ w, g.variableAt? v = some w) : Tabled g' := by
  have hparent : g'.parent? = g.parent? :=
    Graph.parent?_congr (Graph.map_scopeAt?_congr hat fun x s => (hf x s).1)
  have hin : g'.variableIn? = g.variableIn? :=
    Graph.variableIn?_congr (Graph.map_scopeAt?_congr hat fun x s => (hf x s).2.2.2.1)
  refine ⟨fun y => ?_, fun x => ?_, fun v w' hw' => ?_, fun x => ?_, fun v w' hw' => ?_,
    fun i r' v hr' hv => ?_⟩
  · rw [Graph.listed_congr hat fun x s => (hf x s).2.1, hparent]
    exact h.children y
  · rw [Graph.listed_congr hat fun x s => (hf x s).2.2.1,
      Graph.listed_congr hat fun x s => (hf x s).2.2.2.1]
    exact h.vars x
  · rw [hvars] at hw'
    obtain ⟨w, hw, rfl⟩ := Option.map_eq_some_iff.mp hw'
    rw [hin, (hq v w).1, (hq v w).2]
    exact h.located v w hw
  · rw [Graph.listed_congr hat fun x s => (hf x s).2.2.2.2]
    refine ⟨(h.references x).1, fun i => ((h.references x).2 i).trans ?_⟩
    rw [hrefs]
    constructor
    · rintro ⟨r, hr, rfl⟩
      exact ⟨p i r, by rw [hr]; rfl, hp i r⟩
    · rintro ⟨r', hr', rfl⟩
      obtain ⟨r, hr, rfl⟩ := Option.map_eq_some_iff.mp hr'
      exact ⟨r, hr, (hp i r).symm⟩
  · rw [hvars] at hw'
    obtain ⟨w, hw, rfl⟩ := Option.map_eq_some_iff.mp hw'
    refine ⟨(hmeanings v w hw).1, fun i => ((hmeanings v w hw).2 i).trans ?_⟩
    rw [hrefs]
    constructor
    · rintro ⟨r, hr, hv⟩
      exact ⟨p i r, by rw [hr]; rfl, hv⟩
    · rintro ⟨r', hr', hv⟩
      obtain ⟨r, hr, rfl⟩ := Option.map_eq_some_iff.mp hr'
      exact ⟨r, hr, hv⟩
  · rw [hrefs] at hr'
    obtain ⟨r, hr, rfl⟩ := Option.map_eq_some_iff.mp hr'
    obtain ⟨w, hw⟩ := htargets i r v hr hv
    exact ⟨q v w, by rw [hvars, hw]; rfl⟩

theorem modifyVariable (h : Tabled g) (v : VariableId) {f : Variable → Variable}
    (hf : ∀ w, (f w).name = w.name ∧ (f w).scope = w.scope ∧ (f w).references = w.references) :
    Tabled (g.modifyVariable v f) := by
  refine h.congr (f := fun _ s => s) (by simp) (fun _ _ => ⟨rfl, rfl, rfl, rfl, rfl⟩)
    (p := fun _ r => r) (by simp) (fun _ _ => rfl)
    (q := fun u w => if u = v then f w else w) (by simp) (fun u w => ?_) (fun u w hw => ?_)
    (fun i r u hr hu => h.targets i r u hr hu)
  · split
    · exact ⟨(hf w).1, (hf w).2.1⟩
    · exact ⟨rfl, rfl⟩
  · have hsame : (if u = v then f w else w).references = w.references := by
      split
      · exact (hf w).2.2
      · rfl
    rw [hsame]
    exact h.meanings u w hw

theorem settleAll (h : Tabled g) (hreg : Registered g) {is : List ReferenceId}
    (hat : ∀ x, g'.scopeAt? x = (g.scopeAt? x).map (f x)) (hf : SameLists f)
    (hrefs : ∀ j, g'.referenceAt? j = (g.referenceAt? j).map fun r =>
      if j ∈ is then { r with resolved := (g.variableIn? scope r.name).or r.resolved } else r)
    (hvars : ∀ v, g'.variableAt? v = (g.variableAt? v).map
      (g.referredTo (is.filter fun i => g.target? scope i == some v))) (hnodup : is.Nodup)
    (hopen : ∀ i ∈ is, ∃ r, g.referenceAt? i = some r ∧ r.resolved = none) : Tabled g' := by
  refine h.congr hat hf hrefs (fun j r => ?_) hvars (fun v w => ⟨rfl, rfl⟩) (fun v w hw => ?_)
    fun j r v hr hv => ?_
  · split <;> rfl
  · obtain ⟨hn, hmean⟩ := h.meanings v w hw
    constructor
    · refine List.nodup_append.mpr ⟨hn, hnodup.filter _, fun i hi j hj hij => ?_⟩
      obtain ⟨r, hr, hres⟩ := (hmean i).mp hi
      obtain ⟨r', hr', hnone⟩ := hopen j (List.mem_filter.mp hj).1
      subst hij
      cases hr.symm.trans hr'
      cases hnone.symm.trans hres
    · intro i
      change i ∈ w.references ++ is.filter _ ↔ _
      rw [List.mem_append, hmean]
      by_cases hi : i ∈ is
      · obtain ⟨r, hr, hnone⟩ := hopen i hi
        simp [hi, hr, hnone, Graph.target?]
      · simp [hi]
  · split at hv
    · rename_i hj
      cases hfound : g.variableIn? scope r.name with
      | some u =>
        rw [hfound, Option.some_or] at hv
        cases hv
        obtain ⟨w, hw, -⟩ := hreg.1 _ _ _ hfound
        exact ⟨w, hw⟩
      | none =>
        rw [hfound, Option.none_or] at hv
        exact h.targets j r v hr hv
    · exact h.targets j r v hr hv

theorem root (kind : ScopeKind) (blockKind : String) (blockStart : Nat) :
    Tabled (Graph.pushScope {} kind none blockKind blockStart) := by
  have hat := @Graph.scopeAt?_pushScope {} kind none (by simp) blockKind blockStart
  have hempty : ∀ {β : Type} (π : Scope → List β), π { kind, parent := none, blockKind, blockStart } = []
      → ∀ x, (Graph.pushScope {} kind none blockKind blockStart).listed π x = [] := by
    intro β π hπ x
    rw [Graph.listed, hat]
    split
    · simpa using hπ
    · simp [Graph.scopeAt?]
  have hparent : ∀ c, (Graph.pushScope {} kind none blockKind blockStart).parent? c = none := by
    intro c
    rw [Graph.parent?, hat]
    split
    · rfl
    · simp [Graph.scopeAt?]
  refine ⟨fun p => ?_, fun x => ?_, fun v w hw => ?_, fun x => ?_, fun v w hw => ?_,
    fun i r v hr => ?_⟩
  · simp [hempty Scope.children rfl, hparent]
  · simp [hempty Scope.vars rfl, hempty Scope.names rfl]
  · rw [Graph.variableAt?_pushScope] at hw
    cases hw
  · rw [hempty Scope.references rfl]
    refine ⟨List.nodup_nil, fun i => ⟨fun hi => by simp at hi, ?_⟩⟩
    rintro ⟨r, hr, -⟩
    rw [Graph.referenceAt?_pushScope] at hr
    cases hr
  · rw [Graph.variableAt?_pushScope] at hw
    cases hw
  · rw [Graph.referenceAt?_pushScope] at hr
    cases hr

theorem listed_pushScope (g : Graph) (kind : ScopeKind) (hne : some current ≠ some g.scopes.length)
    (blockKind : String) (blockStart : Nat) {π : Scope → List β}
    (hnew : π { kind, parent := some current, blockKind, blockStart } = [])
    (hπ : ∀ s cs, π { s with children := cs } = π s) :
    (g.pushScope kind (some current) blockKind blockStart).listed π = g.listed π := by
  have hfresh : g.scopeAt? g.scopes.length = none := List.getElem?_eq_none (Nat.le_refl _)
  funext x
  rw [Graph.listed, Graph.scopeAt?_pushScope g kind hne, Graph.listed]
  split
  · rename_i hx
    simp [hx, hfresh, hnew]
  · rw [Option.map_map]
    congr 2
    funext s
    dsimp only [Function.comp]
    split
    · exact hπ s _
    · rfl

theorem pushScope (h : Tabled g) (hs : g.scopeAt? current = some s) (kind : ScopeKind)
    (blockKind : String) (blockStart : Nat) :
    Tabled (g.pushScope kind (some current) blockKind blockStart) := by
  have hlt : current < g.scopes.length := Graph.scopeAt?_lt hs
  have hne : some current ≠ some g.scopes.length := fun he => Nat.ne_of_lt hlt (Option.some.inj he)
  have hat := Graph.scopeAt?_pushScope g kind hne blockKind blockStart
  have hparent := Graph.parent?_pushScope g kind hne blockKind blockStart
  have hfresh : g.scopeAt? g.scopes.length = none := List.getElem?_eq_none (Nat.le_refl _)
  have hnone : g.parent? g.scopes.length = none := by simp [Graph.parent?, hfresh]
  have hchildren : ∀ p, (g.pushScope kind (some current) blockKind blockStart).listed
      Scope.children p = if p = current then g.listed Scope.children p ++ [g.scopes.length]
        else g.listed Scope.children p := by
    intro p
    rw [Graph.listed, hat, Graph.listed]
    by_cases hp : p = g.scopes.length
    · subst hp
      simp [hfresh, Ne.symm (Nat.ne_of_lt hlt)]
    · by_cases hc : p = current
      · subst hc
        simp [hp, hs]
      · simp [hp, hc, Ne.symm hc]
  refine ⟨fun p => ?_, fun x => ?_, fun v w hw => ?_, fun x => ?_, fun v w hw => ?_,
    fun i r v hr hv => ?_⟩
  · obtain ⟨hnodup, hmem⟩ := h.children p
    have hnew : g.scopes.length ∉ g.listed Scope.children p := by
      rw [hmem, hnone]
      simp
    rw [hchildren]
    split
    · rename_i hp
      subst hp
      refine ⟨List.nodup_append.mpr ⟨hnodup, by simp, fun a ha b hb => ?_⟩, fun c => ?_⟩
      · rintro rfl
        exact hnew (List.mem_singleton.mp hb ▸ ha)
      · rw [List.mem_append, hmem, List.mem_singleton, hparent]
        by_cases hc : c = g.scopes.length
        · simp [hc]
        · simp [hc]
    · rename_i hp
      refine ⟨hnodup, fun c => ?_⟩
      rw [hmem, hparent]
      by_cases hc : c = g.scopes.length
      · simp [hc, hnone, Ne.symm hp]
      · simp [hc]
  · rw [listed_pushScope g kind hne blockKind blockStart rfl fun _ _ => rfl,
      listed_pushScope g kind hne blockKind blockStart rfl fun _ _ => rfl]
    exact h.vars x
  · rw [Graph.variableAt?_pushScope] at hw
    rw [Graph.variableIn?_pushScope g kind hne]
    exact h.located v w hw
  · rw [listed_pushScope g kind hne blockKind blockStart rfl fun _ _ => rfl]
    simpa using h.references x
  · rw [Graph.variableAt?_pushScope] at hw
    simpa using h.meanings v w hw
  · rw [Graph.referenceAt?_pushScope] at hr
    simpa using h.targets i r v hr hv

theorem declare (h : Tabled g) (hs : g.scopeAt? scope = some s) (name : String) (d : Definition) :
    Tabled (g.declare scope name d).2 := by
  cases hknown : g.variableIn? scope name with
  | some u =>
    rw [Graph.declare_of_known hknown]
    exact h.modifyVariable u fun _ => ⟨rfl, rfl, rfl⟩
  | none =>
    have hat := Graph.scopeAt?_declare g scope name d
    have hin := Graph.variableIn?_declare hs name d
    have hvars := Graph.variableAt?_declare g scope name d
    simp only [hknown] at hvars
    have hfresh : g.variableAt? g.vars.length = none := List.getElem?_eq_none (Nat.le_refl _)
    have hget : Fields.get? name s.names = none := by simpa [Graph.variableIn?, hs] using hknown
    refine ⟨fun p => ?_, fun x => ?_, fun v w hw => ?_, fun x => ?_, fun v w hw => ?_,
      fun i r v hr hv => ?_⟩
    · rw [Graph.parent?_declare, Graph.listed_congr (π := Scope.children) hat fun x t => ?_]
      · exact h.children p
      · split <;> rfl
    · have hold := h.vars x
      unfold Graph.listed at hold ⊢
      rw [hat]
      by_cases hx : x = scope
      · subst hx
        simp only [hs, Option.map_some, Option.getD_some] at hold ⊢
        simp [hknown, Fields.set_of_get?_eq_none _ hget, hold]
      · simpa [hx] using hold
    · rw [hvars] at hw
      rw [hin]
      split at hw
      · rename_i hv
        cases hw
        simp [hknown, hv]
      · have hold := h.located v w hw
        rw [if_neg, hold]
        rintro ⟨he, hn, -⟩
        rw [he, hn, hknown] at hold
        cases hold
    · rw [Graph.listed_congr (π := Scope.references) hat fun x t => ?_]
      · simpa using h.references x
      · split <;> rfl
    · rw [hvars] at hw
      simp only [Graph.referenceAt?_declare]
      split at hw
      · rename_i hv
        cases hw
        refine ⟨List.nodup_nil, fun i => ⟨fun hi => by simp at hi, ?_⟩⟩
        rintro ⟨r, hr, hres⟩
        obtain ⟨w, hw⟩ := h.targets i r v hr hres
        rw [hv, hfresh] at hw
        cases hw
      · exact h.meanings v w hw
    · rw [Graph.referenceAt?_declare] at hr
      obtain ⟨w, hw⟩ := h.targets i r v hr hv
      refine ⟨w, ?_⟩
      rw [hvars, if_neg, hw]
      rintro rfl
      rw [hfresh] at hw
      cases hw

theorem addReference (h : Tabled g) (hs : g.scopeAt? scope = some s) (name : String) (start stop : Nat)
    (access : Access) (init : Bool) :
    Tabled (g.addReference scope name start stop access init) := by
  have hat := Graph.scopeAt?_addReference g scope name start stop access init
  have hrefs := Graph.referenceAt?_addReference g scope name start stop access init
  have hfresh : g.referenceAt? g.references.length = none := List.getElem?_eq_none (Nat.le_refl _)
  have hlist : ∀ x, (g.addReference scope name start stop access init).listed Scope.references x =
      if x = scope then g.listed Scope.references x ++ [g.references.length]
      else g.listed Scope.references x := by
    intro x
    rw [Graph.listed, hat, Graph.listed]
    by_cases hx : x = scope
    · simp [hx, hs]
    · simp [hx]
  have hres : ∀ i v, (∃ r, (g.addReference scope name start stop access init).referenceAt? i = some r
      ∧ r.resolved = some v) ↔ ∃ r, g.referenceAt? i = some r ∧ r.resolved = some v := by
    intro i v
    rw [hrefs]
    by_cases hi : i = g.references.length
    · simp [hi, hfresh]
    · simp [hi]
  refine ⟨fun p => ?_, fun x => ?_, fun v w hw => ?_, fun x => ?_, fun v w hw => ?_,
    fun i r v hr hv => ?_⟩
  · rw [Graph.parent?_addReference, Graph.listed_congr (π := Scope.children) hat fun x t => ?_]
    · exact h.children p
    · split <;> rfl
  · rw [Graph.listed_congr (π := Scope.vars) hat fun x t => ?_,
      Graph.listed_congr (π := Scope.names) hat fun x t => ?_]
    · exact h.vars x
    all_goals split <;> rfl
  · rw [Graph.variableIn?_addReference]
    exact h.located v w hw
  · obtain ⟨hnodup, hmem⟩ := h.references x
    have hnew : g.references.length ∉ g.listed Scope.references x := by
      rw [hmem, hfresh]
      simp
    rw [hlist]
    split
    · rename_i hx
      subst hx
      refine ⟨List.nodup_append.mpr ⟨hnodup, by simp, fun a ha b hb => ?_⟩, fun i => ?_⟩
      · rintro rfl
        exact hnew (List.mem_singleton.mp hb ▸ ha)
      · rw [List.mem_append, hmem, List.mem_singleton, hrefs]
        by_cases hi : i = g.references.length
        · simp [hi]
        · simp [hi]
    · rename_i hx
      refine ⟨hnodup, fun i => ?_⟩
      rw [hmem, hrefs]
      by_cases hi : i = g.references.length
      · simp [hi, hfresh, Ne.symm hx]
      · simp [hi]
  · rw [Graph.variableAt?_addReference] at hw
    refine ⟨(h.meanings v w hw).1, fun i => ?_⟩
    rw [hres]
    exact (h.meanings v w hw).2 i
  · obtain ⟨r', hr', hv'⟩ := (hres i v).mp ⟨r, hr, hv⟩
    exact h.targets i r' v hr' hv'

end Tabled

theorem Built.tabled {opens : List ScopeId} (h : Built opens g) : Tabled g := by
  induction h with
  | root kind blockKind blockStart => exact Tabled.root kind blockKind blockStart
  | pushScope kind blockKind blockStart h ih =>
    obtain ⟨s, hs⟩ := h.nested.1.exists_scope (List.mem_cons_self ..)
    exact ih.pushScope hs kind blockKind blockStart
  | declare name d hs h ih =>
    obtain ⟨s, hs⟩ := h.nested.1.exists_scope hs
    exact ih.declare hs name d
  | addReference name start stop access init h ih =>
    obtain ⟨s, hs⟩ := h.nested.1.exists_scope (List.mem_cons_self ..)
    exact ih.addReference hs name start stop access init
  | markUsed v _ _ ih => exact ih.modifyVariable v fun _ => ⟨rfl, rfl, rfl⟩
  | @close current outer g h ih =>
    obtain ⟨⟨⟨s, hs, -⟩, -⟩, hg⟩ := h.nested
    have hleft : g.leftOf current = s.left := by simp [Graph.leftOf, hs]
    refine ih.settleAll h.registered (Graph.scopeAt?_close hs (hg.parent_ne hs))
      (fun x t => ⟨rfl, rfl, rfl, rfl, rfl⟩) (Graph.referenceAt?_close hs) (Graph.variableAt?_close hs)
      (hleft ▸ h.sound.leftNodup current) fun i hi => ?_
    obtain ⟨r, hr, hnone, -⟩ := h.sound.left current i (hleft.symm ▸ hi)
    exact ⟨r, hr, hnone⟩

theorem Tabled.exists_hoist (h : Tabled g) (id : VariableId) (target : ScopeId) :
    ∃ g', g.hoist id target = .ok g' := by
  unfold Graph.hoist
  split
  · exact ⟨_, rfl⟩
  · rename_i v hv
    have hin := h.located id v hv
    split
    · exact ⟨_, rfl⟩
    · simp [hin]

theorem Tabled.hoist (h : Tabled g) (hreg : Registered g) {v : Variable} {target : ScopeId} {t : Scope}
    (hv : g.variableAt? id = some v) (hne : v.scope ≠ target) (ht : g.scopeAt? target = some t)
    (hfree : g.variableIn? target v.name = none) (hok : g.hoist id target = .ok g') : Tabled g' := by
  have hid := h.located id v hv
  obtain ⟨s, hs, hget⟩ := Graph.variableIn?_eq_some.mp hid
  have hat := Graph.scopeAt?_hoist hv hne hok
  have hin := Graph.variableIn?_hoist hv hne hok hs ht (hreg.2 _ s hs)
  have hvars := Graph.variableAt?_hoist hv hne hok
  have hrefs := Graph.referenceAt?_hoist hv hne hok
  have hkeeps : ∀ {β : Type} {π : Scope → β} (x : ScopeId) (u : Scope),
      (∀ ns vs, π { u with names := ns, vars := vs } = π u) →
      π (if x = target then { u with names := Fields.set v.name id u.names, vars := u.vars ++ [id] }
        else if x = v.scope then
          { u with names := Fields.erase v.name u.names, vars := u.vars.filter (· ≠ id) }
        else u) = π u := by
    intro β π x u hπ
    split
    · exact hπ _ _
    · split
      · exact hπ _ _
      · rfl
  have hparent : g'.parent? = g.parent? :=
    Graph.parent?_congr (Graph.map_scopeAt?_congr hat fun x u => hkeeps x u fun _ _ => rfl)
  refine ⟨fun p => ?_, fun x => ?_, fun u w' hw' => ?_, fun x => ?_, fun u w' hw' => ?_,
    fun i r u hr hu => ?_⟩
  · rw [hparent, Graph.listed_congr (π := Scope.children) hat fun x u => hkeeps x u fun _ _ => rfl]
    exact h.children p
  · have hold := h.vars x
    unfold Graph.listed at hold ⊢
    rw [hat]
    cases hu : g.scopeAt? x with
    | none => rfl
    | some u =>
      simp only [hu, Option.map_some, Option.getD_some] at hold ⊢
      by_cases hx : x = target
      · subst hx
        have hnone : Fields.get? v.name u.names = none := by
          simpa [Graph.variableIn?, hu] using hfree
        simp [Fields.set_of_get?_eq_none _ hnone, hold]
      · by_cases hx' : x = v.scope
        · subst hx'
          cases hs.symm.trans hu
          simp only [hx, if_false, if_true, hold]
          refine Fields.filter_values (hreg.2 _ s hs) hget fun n hn => ?_
          have hfound := Fields.get?_of_mem (hreg.2 _ s hs) hn
          obtain ⟨w, hw, hname, -⟩ := hreg.1 v.scope n id (Graph.variableIn?_eq_some.mpr ⟨s, hs, hfound⟩)
          cases hv.symm.trans hw
          exact hname.symm
        · simpa [hx, hx'] using hold
  · rw [hvars] at hw'
    obtain ⟨w, hw, rfl⟩ := Option.map_eq_some_iff.mp hw'
    have hold := h.located u w hw
    rw [hin]
    by_cases hu : u = id
    · subst hu
      cases hv.symm.trans hw
      simp
    · rw [if_neg hu, hold]
      by_cases hn : w.name = v.name
      · have hscope : w.scope ≠ target := by
          intro he
          rw [he, hn, hfree] at hold
          cases hold
        have hscope' : w.scope ≠ v.scope := by
          intro he
          rw [he, hn, hid] at hold
          exact hu (Option.some.inj hold).symm
        simp [hn, hscope, hscope']
      · simp [hn]
  · rw [Graph.listed_congr (π := Scope.references) hat fun x u => hkeeps x u fun _ _ => rfl]
    simpa only [hrefs] using h.references x
  · rw [hvars] at hw'
    obtain ⟨w, hw, rfl⟩ := Option.map_eq_some_iff.mp hw'
    have hsame : (if u = id then { w with scope := target } else w).references = w.references := by
      split <;> rfl
    rw [hsame]
    simpa only [hrefs] using h.meanings u w hw
  · rw [hrefs] at hr
    obtain ⟨w, hw⟩ := h.targets i r u hr hu
    exact ⟨_, by rw [hvars, hw]; rfl⟩

/-- A graph between two reconciliations, or in the middle of one. -/
structure Steady (g : Graph) : Prop where
  settled : Settled g
  tabled : Tabled g

theorem Built.steady (h : Built [] g) : Steady g := ⟨h.settled, h.tabled⟩

namespace Steady

variable {g g' : Graph} (h : Steady g)
include h

theorem matching {v} (hok : g.matching v = .ok (id, g')) :
    Steady g' ∧ ∃ w, g'.variableAt? id = some w ∧ Liftable g' w := by
  obtain ⟨hsettled, hw⟩ := h.settled.matching hok
  refine ⟨⟨hsettled, ?_⟩, hw⟩
  unfold Graph.matching at hok
  split at hok
  · cases hok
    exact h.tabled
  · split at hok
    · obtain ⟨s, hs⟩ := h.settled.lineage.1
      have heq := Except.ok.inj hok
      have hdeclared := h.tabled.declare hs v.name ⟨.injected, 0, 0, "Program"⟩
      rw [heq] at hdeclared
      exact hdeclared
    · cases hok

theorem lift (hw : g.variableAt? id = some w) (hl : Liftable g w)
    (hok : g.hoist id Graph.globalScope = .ok g') : Steady g' := by
  refine ⟨h.settled.lift hw hl hok, ?_⟩
  rcases hl with howned | ⟨hpar, hfree⟩
  · rw [Graph.hoist_of_owned hw howned] at hok
    cases hok
    exact h.tabled
  · obtain ⟨t, ht⟩ := h.settled.lineage.1
    exact h.tabled.hoist h.settled.registered hw (h.settled.rooted.ne_global hpar) ht hfree hok

/-- What the component says about a variable is taken over, unless it is about one that neither the
graph nor the component has. -/
theorem applyVariable (v : Component.Variable) :
    g.applyVariable v = .error (.missingCompilerVariable v.name) ∨
      ∃ g', g.applyVariable v = .ok g' ∧ Steady g' := by
  have hupdate : ∀ {g₁ : Graph} (id : VariableId), Steady g₁ →
      Steady (g₁.modifyVariable id fun w =>
        { w with
          writable := v.writable
          injected := w.injected || v.injected
          used := w.used || v.referenced || v.exportName.isSome }) :=
    fun id h₁ => ⟨h₁.settled.modifyVariable id fun _ => ⟨rfl, rfl⟩,
      h₁.tabled.modifyVariable id fun _ => ⟨rfl, rfl, rfl⟩⟩
  unfold Graph.applyVariable
  cases hmatch : g.matching v with
  | error e =>
    refine .inl ?_
    unfold Graph.matching at hmatch
    split at hmatch
    · cases hmatch
    · split at hmatch
      · cases hmatch
      · cases hmatch
        rfl
  | ok p =>
    obtain ⟨id, g₁⟩ := p
    obtain ⟨h₁, w, hw, hl⟩ := h.matching hmatch
    refine .inr ?_
    by_cases hexported : v.exportName.isSome = true
    · obtain ⟨g₂, hhoist⟩ := h₁.tabled.exists_hoist id Graph.globalScope
      refine ⟨_, ?_, hupdate id (h₁.lift hw hl hhoist)⟩
      simp only [hexported, if_true, bind, Except.bind, hhoist, pure, Except.pure]
    · refine ⟨_, ?_, hupdate id h₁⟩
      simp only [hexported, bind, Except.bind, pure, Except.pure]
      rfl

theorem resolveThrough : Steady g.resolveThrough := by
  obtain ⟨s, hs⟩ := h.settled.lineage.1
  have hp := (h.settled.rooted _ s hs).2.mpr rfl
  have hthrough : g.throughOf Graph.globalScope = s.through := by simp [Graph.throughOf, hs]
  refine ⟨h.settled.resolveThrough hs, h.tabled.settleAll h.settled.registered
    (Graph.scopeAt?_resolveThrough hs hp) (fun x t => ⟨rfl, rfl, rfl, rfl, rfl⟩)
    (Graph.referenceAt?_resolveThrough hs hp) (Graph.variableAt?_resolveThrough hs hp)
    (hthrough ▸ h.settled.throughNodup) fun i hi => ?_⟩
  exact h.settled.through i (hthrough.symm ▸ hi)

end Steady

theorem Steady.applyAll (h : Steady g) (vs : List Component.Variable) :
    (∃ name, vs.foldlM Graph.applyVariable g = .error (.missingCompilerVariable name)) ∨
      ∃ g', vs.foldlM Graph.applyVariable g = .ok g' ∧ Steady g' := by
  induction vs generalizing g with
  | nil => exact .inr ⟨g, rfl, h⟩
  | cons v vs ih =>
    rw [List.foldlM_cons]
    rcases h.applyVariable v with herror | ⟨g₁, hok, h₁⟩
    · rw [herror]
      exact .inl ⟨v.name, rfl⟩
    · rw [hok]
      exact ih h₁

theorem Steady.applyVariables (h : Steady g) (vs : List Component.Variable) :
    (∃ name, g.applyVariables vs = .error (.missingCompilerVariable name)) ∨
      ∃ g', g.applyVariables vs = .ok g' ∧ Steady g' := by
  unfold Graph.applyVariables
  rcases h.applyAll vs with ⟨name, herror⟩ | ⟨g₁, hok, h₁⟩
  · rw [herror]
    exact .inl ⟨name, rfl⟩
  · rw [hok]
    exact .inr ⟨_, rfl, h₁.resolveThrough⟩

theorem Steady.foldlM_applyVariables {vss : List (List Component.Variable)} (h : Steady g)
    (hok : vss.foldlM Graph.applyVariables g = .ok g') : Steady g' := by
  induction vss generalizing g with
  | nil =>
    cases hok
    exact h
  | cons vs vss ih =>
    rw [List.foldlM_cons] at hok
    obtain ⟨g₁, hvs, hrest⟩ := bind_eq_ok.mp hok
    rcases h.applyVariables vs with ⟨name, herror⟩ | ⟨g₂, hok₂, h₂⟩
    · cases hvs.symm.trans herror
    · cases hvs.symm.trans hok₂
      exact ih h₂ hrest

theorem Tabled.consistent (h : Tabled g) (hroot : Rooted g) (hreg : Registered g) :
    g.Consistent where
  parents x s hs hx := by
    obtain ⟨hlt, hnone⟩ := hroot x s hs
    cases hp : s.parent with
    | none => exact absurd (hnone.mp hp) hx
    | some p =>
      have hpar : g.parent? x = some p := Graph.parent?_eq_some.mpr ⟨s, hs, hp⟩
      obtain ⟨hnodup, hmem⟩ := h.children p
      have hin : x ∈ g.listed Scope.children p := (hmem x).mpr hpar
      obtain ⟨t, ht⟩ := Graph.exists_scope_of_listed hin
      rw [Graph.listed_of_scopeAt? ht] at hin hnodup
      exact ⟨p, t, rfl, hlt p hp, ht, List.count_eq_one_of_mem hnodup hin⟩
  names x s hs := by
    have hvars : s.vars = s.names.map (·.2) := by
      have hlisted := h.vars x
      rwa [Graph.listed_of_scopeAt? hs, Graph.listed_of_scopeAt? hs] at hlisted
    have hnames := hreg.2 x s hs
    have hown : ∀ name v, (name, v) ∈ s.names → ∃ w, g.variableAt? v = some w ∧ w.name = name := by
      intro name v hmem
      have hget := Fields.get?_of_mem hnames hmem
      obtain ⟨w, hw, hname, -⟩ := hreg.1 x name v (Graph.variableIn?_eq_some.mpr ⟨s, hs, hget⟩)
      exact ⟨w, hw, hname⟩
    refine ⟨hvars ▸ List.Perm.refl _, ?_, hnames, hown⟩
    -- two names of one variable are its own name
    rw [hvars]
    have hpairs : s.names.Nodup := List.Nodup.of_map _ hnames
    refine (List.nodup_map_iff_inj_on hpairs).mpr ?_
    rintro ⟨n, v⟩ hv ⟨n', v'⟩ hv' rfl
    obtain ⟨w, hw, rfl⟩ := hown n v hv
    obtain ⟨w', hw', rfl⟩ := hown n' v hv'
    cases hw.symm.trans hw'
    rfl
  owners v w hw := by
    have hin := h.located v w hw
    obtain ⟨s, hs, hget⟩ := Graph.variableIn?_eq_some.mp hin
    refine ⟨⟨s, hs⟩, fun x t ht => ?_⟩
    have hvars : t.vars = t.names.map (·.2) := by
      have hlisted := h.vars x
      rwa [Graph.listed_of_scopeAt? ht, Graph.listed_of_scopeAt? ht] at hlisted
    rw [hvars]
    constructor
    · intro hmem
      obtain ⟨⟨n, u⟩, hpair, rfl⟩ := List.mem_map.mp hmem
      have hfound := Fields.get?_of_mem (hreg.2 x t ht) hpair
      obtain ⟨w', hw', -, hscope⟩ := hreg.1 x n u (Graph.variableIn?_eq_some.mpr ⟨t, ht, hfound⟩)
      cases hw.symm.trans hw'
      exact hscope.symm
    · rintro rfl
      cases hs.symm.trans ht
      exact List.mem_map.mpr ⟨_, Fields.mem_of_get? hget, rfl⟩
  references i r hr := by
    have hmem := (h.references r.scope).2 i
    have hin : i ∈ g.listed Scope.references r.scope := hmem.mpr ⟨r, hr, rfl⟩
    refine ⟨Graph.exists_scope_of_listed hin, fun x s hs => ?_⟩
    obtain ⟨hnodup, hmem⟩ := h.references x
    rw [Graph.listed_of_scopeAt? hs] at hnodup hmem
    split
    · rename_i hx
      exact List.count_eq_one_of_mem hnodup ((hmem i).mpr ⟨r, hr, hx.symm⟩)
    · rename_i hx
      refine List.count_eq_zero.mpr fun hi => ?_
      obtain ⟨r', hr', hscope⟩ := (hmem i).mp hi
      cases hr.symm.trans hr'
      exact hx hscope.symm
  meanings := h.meanings

theorem Steady.consistent (h : Steady g) : g.Consistent :=
  h.tabled.consistent h.settled.rooted h.settled.registered

end Scoping

end SvelteSyntax
