import SvelteSyntax.Proofs.Tree.Fields
import SvelteSyntax.Scoping.Graph

namespace SvelteSyntax

variable {x : ScopeId}

namespace Scoping.Graph

variable {g g' : Graph} {name : String} {v : VariableId} {f : Scope → Scope} {i : ReferenceId}
  {s : Scope} {scope : ScopeId}

theorem getElem?_concat {α : Type} (xs : List α) (a : α) (i : Nat) :
    (xs ++ [a])[i]? = if i = xs.length then some a else xs[i]? := by
  rw [List.getElem?_append, List.getElem?_singleton]
  grind

def parent? (g : Graph) (id : ScopeId) : Option ScopeId := (g.scopeAt? id).bind Scope.parent

def kindAt? (g : Graph) (id : ScopeId) : Option ScopeKind := (g.scopeAt? id).map Scope.kind

def leftOf (g : Graph) (id : ScopeId) : List ReferenceId := ((g.scopeAt? id).map Scope.left).getD []

def throughOf (g : Graph) (id : ScopeId) : List ReferenceId :=
  ((g.scopeAt? id).map Scope.through).getD []

def target? (g : Graph) (scope : ScopeId) (i : ReferenceId) : Option VariableId :=
  (g.referenceAt? i).bind fun r => g.variableIn? scope r.name

@[simp] theorem scopeAt?_modifyScope (g : Graph) (id j : ScopeId) (f : Scope → Scope) :
    (g.modifyScope id f).scopeAt? j = (g.scopeAt? j).map fun s => if j = id then f s else s := by
  simp only [scopeAt?, modifyScope, List.getElem?_modify, eq_comm (a := j)]
  rfl

@[simp] theorem variableAt?_modifyScope (g : Graph) (id : ScopeId) (f : Scope → Scope)
    (j : VariableId) : (g.modifyScope id f).variableAt? j = g.variableAt? j := rfl

@[simp] theorem referenceAt?_modifyScope (g : Graph) (id : ScopeId) (f : Scope → Scope)
    (j : ReferenceId) : (g.modifyScope id f).referenceAt? j = g.referenceAt? j := rfl

@[simp] theorem scopeAt?_modifyVariable (g : Graph) (id : VariableId) (f : Variable → Variable)
    (j : ScopeId) : (g.modifyVariable id f).scopeAt? j = g.scopeAt? j := rfl

@[simp] theorem variableAt?_modifyVariable (g : Graph) (id j : VariableId)
    (f : Variable → Variable) :
    (g.modifyVariable id f).variableAt? j =
      (g.variableAt? j).map fun v => if j = id then f v else v := by
  simp only [variableAt?, modifyVariable, List.getElem?_modify, eq_comm (a := j)]
  rfl

@[simp] theorem referenceAt?_modifyVariable (g : Graph) (id : VariableId)
    (f : Variable → Variable) (j : ReferenceId) :
    (g.modifyVariable id f).referenceAt? j = g.referenceAt? j := rfl

@[simp] theorem scopeAt?_modifyReference (g : Graph) (id : ReferenceId) (f : Reference → Reference)
    (j : ScopeId) : (g.modifyReference id f).scopeAt? j = g.scopeAt? j := rfl

@[simp] theorem variableAt?_modifyReference (g : Graph) (id : ReferenceId)
    (f : Reference → Reference) (j : VariableId) :
    (g.modifyReference id f).variableAt? j = g.variableAt? j := rfl

@[simp] theorem referenceAt?_modifyReference (g : Graph) (id j : ReferenceId)
    (f : Reference → Reference) :
    (g.modifyReference id f).referenceAt? j =
      (g.referenceAt? j).map fun r => if j = id then f r else r := by
  simp only [referenceAt?, modifyReference, List.getElem?_modify, eq_comm (a := j)]
  rfl

theorem parent?_eq_some {id p : ScopeId} :
    g.parent? id = some p ↔ ∃ s, g.scopeAt? id = some s ∧ s.parent = some p := Option.bind_eq_some_iff

theorem variableIn?_eq_some {id : ScopeId} :
    g.variableIn? id name = some v ↔
      ∃ s, g.scopeAt? id = some s ∧ Fields.get? name s.names = some v := Option.bind_eq_some_iff

/-- What is found by name depends on the names of the scopes alone. -/
theorem variableIn?_congr (h : ∀ x, (g'.scopeAt? x).map Scope.names = (g.scopeAt? x).map Scope.names) :
    g'.variableIn? = g.variableIn? := by
  funext x name
  have hx := h x
  unfold variableIn?
  cases hs : g.scopeAt? x <;> cases hs' : g'.scopeAt? x <;> simp_all

theorem parent?_congr (h : ∀ x, (g'.scopeAt? x).map Scope.parent = (g.scopeAt? x).map Scope.parent) :
    g'.parent? = g.parent? := by
  funext x
  have hx := h x
  unfold parent?
  cases hs : g.scopeAt? x <;> cases hs' : g'.scopeAt? x <;> simp_all

theorem leftOf_congr (h : ∀ x, (g'.scopeAt? x).map Scope.left = (g.scopeAt? x).map Scope.left) :
    g'.leftOf = g.leftOf := by
  funext x
  rw [leftOf, h, leftOf]

theorem throughOf_congr (h : ∀ x, (g'.scopeAt? x).map Scope.through = (g.scopeAt? x).map Scope.through) :
    g'.throughOf = g.throughOf := by
  funext x
  rw [throughOf, h, throughOf]

theorem map_scopeAt?_congr {β : Type} {f : ScopeId → Scope → Scope} {π : Scope → β}
    (hat : ∀ x, g'.scopeAt? x = (g.scopeAt? x).map (f x)) (hf : ∀ x s, π (f x s) = π s) (x : ScopeId) :
    (g'.scopeAt? x).map π = (g.scopeAt? x).map π := by
  rw [hat, Option.map_map]
  congr 1
  funext s
  exact hf x s

theorem variableIn?_modifyScope (g : Graph) (id : ScopeId) (hf : ∀ s, (f s).names = s.names) :
    (g.modifyScope id f).variableIn? = g.variableIn? := by
  refine variableIn?_congr (map_scopeAt?_congr (scopeAt?_modifyScope g id · f) fun x s => ?_)
  split
  · exact hf s
  · rfl

theorem parent?_modifyScope (g : Graph) (id : ScopeId) (hf : ∀ s, (f s).parent = s.parent) :
    (g.modifyScope id f).parent? = g.parent? := by
  refine parent?_congr (map_scopeAt?_congr (scopeAt?_modifyScope g id · f) fun x s => ?_)
  split
  · exact hf s
  · rfl

theorem target?_modifyScope (g : Graph) (id : ScopeId) (hf : ∀ s, (f s).names = s.names) (x : ScopeId)
    (i : ReferenceId) :
    (g.modifyScope id f).target? x i = g.target? x i := by
  rw [target?, variableIn?_modifyScope g id hf]
  rfl

theorem exists_scope_of_throughOf (h : i ∈ g.throughOf x) :
    ∃ s, g.scopeAt? x = some s ∧ i ∈ s.through := by
  unfold throughOf at h
  cases hs : g.scopeAt? x with
  | none => simp [hs] at h
  | some s => exact ⟨s, rfl, by simpa [hs] using h⟩

theorem scopeAt?_lt (h : g.scopeAt? x = some s) :
    x < g.scopes.length := (List.getElem?_eq_some_iff.mp h).1

theorem scopeAt?_pushScope (g : Graph) (kind : ScopeKind) {parent : Option ScopeId}
    (hp : parent ≠ some g.scopes.length) (blockKind : String) (blockStart : Nat) (x : ScopeId) :
    (g.pushScope kind parent blockKind blockStart).scopeAt? x =
      if x = g.scopes.length then some { kind, parent, blockKind, blockStart }
      else (g.scopeAt? x).map fun s =>
        if parent = some x then { s with children := s.children ++ [g.scopes.length] } else s := by
  have happ : ({ g with scopes := g.scopes ++ [{ kind, parent, blockKind, blockStart }] } :
      Graph).scopeAt? x = if x = g.scopes.length then some { kind, parent, blockKind, blockStart }
        else g.scopeAt? x := getElem?_concat ..
  cases parent with
  | none =>
    simp only [pushScope, happ]
    split <;> simp
  | some p =>
    simp only [pushScope, scopeAt?_modifyScope, happ]
    by_cases hx : x = g.scopes.length
    · have hne : x ≠ p := fun h => hp (by rw [← h, hx])
      simp [hx, hx ▸ hne]
    · simp [hx, eq_comm]

section PushScope

variable (g : Graph) (kind : ScopeKind) {parent : Option ScopeId}
  (hp : parent ≠ some g.scopes.length) (blockKind : String) (blockStart : Nat)
include hp

theorem leftOf_pushScope :
    (g.pushScope kind parent blockKind blockStart).leftOf = g.leftOf := by
  have hnew : g.scopeAt? g.scopes.length = none := List.getElem?_eq_none (Nat.le_refl _)
  funext x
  rw [leftOf, scopeAt?_pushScope g kind hp, leftOf]
  by_cases hx : x = g.scopes.length
  · simp [hx, hnew]
  · rw [if_neg hx, Option.map_map]
    congr 2
    funext s
    dsimp only [Function.comp]
    split <;> rfl

theorem throughOf_pushScope :
    (g.pushScope kind parent blockKind blockStart).throughOf = g.throughOf := by
  have hnew : g.scopeAt? g.scopes.length = none := List.getElem?_eq_none (Nat.le_refl _)
  funext x
  rw [throughOf, scopeAt?_pushScope g kind hp, throughOf]
  by_cases hx : x = g.scopes.length
  · simp [hx, hnew]
  · rw [if_neg hx, Option.map_map]
    congr 2
    funext s
    dsimp only [Function.comp]
    split <;> rfl

theorem parent?_pushScope (x : ScopeId) :
    (g.pushScope kind parent blockKind blockStart).parent? x =
      if x = g.scopes.length then parent else g.parent? x := by
  rw [parent?, scopeAt?_pushScope g kind hp, parent?]
  split
  · rfl
  · cases g.scopeAt? x with
    | none => rfl
    | some s =>
      rw [Option.map_some, Option.bind_some, Option.bind_some]
      split <;> rfl

theorem variableIn?_pushScope :
    (g.pushScope kind parent blockKind blockStart).variableIn? = g.variableIn? := by
  have hnew : g.scopeAt? g.scopes.length = none := List.getElem?_eq_none (Nat.le_refl _)
  funext x name
  rw [variableIn?, scopeAt?_pushScope g kind hp, variableIn?]
  by_cases hx : x = g.scopes.length
  · simp [hx, hnew]
  · rw [if_neg hx, Option.bind_map]
    congr 1
    funext s
    dsimp only [Function.comp]
    split <;> rfl

end PushScope

@[simp] theorem variableAt?_pushScope (g : Graph) (kind : ScopeKind) (parent : Option ScopeId)
    (blockKind : String) (blockStart : Nat) (v : VariableId) :
    (g.pushScope kind parent blockKind blockStart).variableAt? v = g.variableAt? v := by
  cases parent <;> rfl

@[simp] theorem referenceAt?_pushScope (g : Graph) (kind : ScopeKind) (parent : Option ScopeId)
    (blockKind : String) (blockStart : Nat) (i : ReferenceId) :
    (g.pushScope kind parent blockKind blockStart).referenceAt? i = g.referenceAt? i := by
  cases parent <;> rfl

theorem declare_of_new (h : g.variableIn? scope name = none) (d : Definition) :
    g.declare scope name d =
      (g.vars.length,
        ({ g with vars := g.vars ++
            [{ name, scope, definitions := [d], writable := d.kind.isWritable }] } : Graph).modifyScope
          scope fun s =>
            { s with vars := s.vars ++ [g.vars.length],
                     names := Fields.set name g.vars.length s.names }) := by
  simp only [declare, h]

theorem declare_of_known (h : g.variableIn? scope name = some v) (d : Definition) :
    g.declare scope name d =
      (v, g.modifyVariable v fun w => { w with definitions := w.definitions ++ [d] }) := by
  simp only [declare, h]

@[simp] theorem referenceAt?_declare (g : Graph) (scope : ScopeId) (name : String) (d : Definition)
    (i : ReferenceId) : (g.declare scope name d).2.referenceAt? i = g.referenceAt? i := by
  cases h : g.variableIn? scope name with
  | none => rw [declare_of_new h]; rfl
  | some v => rw [declare_of_known h]; rfl

theorem scopeAt?_declare (g : Graph) (scope : ScopeId) (name : String) (d : Definition)
    (x : ScopeId) :
    (g.declare scope name d).2.scopeAt? x =
      (g.scopeAt? x).map fun s =>
        if x = scope ∧ g.variableIn? scope name = none then
          { s with vars := s.vars ++ [g.vars.length],
                   names := Fields.set name g.vars.length s.names }
        else s := by
  cases h : g.variableIn? scope name with
  | none =>
    rw [declare_of_new h]
    simp only [scopeAt?_modifyScope, and_true]
    rfl
  | some v =>
    rw [declare_of_known h]
    simp

/-- A declaration gives its scope the name, unless the scope has it, and changes no other name. -/
theorem variableIn?_declare (hs : g.scopeAt? scope = some s) (name : String) (d : Definition)
    (x : ScopeId) (n : String) :
    (g.declare scope name d).2.variableIn? x n =
      if x = scope ∧ n = name ∧ g.variableIn? scope name = none then some g.vars.length
      else g.variableIn? x n := by
  unfold variableIn?
  rw [scopeAt?_declare]
  by_cases hx : x = scope
  · subst hx
    by_cases hnew : g.variableIn? x name = none
    · have hget : Fields.get? name s.names = none := by simpa [variableIn?, hs] using hnew
      by_cases hn : n = name
      · subst hn
        simp [hs, hnew, hget, Fields.get?_set_self]
      · simp [hs, hnew, hn, Fields.get?_set_of_ne hn]
    · have hget : Fields.get? name s.names ≠ none := by simpa [variableIn?, hs] using hnew
      simp [hs, hnew, hget]
  · simp [hx]

theorem parent?_declare (g : Graph) (scope : ScopeId) (name : String) (d : Definition) :
    (g.declare scope name d).2.parent? = g.parent? := by
  refine parent?_congr (map_scopeAt?_congr (scopeAt?_declare g scope name d) fun x s => ?_)
  split <;> rfl

theorem leftOf_declare (g : Graph) (scope : ScopeId) (name : String) (d : Definition) :
    (g.declare scope name d).2.leftOf = g.leftOf := by
  refine leftOf_congr (map_scopeAt?_congr (scopeAt?_declare g scope name d) fun x s => ?_)
  split <;> rfl

theorem throughOf_declare (g : Graph) (scope : ScopeId) (name : String) (d : Definition) :
    (g.declare scope name d).2.throughOf = g.throughOf := by
  refine throughOf_congr (map_scopeAt?_congr (scopeAt?_declare g scope name d) fun x s => ?_)
  split <;> rfl

theorem variableAt?_declare (g : Graph) (scope : ScopeId) (name : String) (d : Definition)
    (v : VariableId) :
    (g.declare scope name d).2.variableAt? v =
      match g.variableIn? scope name with
      | none =>
        if v = g.vars.length then
          some { name, scope, definitions := [d], writable := d.kind.isWritable }
        else g.variableAt? v
      | some w => (g.variableAt? v).map fun u =>
          if v = w then { u with definitions := u.definitions ++ [d] } else u := by
  cases h : g.variableIn? scope name with
  | none =>
    rw [declare_of_new h]
    exact getElem?_concat ..
  | some w =>
    rw [declare_of_known h]
    simp

theorem scopeAt?_addReference (g : Graph) (scope : ScopeId) (name : String) (start stop : Nat)
    (access : Access) (init : Bool) (x : ScopeId) :
    (g.addReference scope name start stop access init).scopeAt? x =
      (g.scopeAt? x).map fun s =>
        if x = scope then
          { s with references := s.references ++ [g.references.length],
                   left := s.left ++ [g.references.length] }
        else s := by
  simp only [addReference, scopeAt?_modifyScope]
  rfl

@[simp] theorem variableAt?_addReference (g : Graph) (scope : ScopeId) (name : String)
    (start stop : Nat) (access : Access) (init : Bool) (v : VariableId) :
    (g.addReference scope name start stop access init).variableAt? v = g.variableAt? v := rfl

theorem referenceAt?_addReference (g : Graph) (scope : ScopeId) (name : String) (start stop : Nat)
    (access : Access) (init : Bool) (i : ReferenceId) :
    (g.addReference scope name start stop access init).referenceAt? i =
      if i = g.references.length then some { name, start, stop, scope, access, init }
      else g.referenceAt? i := getElem?_concat ..

section AddReference

variable (g : Graph) (scope : ScopeId) (name : String) (start stop : Nat) (access : Access)
  (init : Bool)

@[simp] theorem parent?_addReference :
    (g.addReference scope name start stop access init).parent? = g.parent? := by
  refine parent?_congr (map_scopeAt?_congr
    (scopeAt?_addReference g scope name start stop access init) fun x s => ?_)
  split <;> rfl

@[simp] theorem variableIn?_addReference :
    (g.addReference scope name start stop access init).variableIn? = g.variableIn? := by
  refine variableIn?_congr (map_scopeAt?_congr
    (scopeAt?_addReference g scope name start stop access init) fun x s => ?_)
  split <;> rfl

@[simp] theorem throughOf_addReference :
    (g.addReference scope name start stop access init).throughOf = g.throughOf := by
  refine throughOf_congr (map_scopeAt?_congr
    (scopeAt?_addReference g scope name start stop access init) fun x s => ?_)
  split <;> rfl

theorem leftOf_addReference (hs : g.scopeAt? scope = some s) (x : ScopeId) :
    (g.addReference scope name start stop access init).leftOf x =
      if x = scope then g.leftOf x ++ [g.references.length] else g.leftOf x := by
  rw [leftOf, scopeAt?_addReference, leftOf]
  by_cases hx : x = scope
  · simp [hx, hs]
  · simp [hx]

end AddReference

def unresolved (g : Graph) (scope : ScopeId) (is : List ReferenceId) : List ReferenceId :=
  is.filter fun i => (g.target? scope i).isNone

theorem settle_of_target (h : g.target? scope i = some v) : g.settle scope i = g.resolve i v := by
  unfold target? at h
  simp only [settle, h]

theorem settle_of_no_target (h : g.target? scope i = none) :
    g.settle scope i =
      match g.parent? scope with
      | some p =>
        (g.modifyScope scope fun s => { s with through := s.through ++ [i] }).modifyScope p
          fun s => { s with left := s.left ++ [i] }
      | none => g.modifyScope scope fun s => { s with through := s.through ++ [i] } := by
  unfold target? at h
  have hp : ((g.modifyScope scope fun s => { s with through := s.through ++ [i] }).scopeAt?
      scope).bind Scope.parent = g.parent? scope := by
    rw [parent?, scopeAt?_modifyScope]
    cases g.scopeAt? scope <;> simp
  cases hparent : g.parent? scope <;> simp only [settle, h, hp, hparent]

theorem scopeAt?_settle (g : Graph) (scope : ScopeId) (i : ReferenceId) (x : ScopeId) :
    (g.settle scope i).scopeAt? x =
      (g.scopeAt? x).map fun s =>
        { s with
          through := if x = scope then s.through ++ g.unresolved scope [i] else s.through
          left := if g.parent? scope = some x then s.left ++ g.unresolved scope [i] else s.left } := by
  cases ht : g.target? scope i with
  | some v => simp [settle_of_target ht, resolve, unresolved, ht]
  | none =>
    have hu : g.unresolved scope [i] = [i] := by simp [unresolved, ht]
    rw [settle_of_no_target ht, hu]
    cases hp : g.parent? scope with
    | none =>
      simp only [scopeAt?_modifyScope, reduceCtorEq, if_false]
      congr 1
      funext s
      split <;> rfl
    | some p =>
      simp only [scopeAt?_modifyScope, Option.map_map, Option.some.injEq, eq_comm (a := p)]
      congr 1
      funext s
      dsimp only [Function.comp]
      split <;> split <;> rfl

theorem referenceAt?_settle (g : Graph) (scope : ScopeId) (i j : ReferenceId) :
    (g.settle scope i).referenceAt? j =
      (g.referenceAt? j).map fun r =>
        if j = i then { r with resolved := (g.target? scope i).or r.resolved } else r := by
  cases ht : g.target? scope i with
  | some v => simp [settle_of_target ht, resolve]
  | none =>
    have hid : (fun r : Reference => if j = i then { r with resolved := none.or r.resolved } else r)
        = id := by
      funext r
      simp
    rw [settle_of_no_target ht, hid, Option.map_id_apply]
    split <;> rfl

def referredTo (g : Graph) (is : List ReferenceId) (v : Variable) : Variable :=
  { v with
    references := v.references ++ is
    used := v.used || is.any fun i => (g.referenceAt? i).any (·.access.reads) }

@[simp] theorem referredTo_nil (g : Graph) : g.referredTo [] = id := by
  funext v
  simp [referredTo]

theorem variableAt?_settle (g : Graph) (scope : ScopeId) (i : ReferenceId) (v : VariableId) :
    (g.settle scope i).variableAt? v =
      (g.variableAt? v).map (g.referredTo ([i].filter fun i => g.target? scope i == some v)) := by
  cases ht : g.target? scope i with
  | some w =>
    rw [settle_of_target ht]
    by_cases hv : v = w
    · have hone : g.referredTo [i] = fun u =>
          { u with
            references := u.references ++ [i]
            used := u.used || (g.referenceAt? i).any (·.access.reads) } := by
        funext u
        simp [referredTo]
      simp [resolve, ht, hv, hone]
    · simp [resolve, ht, hv, Ne.symm hv]
  | none =>
    rw [settle_of_no_target ht]
    simp only [List.filter_cons, ht, List.filter_nil, reduceCtorEq, beq_iff_eq, if_false,
      referredTo_nil, Option.map_id_apply]
    split <;> rfl

@[simp] theorem variableIn?_settle (g : Graph) (scope : ScopeId) (i : ReferenceId) :
    (g.settle scope i).variableIn? = g.variableIn? := by
  refine variableIn?_congr (map_scopeAt?_congr (scopeAt?_settle g scope i) fun x s => ?_)
  rfl

@[simp] theorem parent?_settle (g : Graph) (scope : ScopeId) (i : ReferenceId) :
    (g.settle scope i).parent? = g.parent? := by
  refine parent?_congr (map_scopeAt?_congr (scopeAt?_settle g scope i) fun x s => ?_)
  rfl

@[simp] theorem target?_settle (g : Graph) (scope x : ScopeId) (i j : ReferenceId) :
    (g.settle scope i).target? x j = g.target? x j := by
  simp only [target?, variableIn?_settle, referenceAt?_settle, Option.bind_map]
  congr 1
  funext r
  dsimp only [Function.comp]
  split <;> rfl

@[simp] theorem unresolved_settle (g : Graph) (scope x : ScopeId) (i : ReferenceId)
    (is : List ReferenceId) : (g.settle scope i).unresolved x is = g.unresolved x is := by
  simp only [unresolved, target?_settle]

theorem scopeAt?_foldl_settle (scope x : ScopeId) (is : List ReferenceId) (g : Graph) :
    (is.foldl (settle · scope) g).scopeAt? x =
      (g.scopeAt? x).map fun s =>
        { s with
          through := if x = scope then s.through ++ g.unresolved scope is else s.through
          left := if g.parent? scope = some x then s.left ++ g.unresolved scope is else s.left } := by
  induction is generalizing g with
  | nil =>
    simp [unresolved]
  | cons i is ih =>
    have happ : g.unresolved scope (i :: is) = g.unresolved scope [i] ++ g.unresolved scope is := by
      simp [unresolved, ← List.filter_append]
    rw [List.foldl_cons, ih, scopeAt?_settle, Option.map_map, parent?_settle, unresolved_settle, happ]
    congr 1
    funext s
    dsimp only [Function.comp]
    split <;> split <;> simp

theorem referenceAt?_foldl_settle (scope : ScopeId) (is : List ReferenceId) (g : Graph)
    (j : ReferenceId) :
    (is.foldl (settle · scope) g).referenceAt? j =
      (g.referenceAt? j).map fun r =>
        if j ∈ is then { r with resolved := (g.target? scope j).or r.resolved } else r := by
  induction is generalizing g with
  | nil => simp
  | cons i is ih =>
    rw [List.foldl_cons, ih, referenceAt?_settle, Option.map_map, target?_settle]
    congr 1
    funext r
    dsimp only [Function.comp]
    by_cases hi : j = i
    · subst hi
      cases g.target? scope j <;> simp
    · simp [hi]

theorem variableAt?_foldl_settle (scope : ScopeId) (is : List ReferenceId) (g : Graph)
    (v : VariableId) :
    (is.foldl (settle · scope) g).variableAt? v =
      (g.variableAt? v).map (g.referredTo (is.filter fun i => g.target? scope i == some v)) := by
  induction is generalizing g with
  | nil => simp
  | cons i is ih =>
    have hreads : ∀ j, ((g.settle scope i).referenceAt? j).any (·.access.reads) =
        (g.referenceAt? j).any (·.access.reads) := by
      intro j
      rw [referenceAt?_settle, Option.any_map]
      congr 1
      funext r
      split <;> rfl
    rw [List.foldl_cons, ih, variableAt?_settle, Option.map_map]
    congr 1
    funext u
    have happ : (i :: is).filter (fun i => g.target? scope i == some v) =
        [i].filter (fun i => g.target? scope i == some v) ++
          is.filter fun i => g.target? scope i == some v := by
      rw [← List.filter_append, List.singleton_append]
    simp only [Function.comp, target?_settle, happ, referredTo, hreads, List.any_append,
      List.append_assoc, Bool.or_assoc]

theorem close_eq_foldl (h : g.scopeAt? scope = some s) :
    g.close scope =
      s.left.foldl (settle · scope) (g.modifyScope scope ({ · with left := [] })) := by
  simp only [close, h]

section Close

variable {g : Graph} {scope : ScopeId} {s : Scope} (hs : g.scopeAt? scope = some s)
include hs

theorem scopeAt?_close (hp : s.parent ≠ some scope) (x : ScopeId) :
    (g.close scope).scopeAt? x =
      (g.scopeAt? x).map fun t =>
        { t with
          through := if x = scope then t.through ++ g.unresolved scope s.left else t.through
          left := if x = scope then [] else
            if s.parent = some x then t.left ++ g.unresolved scope s.left else t.left } := by
  have hleft : (g.modifyScope scope ({ · with left := [] })).parent? = g.parent? :=
    parent?_modifyScope _ _ fun _ => rfl
  have hpar : g.parent? scope = s.parent := by simp [parent?, hs]
  have htarget := target?_modifyScope g scope (f := ({ · with left := [] })) fun _ => rfl
  rw [close_eq_foldl hs, scopeAt?_foldl_settle, hleft, hpar]
  simp only [unresolved, htarget, scopeAt?_modifyScope, Option.map_map]
  congr 1
  funext t
  dsimp only [Function.comp]
  by_cases hx : x = scope
  · subst hx
    simp [hp]
  · simp [hx]

theorem referenceAt?_close (j : ReferenceId) :
    (g.close scope).referenceAt? j =
      (g.referenceAt? j).map fun r =>
        if j ∈ s.left then { r with resolved := (g.variableIn? scope r.name).or r.resolved }
        else r := by
  have htarget := target?_modifyScope g scope (f := ({ · with left := [] })) fun _ => rfl
  rw [close_eq_foldl hs, referenceAt?_foldl_settle, referenceAt?_modifyScope, htarget]
  cases hr : g.referenceAt? j with
  | none => rfl
  | some r => simp [target?, hr]

theorem variableAt?_close (v : VariableId) :
    (g.close scope).variableAt? v =
      (g.variableAt? v).map
        (g.referredTo (s.left.filter fun i => g.target? scope i == some v)) := by
  have htarget := target?_modifyScope g scope (f := ({ · with left := [] })) fun _ => rfl
  rw [close_eq_foldl hs, variableAt?_foldl_settle]
  simp only [htarget]
  rfl

theorem variableIn?_close (hp : s.parent ≠ some scope) :
    (g.close scope).variableIn? = g.variableIn? := by
  refine variableIn?_congr (map_scopeAt?_congr (scopeAt?_close hs hp) fun x t => ?_)
  rfl

theorem parent?_close (hp : s.parent ≠ some scope) : (g.close scope).parent? = g.parent? := by
  refine parent?_congr (map_scopeAt?_congr (scopeAt?_close hs hp) fun x t => ?_)
  rfl

theorem throughOf_close (hp : s.parent ≠ some scope) (x : ScopeId) :
    (g.close scope).throughOf x =
      if x = scope then g.throughOf x ++ g.unresolved scope s.left else g.throughOf x := by
  rw [throughOf, scopeAt?_close hs hp, throughOf]
  by_cases hx : x = scope
  · simp [hx, hs]
  · simp [hx, Function.comp_def]

theorem leftOf_close (hp : s.parent ≠ some scope)
    (hq : ∀ p, s.parent = some p → ∃ t, g.scopeAt? p = some t) (x : ScopeId) :
    (g.close scope).leftOf x =
      if x = scope then [] else
      if s.parent = some x then g.leftOf x ++ g.unresolved scope s.left else g.leftOf x := by
  rw [leftOf, scopeAt?_close hs hp, leftOf]
  by_cases hx : x = scope
  · simp [hx, hs]
  · by_cases hpx : s.parent = some x
    · obtain ⟨t, ht⟩ := hq x hpx
      simp [hx, hpx, ht]
    · simp [hx, hpx]

end Close

section Hoist

variable {g g' : Graph} {id : VariableId} {v : Variable} {target : ScopeId}

theorem hoist_of_owned (hv : g.variableAt? id = some v) (h : v.scope = target) :
    g.hoist id target = .ok g := by
  simp only [hoist, hv, h, if_true]

section Moved

variable (hv : g.variableAt? id = some v) (hne : v.scope ≠ target)
  (h : g.hoist id target = .ok g')
include hv hne h

/-- A variable is moved only from the scope that has it under its name. -/
theorem variableIn?_of_hoist : g.variableIn? v.scope v.name = some id := by
  simp only [hoist, hv, hne, if_false] at h
  split at h
  · cases h
  · exact Decidable.not_not.mp ‹_›

theorem hoist_eq :
    g' = ((g.modifyScope v.scope fun s =>
        { s with names := Fields.erase v.name s.names, vars := s.vars.filter (· ≠ id) }).modifyScope
      target fun s =>
        { s with names := Fields.set v.name id s.names, vars := s.vars ++ [id] }).modifyVariable
      id ({ · with scope := target }) := by
  have hin := variableIn?_of_hoist hv hne h
  simp only [hoist, hv, hne, hin, if_false, ne_eq, not_true] at h
  cases h
  rfl

theorem scopeAt?_hoist (x : ScopeId) :
    g'.scopeAt? x =
      (g.scopeAt? x).map fun s =>
        if x = target then
          { s with names := Fields.set v.name id s.names, vars := s.vars ++ [id] }
        else if x = v.scope then
          { s with names := Fields.erase v.name s.names, vars := s.vars.filter (· ≠ id) }
        else s := by
  rw [hoist_eq hv hne h]
  simp only [scopeAt?_modifyVariable, scopeAt?_modifyScope, Option.map_map]
  congr 1
  funext s
  by_cases hx : x = target
  · simp [hx, Ne.symm hne]
  · by_cases hx' : x = v.scope <;> simp [hx, hx', hne]

theorem variableAt?_hoist (u : VariableId) :
    g'.variableAt? u =
      (g.variableAt? u).map fun w => if u = id then { w with scope := target } else w := by
  rw [hoist_eq hv hne h, variableAt?_modifyVariable]
  simp

theorem referenceAt?_hoist (i : ReferenceId) : g'.referenceAt? i = g.referenceAt? i := by
  rw [hoist_eq hv hne h]
  simp

theorem variableIn?_hoist {t} (hs : g.scopeAt? v.scope = some s) (ht : g.scopeAt? target = some t)
    (hnodup : (Fields.names s.names).Nodup) (x : ScopeId) (n : String) :
    g'.variableIn? x n =
      if n = v.name then
        if x = target then some id else if x = v.scope then none else g.variableIn? x n
      else g.variableIn? x n := by
  unfold variableIn?
  rw [scopeAt?_hoist hv hne h]
  by_cases hx : x = target
  · subst hx
    by_cases hn : n = v.name
    · simp [ht, hn, Fields.get?_set_self]
    · simp [ht, hn, Fields.get?_set_of_ne hn]
  · by_cases hx' : x = v.scope
    · subst hx'
      by_cases hn : n = v.name
      · simp [hs, hx, hn, Fields.get?_erase_self hnodup]
      · simp [hs, hx, hn, Fields.get?_erase_of_ne hn]
    · simp [hx, hx']

end Moved

end Hoist

theorem resettle_eq_settle (h : g.parent? globalScope = none) (i : ReferenceId) :
    g.resettle i = g.settle globalScope i := by
  cases ht : g.target? globalScope i with
  | some v =>
    rw [settle_of_target ht]
    unfold target? at ht
    simp only [resettle, ht]
  | none =>
    rw [settle_of_no_target ht, h]
    unfold target? at ht
    simp only [resettle, ht]

theorem foldl_resettle (h : g.parent? globalScope = none) (is : List ReferenceId) :
    is.foldl resettle g = is.foldl (settle · globalScope) g := by
  induction is generalizing g with
  | nil => rfl
  | cons i is ih =>
    rw [List.foldl_cons, List.foldl_cons, resettle_eq_settle h, ih]
    rw [parent?_settle, h]

section ResolveThrough

variable {g : Graph} {s : Scope} (hs : g.scopeAt? globalScope = some s) (hp : s.parent = none)
include hs hp

theorem resolveThrough_eq_foldl :
    g.resolveThrough = s.through.foldl (settle · globalScope)
      (g.modifyScope globalScope ({ · with through := [] })) := by
  simp only [resolveThrough, hs]
  apply foldl_resettle
  simp [parent?, hs, hp]

theorem scopeAt?_resolveThrough (x : ScopeId) :
    g.resolveThrough.scopeAt? x =
      (g.scopeAt? x).map fun t =>
        { t with
          through := if x = globalScope then g.unresolved globalScope s.through else t.through } := by
  have hpar : (g.modifyScope globalScope ({ · with through := [] })).parent? globalScope = none := by
    simp [parent?, hs, hp]
  have htarget := target?_modifyScope g globalScope (f := ({ · with through := [] })) fun _ => rfl
  rw [resolveThrough_eq_foldl hs hp, scopeAt?_foldl_settle, hpar]
  simp only [unresolved, htarget, scopeAt?_modifyScope, Option.map_map]
  congr 1
  funext t
  dsimp only [Function.comp]
  by_cases hx : x = globalScope <;> simp [hx]

theorem referenceAt?_resolveThrough (j : ReferenceId) :
    g.resolveThrough.referenceAt? j =
      (g.referenceAt? j).map fun r =>
        if j ∈ s.through then { r with resolved := (g.variableIn? globalScope r.name).or r.resolved }
        else r := by
  have htarget := target?_modifyScope g globalScope (f := ({ · with through := [] })) fun _ => rfl
  rw [resolveThrough_eq_foldl hs hp, referenceAt?_foldl_settle, referenceAt?_modifyScope, htarget]
  cases hr : g.referenceAt? j with
  | none => rfl
  | some r => simp [target?, hr]

theorem variableAt?_resolveThrough (v : VariableId) :
    g.resolveThrough.variableAt? v =
      (g.variableAt? v).map
        (g.referredTo (s.through.filter fun i => g.target? globalScope i == some v)) := by
  have htarget := target?_modifyScope g globalScope (f := ({ · with through := [] })) fun _ => rfl
  rw [resolveThrough_eq_foldl hs hp, variableAt?_foldl_settle]
  simp only [htarget]
  rfl

theorem variableIn?_resolveThrough : g.resolveThrough.variableIn? = g.variableIn? := by
  refine variableIn?_congr (map_scopeAt?_congr (scopeAt?_resolveThrough hs hp) fun x t => ?_)
  rfl

theorem parent?_resolveThrough : g.resolveThrough.parent? = g.parent? := by
  refine parent?_congr (map_scopeAt?_congr (scopeAt?_resolveThrough hs hp) fun x t => ?_)
  rfl

end ResolveThrough

end Scoping.Graph

end SvelteSyntax
