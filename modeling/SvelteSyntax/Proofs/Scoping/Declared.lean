import SvelteSyntax.Proofs.Program.Bindings
import SvelteSyntax.Proofs.Scoping.Walks

namespace SvelteSyntax.Scoping

open Run Program

/-- The setting in which every node is walked, and it is not asked how a walk can fail. -/
def Setting.free (visit : Node → Walk Unit) : Setting :=
  { visit, calls := fun _ _ => True, opens := fun _ => True, fits := False }

theorem Setting.loose_free (visit : Node → Walk Unit) (n : Node) : (Setting.free visit).Loose n :=
  fun _ _ _ _ _ => trivial

/-- A scope has a name by a declaration that is no reactive assignment. -/
def Graph.Defines (g : Graph) (scope : ScopeId) (name : String) : Prop :=
  ∃ v w, g.variableIn? scope name = some v ∧ g.variableAt? v = some w ∧
    ∃ d ∈ w.definitions, d.kind ≠ .reactive

variable {g : Graph} {way : DefinitionKind}

theorem Evolves.defines {g'} (h : Evolves g g') {scope : ScopeId} {name : String}
    (hg : g.Defines scope name) : g'.Defines scope name := by
  obtain ⟨v, w, hin, hw, d, hd, hway⟩ := hg
  obtain ⟨w', hw', hcontinues⟩ := h.vars v w hw
  exact ⟨v, w', h.names _ _ v hin, hw', d, hcontinues.definitions.subset hd, hway⟩

theorem Built.defines_declare {opens} (h : Built opens g) {scope : ScopeId} (hscope : scope ∈ opens)
    (name : String) {d} (hway : d.kind ≠ .reactive) :
    (g.declare scope name d).2.Defines scope name := by
  obtain ⟨s, hs⟩ := h.nested.1.exists_scope hscope
  have hin := Graph.variableIn?_declare hs name d scope name
  have hat := Graph.variableAt?_declare g scope name d
  cases hfound : g.variableIn? scope name with
  | none =>
    rw [if_pos ⟨rfl, rfl, hfound⟩] at hin
    refine ⟨g.vars.length, { name, scope, definitions := [d], writable := d.kind.isWritable }, hin, ?_, d,
      List.mem_singleton_self d, hway⟩
    rw [hat, hfound]
    exact if_pos rfl
  | some v =>
    obtain ⟨w, hw, -⟩ := h.registered.1 _ _ _ hfound
    rw [if_neg (by simp [hfound]), hfound] at hin
    refine ⟨v, { w with definitions := w.definitions ++ [d] }, hin, ?_, d, by simp, hway⟩
    simp [hat, hfound, hw]

def Adds {α : Type} (scope : ScopeId) (name : String) (current : ScopeId) (outer : List ScopeId)
    (kind : ScopeKind) (w : Walk α) : Prop :=
  ∀ b a b', Within current outer kind b.graph → w current b = .ok (a, b') → b'.graph.Defines scope name

namespace Adds

variable {α β : Type} {name : String} {scope current : ScopeId} {outer : List ScopeId}
  {kind : ScopeKind}

theorem bind_left {w : Walk α} {f : α → Walk β} (hw : Adds scope name current outer kind w)
    (hwalks : Walks False current outer kind w) (hf : ∀ a, Walks False current outer kind (f a)) :
    Adds scope name current outer kind (w >>= f) := by
  intro b c b' hb h
  obtain ⟨a, b₁, h₁, h₂⟩ := walk_bind_eq_ok.mp h
  obtain ⟨hb₁, -⟩ := ((hwalks b hb).1 a b₁ h₁).grows hb
  exact (((hf a b₁ hb₁).1 c b' h₂).grows hb₁).2.defines (hw b a b₁ hb h₁)

theorem bind_right {w : Walk α} {f : α → Walk β} (hwalks : Walks False current outer kind w)
    (hf : ∀ a, Adds scope name current outer kind (f a)) :
    Adds scope name current outer kind (w >>= f) := by
  intro b c b' hb h
  obtain ⟨a, b₁, h₁, h₂⟩ := walk_bind_eq_ok.mp h
  exact hf a b₁ c b' (((hwalks b hb).1 a b₁ h₁).grows hb).1 h₂

theorem walks_forM {f : α → Walk PUnit} (hf : ∀ a, Walks False current outer kind (f a))
    (xs : List α) : Walks False current outer kind (xs.forM f) := by
  induction xs with
  | nil =>
    refine fun b hb => ⟨fun a b' h => ?_, fun _ _ => False.elim⟩
    cases h
    exact .step .stay
  | cons a xs ih => exact .bind (hf a) fun _ => ih

theorem forM {xs : List α} {f : α → Walk PUnit} {x : α} (hx : x ∈ xs)
    (hadds : Adds scope name current outer kind (f x)) (hf : ∀ a, Walks False current outer kind (f a)) :
    Adds scope name current outer kind (xs.forM f) := by
  induction xs with
  | nil => cases hx
  | cons a xs ih =>
    rcases List.mem_cons.mp hx with rfl | hx
    · exact bind_left hadds (hf x) fun _ => walks_forM hf xs
    · exact bind_right (hf a) fun _ => ih hx

theorem read_bind {f : ScopeId → Walk β} (h : Adds scope name current outer kind (f current)) :
    Adds scope name current outer kind (read >>= f) := h

section Rules

variable {visit : Node → Walk Unit}
  (hv : ∀ n {current outer kind}, Walks False current outer kind (visit n))
include hv

theorem walks_of_plan {W : (Node → Walk Unit) → Walk α}
    (h : (Setting.free visit).Plans current outer kind W) : Walks False current outer kind (W visit) :=
  h.walks fun _ m _ _ _ => hv m

theorem declarePattern {pattern owner} (hmay : MayDeclare current outer kind scope way owner)
    (h : pattern.Binds name) :
    Adds scope name current outer kind (Scoping.declarePattern visit scope pattern way owner) := by
  obtain ⟨i, hi, hname⟩ := h.exists_boundIdentifier
  have hwalks : ∀ i, Walks False current outer kind (Scoping.declareIdentifier scope way owner i) :=
    fun _ => walks_of_plan hv (.declareIdentifier hmay)
  refine bind_left (forM hi (fun b a b' hb hrun => ?_) hwalks) (walks_forM hwalks _) fun _ =>
    walks_forM (fun n => hv n) _
  simp only [Scoping.declareIdentifier, hname] at hrun
  cases hrun
  exact hb.built.defines_declare hmay.1 name hmay.2.1

theorem declareField {n c : Node} {field} (hmay : MayDeclare current outer kind scope way n)
    (hc : n.child? field = some c) (h : c.Binds name) :
    Adds scope name current outer kind (Scoping.declareField visit scope n field way) := by
  simp only [Scoping.declareField, hc]
  exact declarePattern hv hmay h

theorem visitDeclarator {d id} (hscope : scope ∈ current :: outer) (hid : d.child? "id" = some id)
    (h : id.Binds name) :
    Adds scope name current outer kind (Scoping.visitDeclarator visit scope d) := by
  have hmay : MayDeclare current outer kind scope .variableName d :=
    ⟨hscope, by decide, fun h => by cases h⟩
  simp only [Scoping.visitDeclarator, hid]
  refine bind_left (declarePattern hv hmay h) (walks_of_plan hv (.declarePattern hmay fun _ _ _ => trivial))
    fun _ => ?_
  split
  · exact .bind (walks_forM (fun _ => walks_of_plan hv .refer) _) fun _ => hv _
  · exact walks_of_plan hv .pure

end Rules

end Adds

/-- The scope that a statement declares its names in: for `var` that is a scope of a program or of a
function. -/
def declaringScope (g : Graph) (n : Node) (scope : ScopeId) : ScopeId :=
  if n.kind = "VariableDeclaration" ∧ n.string? "kind" = some "var" then
    variableScopeWithin g (scope + 1) scope
  else scope

section Rules

variable {name : String} {current : ScopeId} {outer : List ScopeId} {kind : ScopeKind} {n : Node}
  {b b' : Building}

theorem declaringScope_of_isVariableScope (hb : Within current outer kind b.graph)
    (hkind : kind.isVariableScope) : declaringScope b.graph n current = current := by
  obtain ⟨s, hs, hsame⟩ := Option.map_eq_some_iff.mp hb.kind
  simp [declaringScope, variableScopeWithin, hs, hsame, hkind]

theorem defines_of_visitRule {visit : Node → Walk Unit}
    (hv : ∀ n {current outer kind}, Walks False current outer kind (visit n)) (h : n.Declares name)
    (hexport : n.kind ≠ "ExportNamedDeclaration") (hb : Within current outer kind b.graph)
    (hrun : visitRule visit n current b = .ok ((), b')) :
    b'.graph.Defines (declaringScope b.graph n current) name := by
  cases h with
  | @declarator _ d id _ hn hd hid hbinds =>
    have hforM : ∀ scope ∈ current :: outer, Adds scope name current outer kind
        ((n.children "declarations").forM (visitDeclarator visit scope)) := fun scope hscope =>
      .forM hd (.visitDeclarator hv hscope hid hbinds) fun d => Adds.walks_of_plan hv
        (.visitDeclarator hscope (Setting.loose_free visit d))
    simp only [visitRule, hn, visitVariables, beq_iff_eq] at hrun
    unfold declaringScope
    split at hrun
    · next hvar =>
      rw [if_pos ⟨hn, hvar⟩]
      exact hforM _ (variableScopeWithin_mem hb.built.nested.1 _) b () b' hb hrun
    · next hvar =>
      rw [if_neg fun h => hvar h.2]
      exact hforM current (List.mem_cons_self ..) b () b' hb hrun
  | @named _ id _ hn hid hbinds =>
    have hscope : declaringScope b.graph n current = current := by
      rcases hn with hn | hn <;> simp [declaringScope, hn]
    have hwalks : ∀ {way}, way ∉ [DefinitionKind.templateBinding, .reactive] →
        Walks False current outer kind (declareField visit current n "id" way) := fun hway =>
      Adds.walks_of_plan (W := fun v => declareField v current n "id" _) hv
        (.declareOwn (Setting.loose_free _ n) hway)
    rw [hscope]
    rcases hn with hn | hn
    · simp only [visitRule, hn] at hrun
      exact Adds.read_bind (.bind_left (.declareField hv (.own (by decide)) hid hbinds)
        (hwalks (by decide)) fun _ => Adds.walks_of_plan (W := fun v => visitFunction v n) hv
          (.visitFunction (fun _ _ _ => trivial) (Setting.loose_free _ n))) b () b' hb hrun
    · simp only [visitRule, hn] at hrun
      exact Adds.read_bind (.bind_left (.declareField hv (.own (by decide)) hid hbinds)
        (hwalks (by decide)) fun _ => Adds.walks_of_plan (W := fun v => visitClass v n) hv
          (.visitClass (fun _ _ _ => trivial) (Setting.loose_free _ n))) b () b' hb hrun
  | @specifier _ m id _ hn hm hid hbinds =>
    have hscope : declaringScope b.graph n current = current := by simp [declaringScope, hn]
    rw [hscope]
    simp only [visitRule, hn] at hrun
    exact Adds.read_bind (.forM hm (.declareField hv (.own (by decide)) hid hbinds) fun m =>
      Adds.walks_of_plan hv (.declareOwn (Setting.loose_free visit m) (by decide))) b () b' hb hrun
  | exported hn => exact absurd hn hexport

theorem Adds.visitWithin (h : n.Declares name) (hkind : kind.isVariableScope) {depth}
    (hdepth : n.depth ≤ depth) :
    Adds current name current outer kind (Scoping.visitWithin depth n) := by
  have hv : ∀ depth n {current outer kind}, Walks False current outer kind
      (Scoping.visitWithin depth n) := fun depth _ => walks_visitWithin depth False.elim
  obtain ⟨depth, rfl⟩ : ∃ d, depth = d + 1 :=
    Nat.exists_eq_add_one.mpr (Nat.lt_of_lt_of_le n.depth_pos hdepth)
  induction h generalizing depth with
  | @exported n m name hn hm _ ih =>
    have hlt := Node.depth_lt_of_hasChild (Node.hasChild_of_child? hm)
    have hpos := m.depth_pos
    obtain ⟨depth, rfl⟩ : ∃ d, depth = d + 1 := Nat.exists_eq_add_one.mpr (by omega)
    rw [Scoping.visitWithin]
    simp only [visitRule, hn, visitExport, hm]
    refine bind_left (ih depth (by omega)) (hv _ m) fun _ => ?_
    split
    · refine walks_forM (fun s => ?_) _
      split
      · exact walks_of_plan (hv 0) .refer
      · exact walks_of_plan (hv 0) .pure
    · exact walks_of_plan (hv 0) .pure
  | declarator hn hd hid hbinds =>
    intro b a b' hb hrun
    have hdefines := defines_of_visitRule (hv depth) (.declarator hn hd hid hbinds) (by simp [hn]) hb hrun
    rwa [declaringScope_of_isVariableScope hb hkind] at hdefines
  | named hn hid hbinds =>
    intro b a b' hb hrun
    have hdefines := defines_of_visitRule (hv depth) (.named hn hid hbinds)
      (by rcases hn with hn | hn <;> simp [hn]) hb hrun
    rwa [declaringScope_of_isVariableScope hb hkind] at hdefines
  | specifier hn hs hid hbinds =>
    intro b a b' hb hrun
    have hdefines := defines_of_visitRule (hv depth) (.specifier hn hs hid hbinds) (by simp [hn]) hb hrun
    rwa [declaringScope_of_isVariableScope hb hkind] at hdefines

end Rules

/-- The scope that the statements at the top level stand in. -/
def Graph.topScope? (g : Graph) (options : Options) : Option ScopeId :=
  if options.isModule then g.moduleScope? else some globalScope

section Analyze

variable {options : Options} {program n : Node} {name : String} {g : Graph}

theorem Adds.statements (hn : n ∈ program.children "body") (h : n.Declares name)
    {current : ScopeId} {outer : List ScopeId} {kind : ScopeKind} (hkind : kind.isVariableScope) :
    Adds current name current outer kind ((program.children "body").forM visit) :=
  .forM hn (.visitWithin h hkind (Nat.le_refl _)) fun _ => walks_visit False.elim

/-- The state in which the walk through the statements of a module begins. -/
def moduleStart (program : Node) : Building :=
  Building.opened { graph := rootGraph program } .module (some Graph.globalScope) program

theorem within_moduleStart (program : Node) :
    Within 1 [Graph.globalScope] .module (moduleStart program).graph :=
  ⟨(within_rootGraph program).built.pushScope .., rfl⟩

theorem moduleScope?_of_evolves (h : Evolves (moduleStart program).graph g) :
    g.moduleScope? = some 1 := by
  obtain ⟨s, hs, -, -, rest, hchildren⟩ := h.scopes Graph.globalScope _ rfl
  obtain ⟨t, ht, hkind, -⟩ := h.scopes 1 _ rfl
  have hmodule : (g.scopeAt? 1).any (·.kind == .module) := by
    rw [ht, Option.any_some, hkind]
    rfl
  rw [Graph.moduleScope?, hs, Option.bind_some, ← hchildren]
  exact List.find?_cons_of_pos hmodule

theorem declared_of_analyze (hg : analyze options program = .ok g)
    (hn : n ∈ program.children "body") (h : n.Declares name) :
    ∃ x, g.topScope? options = some x ∧ (g.variableIn? x name).isSome := by
  have hsome : ∀ {x}, g.Defines x name → (g.variableIn? x name).isSome := by
    rintro x ⟨v, w, hv, -⟩
    exact Option.isSome_iff_exists.mpr ⟨v, hv⟩
  obtain ⟨b, hrun, -, hends, -⟩ := run_of_analyze hg
  unfold topWalk at hrun
  unfold Graph.topScope?
  split at hrun
  · next hmodule =>
    rw [if_pos hmodule]
    obtain ⟨b₁, hbody, hclose⟩ := bracket_eq_ok.mp hrun
    have hb := within_moduleStart program
    have hwalks : Walks False 1 [Graph.globalScope] .module ((program.children "body").forM visit) :=
      Adds.walks_forM (fun _ => walks_visit False.elim) _
    have hadds : Adds 1 name 1 [Graph.globalScope] .module ((program.children "body").forM visit) :=
      .statements hn h rfl
    obtain ⟨hwithin, hstatements⟩ := ((hwalks _ hb).1 _ _ hbody).grows hb
    have hrest := (alters_closeScope hwithin.built hclose).2.toEvolves.trans hends.evolves
    exact ⟨1, moduleScope?_of_evolves (hstatements.toEvolves.trans hrest),
      hsome (hrest.defines (hadds _ _ _ hb hbody))⟩
  · next hscript =>
    rw [if_neg hscript]
    have hadds : Adds Graph.globalScope name Graph.globalScope [] .global
        ((program.children "body").forM visit) := .statements hn h rfl
    exact ⟨Graph.globalScope, rfl,
      hsome (hends.evolves.defines (hadds _ _ _ (within_rootGraph program) hrun))⟩

end Analyze

end SvelteSyntax.Scoping
