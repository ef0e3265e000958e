import SvelteSyntax.Proofs.Program.Statements
import SvelteSyntax.Proofs.Scoping.Declared
import SvelteSyntax.Proofs.Scoping.Tables

namespace SvelteSyntax.Scoping

open Run Text Program

variable {g : Graph} {vs : List Component.Variable}

theorem Graph.isSome_topLevel? {name} :
    (g.topLevel? name).isSome ↔ (g.variableIn? Graph.globalScope name).isSome ∨
      ∃ x, g.moduleScope? = some x ∧ (g.variableIn? x name).isSome := by
  unfold Graph.topLevel?
  cases hm : g.moduleScope? <;> simp [Option.isSome_or]

theorem Graph.isSome_topLevel?_of_topScope? {options x name} (hx : g.topScope? options = some x)
    (h : (g.variableIn? x name).isSome) :
    (g.topLevel? name).isSome := by
  rw [Graph.isSome_topLevel?]
  unfold Graph.topScope? at hx
  split at hx
  · exact .inr ⟨x, hx, h⟩
  · cases hx
    exact .inl h

def KeepsTop (g g' : Graph) : Prop := ∀ name, (g.topLevel? name).isSome → (g'.topLevel? name).isSome

variable {v : Component.Variable}

section Steps

variable {g g' : Graph}

theorem KeepsTop.of_names {f : ScopeId → Scope → Scope}
    (hat : ∀ x, g'.scopeAt? x = (g.scopeAt? x).map (f x))
    (hf : ∀ x s, (f x s).kind = s.kind ∧ (f x s).children = s.children)
    (hnames : ∀ x name, (g.variableIn? x name).isSome → (g'.variableIn? x name).isSome) :
    KeepsTop g g' := by
  intro name h
  rw [Graph.isSome_topLevel?, Graph.moduleScope?_congr hat hf]
  rcases Graph.isSome_topLevel?.mp h with h | ⟨x, hx, h⟩
  · exact .inl (hnames _ _ h)
  · exact .inr ⟨x, hx, hnames _ _ h⟩

theorem keepsTop_modifyVariable (g : Graph) (id : VariableId) (f : Variable → Variable) :
    KeepsTop g (g.modifyVariable id f) := fun _ h => h

theorem keepsTop_declare {s : Scope} (hs : g.scopeAt? Graph.globalScope = some s) (name : String)
    (d : Definition) : KeepsTop g (g.declare Graph.globalScope name d).2 := by
  refine .of_names (Graph.scopeAt?_declare g Graph.globalScope name d) (fun x s => ?_) fun x n h => ?_
  · split
    · exact ⟨rfl, rfl⟩
    · exact ⟨rfl, rfl⟩
  · rw [Graph.variableIn?_declare hs]
    split
    · rfl
    · exact h

theorem Steady.keepsTop_lift (h : Steady g) {id w} (hw : g.variableAt? id = some w)
    (hok : g.hoist id Graph.globalScope = .ok g') :
    KeepsTop g g' := by
  by_cases howned : w.scope = Graph.globalScope
  · rw [Graph.hoist_of_owned hw howned] at hok
    cases hok
    exact fun _ h => h
  obtain ⟨s, hs, -⟩ := Graph.variableIn?_eq_some.mp (h.tabled.located id w hw)
  obtain ⟨t, ht⟩ := h.settled.lineage.1
  have hin := Graph.variableIn?_hoist hw howned hok hs ht (h.settled.registered.2 _ s hs)
  have hmodule : g'.moduleScope? = g.moduleScope? :=
    Graph.moduleScope?_congr (Graph.scopeAt?_hoist hw howned hok) fun x u => by
      split
      · exact ⟨rfl, rfl⟩
      · split
        · exact ⟨rfl, rfl⟩
        · exact ⟨rfl, rfl⟩
  intro name hname
  rw [Graph.isSome_topLevel?, hmodule]
  by_cases hmoved : name = w.name
  · refine .inl ?_
    rw [hin, if_pos hmoved, if_pos rfl]
    rfl
  · have hsame : ∀ x, g'.variableIn? x name = g.variableIn? x name := fun x => by
      rw [hin, if_neg hmoved]
    simp only [hsame]
    exact Graph.isSome_topLevel?.mp hname

theorem Steady.keepsTop_matching (h : Steady g) {id} (hok : g.matching v = .ok (id, g')) :
    KeepsTop g g' := by
  unfold Graph.matching at hok
  split at hok
  · cases hok
    exact fun _ h => h
  · split at hok
    · obtain ⟨s, hs⟩ := h.settled.lineage.1
      have hkeeps := keepsTop_declare hs v.name ⟨.injected, 0, 0, "Program"⟩
      rw [Except.ok.inj hok] at hkeeps
      exact hkeeps
    · cases hok

theorem Steady.keepsTop_applyVariable (h : Steady g) (hok : g.applyVariable v = .ok g') :
    KeepsTop g g' := by
  unfold Graph.applyVariable at hok
  obtain ⟨⟨id, g₁⟩, hmatch, hok⟩ := bind_eq_ok.mp hok
  obtain ⟨h₁, w, hw, -⟩ := h.matching hmatch
  have hkeeps := h.keepsTop_matching hmatch
  dsimp only at hok
  split at hok
  · obtain ⟨g₂, hhoist, hok⟩ := bind_eq_ok.mp hok
    cases hok
    have hlift := h₁.keepsTop_lift hw hhoist
    exact fun name hname => keepsTop_modifyVariable g₂ id _ name (hlift name (hkeeps name hname))
  · cases hok
    exact fun name hname => keepsTop_modifyVariable g₁ id _ name (hkeeps name hname)

theorem Graph.exists_matching (hv : v.injected = false → (g.topLevel? v.name).isSome) :
    ∃ p, g.matching v = .ok p := by
  unfold Graph.matching
  split
  · exact ⟨_, rfl⟩
  · next hnone =>
    split
    · exact ⟨_, rfl⟩
    · next hdeclared =>
      have hsome := hv (by simpa using hdeclared)
      rw [hnone] at hsome
      cases hsome

theorem Steady.exists_applyVariable (h : Steady g)
    (hv : v.injected = false → (g.topLevel? v.name).isSome) :
    ∃ g', g.applyVariable v = .ok g' ∧ Steady g' := by
  refine (h.applyVariable v).resolve_left fun herror => ?_
  obtain ⟨⟨id, g₁⟩, hmatch⟩ := Graph.exists_matching hv
  rcases bind_eq_error.mp herror with hmatch' | ⟨p, hmatch', herror⟩
  · cases hmatch.symm.trans hmatch'
  · cases hmatch.symm.trans hmatch'
    obtain ⟨g₂, hhoist⟩ := (h.matching hmatch).1.tabled.exists_hoist id Graph.globalScope
    dsimp only at herror
    rw [hhoist] at herror
    split at herror <;> cases herror

theorem Steady.exists_applyAll (h : Steady g)
    (hvs : ∀ v ∈ vs, v.injected = false → (g.topLevel? v.name).isSome) :
    ∃ g', vs.foldlM Graph.applyVariable g = .ok g' := by
  induction vs generalizing g with
  | nil => exact ⟨g, rfl⟩
  | cons v vs ih =>
    obtain ⟨g₁, hok, h₁⟩ := h.exists_applyVariable (hvs v (List.mem_cons_self ..))
    have hkeeps := h.keepsTop_applyVariable hok
    obtain ⟨g', hok'⟩ := ih h₁ fun w hw hinjected =>
      hkeeps w.name (hvs w (List.mem_cons_of_mem _ hw) hinjected)
    rw [List.foldlM_cons, hok]
    exact ⟨g', hok'⟩

theorem Steady.exists_applyVariables (h : Steady g)
    (hvs : ∀ v ∈ vs, v.injected = false → (g.topLevel? v.name).isSome) :
    ∃ g', g.applyVariables vs = .ok g' := by
  obtain ⟨g', hok⟩ := h.exists_applyAll hvs
  exact ⟨g'.resolveThrough, by rw [Graph.applyVariables, hok]; rfl⟩

end Steps

/-- What the component says is declared is in the top-level scope of its program, and the graph takes
over what the component says about its variables. -/
theorem compiled_variables_declared {js : Script.Frontend} {options : Options} {source : List Char}
    {compiled : Component.Compiled} {converted : Converted} {g : Graph}
    (hcompile : Component.compileWith js options source = .ok compiled)
    (hconvert : convert (js.parser options) options (LineIndex.ofText source) source
      compiled.template = .ok converted)
    (hanalyze : analyze options converted.ast.program = .ok g) :
    (∀ v ∈ compiled.vars, v.injected = false →
      ∃ x, g.topScope? options = some x ∧ (g.variableIn? x v.name).isSome) ∧
      ∃ g', g.applyVariables compiled.vars = .ok g' := by
  have hdrafted : TemplateDrafted compiled.template := by
    obtain ⟨parsed, -, hparsed, -, htemplate, -⟩ := Component.analysis_of_compileWith hcompile
    exact htemplate ▸ templateDrafted_of_parse (Script.parser_plain js options source) hparsed
  have hdeclared : ∀ v ∈ compiled.vars, v.injected = false →
      ∃ x, g.topScope? options = some x ∧ (g.variableIn? x v.name).isSome := by
    intro v hv hinjected
    obtain ⟨script, n, hscript, htop, hn⟩ := Component.declaredIn_of_compileWith hcompile hv hinjected
    obtain ⟨named, hsited⟩ := htop.sited
    obtain ⟨n', hbody, hrenews⟩ := renews_of_convert hdrafted hconvert hscript htop
    exact declared_of_analyze hanalyze hbody (declares_of_renews hn hsited hrenews)
  refine ⟨hdeclared, (built_of_analyze hanalyze).steady.exists_applyVariables ?_⟩
  intro v hv hinjected
  obtain ⟨x, hx, hname⟩ := hdeclared v hv hinjected
  exact Graph.isSome_topLevel?_of_topScope? hx hname

/-- Imports, a pattern with shorthands, defaults and rests, and names that only the component knows. -/
theorem compiled_variables_declared_patterns :
    let source := ("<script>import a, \x7b b as c, d \x7d from 'm';" ++
      "export let \x7b e, f: [g, ...h], i: j = 1 \x7d = c;$: k = $a;</script>").toList
    ∃ compiled converted g, Component.compile {} source = .ok compiled ∧
      convert (Script.parser {}) {} (LineIndex.ofText source) source compiled.template =
        .ok converted ∧
      analyze {} converted.ast.program = .ok g ∧
      compiled.vars.map (fun v => (v.name, v.injected)) =
        [("a", false), ("c", false), ("d", false), ("e", false), ("g", false), ("h", false),
         ("j", false), ("k", true), ("$a", true)] ∧
      (∀ v ∈ compiled.vars, v.injected = false →
        ∃ x, g.topScope? {} = some x ∧ (g.variableIn? x v.name).isSome) ∧
      ∃ g', g.applyVariables compiled.vars = .ok g' := by
  intro source
  have hrun : ((Component.compile {} source).toOption.bind fun compiled =>
      (convert (Script.parser {}) {} (LineIndex.ofText source) source
        compiled.template).toOption.bind fun converted =>
      (analyze {} converted.ast.program).toOption.map fun _ =>
        compiled.vars.map fun v => (v.name, v.injected)) =
      some [("a", false), ("c", false), ("d", false), ("e", false), ("g", false), ("h", false),
        ("j", false), ("k", true), ("$a", true)] := by
    simp only [convert, normalizeTree_eq, leaveNode, finishRoot, locatedTokens, locatedComments,
      sortDisjoint_eq_insertionSort]
    decide +kernel
  obtain ⟨compiled, hcompiled, hrun⟩ := Option.bind_eq_some_iff.mp hrun
  obtain ⟨converted, hconverted, hrun⟩ := Option.bind_eq_some_iff.mp hrun
  obtain ⟨g, hg, hvars⟩ := Option.map_eq_some_iff.mp hrun
  rw [toOption_eq_some] at hcompiled hconverted hg
  obtain ⟨hdeclared, happlied⟩ := compiled_variables_declared hcompiled hconverted hg
  exact ⟨compiled, converted, g, hcompiled, hconverted, hg, hvars, hdeclared, happlied⟩

end SvelteSyntax.Scoping
