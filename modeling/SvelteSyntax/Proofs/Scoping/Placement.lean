import SvelteSyntax.Component.Compile
import SvelteSyntax.Proofs.Scoping.Tables
import SvelteSyntax.Proofs.Script.Builder

namespace SvelteSyntax

open Run Text Markup Program

namespace Scoping

theorem visitable_of_convert {js : Script.Frontend} {options source parsed converted}
    (hparse : Markup.parse (js.parser options) source = .ok parsed)
    (hconvert : convert (js.parser options) options (LineIndex.ofText source) source
      parsed.template = .ok converted) {c} (hc : c ∈ converted.ast.program.children "body")
    (kind : ScopeKind) : Visitable True kind c := by
  have hplain := Script.parser_plain js options source
  have htemplate := templateDrafted_of_parse hplain hparse
  obtain ⟨nctx, root, ⟨before, after, hfinished⟩, -, hsections⟩ := passed_of_convert hconvert
  have hstaged : ∀ key ∈ sectionKeys, ∀ n, root.child? key = some n →
      Staged .embedded n ∧ n.kind ∈ relabelled.map (·.2) :=
    fun key hkey n hn => htemplate.staged hplain hkey (hsections key hkey) hn
  rcases hfinished.mem_body hc with
    ⟨html, hhtml, hc⟩ | ⟨key, hkey, script, hscript, content, hcontent, hc⟩
  · obtain ⟨hhtml, hkind⟩ := hstaged "html" (by decide) html hhtml
    exact visitable_of_child (fun _ => hhtml) (fun _ he => absurd (he ▸ hkind) (by decide)) hc
  · have hkeys : ∀ key ∈ ["instance", "module"], key ∈ sectionKeys := by decide
    obtain ⟨hscript, -⟩ := hstaged key (hkeys key hkey) script hscript
    have hloose : Loose True content := fun _ => scripted_of_child hscript (by decide) hcontent
    exact (hloose.child (Node.hasChild_of_children hc)).visitable

/-- The branches of await blocks are directly in the scopes of the blocks, and the variables of `let:`
are in the scopes of components, under their names. A component that compiles and converts has a scope
graph unless a `let:` does not stand directly in a component. -/
theorem analyze_places :
    (∀ (options : Options) (program : Node) (g : Graph), analyze options program = .ok g →
      (∀ x s, g.scopeAt? x = some s → s.kind = .awaitThen ∨ s.kind = .awaitCatch →
        ∃ p t, s.parent = some p ∧ g.scopeAt? p = some t ∧ t.kind = .await) ∧
      ∀ v w, g.variableAt? v = some w →
        (∃ d ∈ w.definitions, d.kind = .templateBinding ∧ d.nodeKind = "Let") →
        ∃ s, g.scopeAt? w.scope = some s ∧ s.kind = .component ∧ Fields.get? w.name s.names = some v) ∧
    ∀ (js : Script.Frontend) (options : Options) (source : List Char) (compiled : Component.Compiled)
      (converted : Converted) (fault : Fault), Component.compileWith js options source = .ok compiled →
      convert (js.parser options) options (LineIndex.ofText source) source compiled.template =
        .ok converted →
      analyze options converted.ast.program = .error fault →
      ∃ start, ∃ kind ≠ ScopeKind.component,
        fault = .scopeNesting "Let" start ScopeKind.component.name kind.name := by
  refine ⟨fun options program g h => ?_, fun js options source compiled converted fault hcompile
    hconvert hfault => ?_⟩
  · have hnesting : g.Nesting := (evolves_of_analyze h).nesting (nesting_rootGraph program)
    refine ⟨fun x s hs hkind => ?_, fun v w hw hlet => ?_⟩
    · obtain ⟨p, hp, hawait⟩ := hnesting.branches x s hs hkind
      obtain ⟨t, ht, hkind⟩ := Option.map_eq_some_iff.mp hawait
      exact ⟨p, t, hp, ht, hkind⟩
    · obtain ⟨s, hs, hkind⟩ := Option.map_eq_some_iff.mp (hnesting.lets v w hw hlet)
      obtain ⟨s', hs', hname⟩ :=
        Graph.variableIn?_eq_some.mp ((built_of_analyze h).tabled.located v w hw)
      rw [hs] at hs'
      cases hs'
      exact ⟨s, hs, hkind, hname⟩
  · obtain ⟨parsed, hparse, hcompile⟩ := bind_eq_ok.mp hcompile
    obtain ⟨analysis, -, hcompile⟩ := bind_eq_ok.mp hcompile
    obtain ⟨warnings, -, hcompile⟩ := bind_eq_ok.mp hcompile
    cases hcompile
    rw [mapError_eq_ok] at hparse
    exact misplacedLet_of_analyze (fun c hc kind => visitable_of_convert hparse hconvert hc kind) hfault

/-- A `let:` of a component beside an await block with a branch, and a `let:` of an element. -/
theorem analyze_places_lets :
    let placed := "<A let:b/>\x7b#await c then d\x7d\x7b/await\x7d".toList
    let misplaced := "<i let:b/>".toList
    (∃ compiled converted g, Component.compile {} placed = .ok compiled ∧
      convert (Script.parser {}) {} (LineIndex.ofText placed) placed compiled.template =
        .ok converted ∧
      analyze {} converted.ast.program = .ok g ∧
      (∃ x s p t, g.scopeAt? x = some s ∧ s.kind = .awaitThen ∧ s.parent = some p ∧
        g.scopeAt? p = some t ∧ t.kind = .await) ∧
      ∃ v w s, g.variableAt? v = some w ∧ w.name = "b" ∧ g.scopeAt? w.scope = some s ∧
        s.kind = .component ∧ Fields.get? w.name s.names = some v) ∧
    ∃ compiled converted fault, Component.compile {} misplaced = .ok compiled ∧
      convert (Script.parser {}) {} (LineIndex.ofText misplaced) misplaced compiled.template =
        .ok converted ∧
      analyze {} converted.ast.program = .error fault ∧
      ∃ start, ∃ kind ≠ ScopeKind.component,
        fault = .scopeNesting "Let" start ScopeKind.component.name kind.name := by
  intro placed misplaced
  have hplaced : ((Component.compile {} placed).toOption.bind fun compiled =>
      (convert (Script.parser {}) {} (LineIndex.ofText placed) placed
        compiled.template).toOption.bind fun converted =>
      (analyze {} converted.ast.program).toOption.map fun g =>
        ((g.scopeAt? 4).map (·.kind), (g.variableAt? 0).map fun v => (v.name, v.definitions))) =
      some (some .awaitThen, some ("b", [⟨.templateBinding, 7, 8, "Let"⟩])) := by
    simp only [convert, normalizeTree_eq, leaveNode, finishRoot, locatedTokens, locatedComments,
      sortDisjoint_eq_insertionSort]
    decide +kernel
  have hmisplaced : ((Component.compile {} misplaced).toOption.bind fun compiled =>
      (convert (Script.parser {}) {} (LineIndex.ofText misplaced) misplaced
        compiled.template).toOption.map fun converted =>
      (analyze {} converted.ast.program).toOption.isNone) = some true := by
    simp only [convert, normalizeTree_eq, leaveNode, finishRoot, locatedTokens, locatedComments,
      sortDisjoint_eq_insertionSort]
    decide +kernel
  constructor
  · obtain ⟨compiled, hcompiled, hplaced⟩ := Option.bind_eq_some_iff.mp hplaced
    obtain ⟨converted, hconverted, hplaced⟩ := Option.bind_eq_some_iff.mp hplaced
    obtain ⟨g, hg, hplaced⟩ := Option.map_eq_some_iff.mp hplaced
    rw [toOption_eq_some] at hcompiled hconverted hg
    obtain ⟨hscope, hvar⟩ := Prod.mk.inj hplaced
    obtain ⟨s, hs, hkind⟩ := Option.map_eq_some_iff.mp hscope
    obtain ⟨w, hw, hvar⟩ := Option.map_eq_some_iff.mp hvar
    obtain ⟨hname, hdefinitions⟩ := Prod.mk.inj hvar
    obtain ⟨hbranches, hlets⟩ := analyze_places.1 {} converted.ast.program g hg
    obtain ⟨p, t, hp, ht, hawait⟩ := hbranches 4 s hs (.inl hkind)
    have hlet : ⟨.templateBinding, 7, 8, "Let"⟩ ∈ w.definitions :=
      hdefinitions ▸ List.mem_singleton_self _
    obtain ⟨t', ht', hcomponent, hfound⟩ := hlets 0 w hw ⟨_, hlet, rfl, rfl⟩
    exact ⟨compiled, converted, g, hcompiled, hconverted, hg, ⟨4, s, p, t, hs, hkind, hp, ht, hawait⟩,
      0, w, t', hw, hname, ht', hcomponent, hfound⟩
  · obtain ⟨compiled, hcompiled, hmisplaced⟩ := Option.bind_eq_some_iff.mp hmisplaced
    obtain ⟨converted, hconverted, hmisplaced⟩ := Option.map_eq_some_iff.mp hmisplaced
    rw [toOption_eq_some] at hcompiled hconverted
    cases hfault : analyze {} converted.ast.program with
    | ok g =>
      rw [hfault] at hmisplaced
      cases hmisplaced
    | error fault =>
      exact ⟨compiled, converted, fault, hcompiled, hconverted, hfault,
        analyze_places.2 Script.javascript {} misplaced compiled converted fault hcompiled hconverted hfault⟩

end Scoping

end SvelteSyntax
