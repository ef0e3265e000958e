import SvelteSyntax.Component.Compile
import SvelteSyntax.Proofs.Program.Bindings
import SvelteSyntax.Proofs.Program.Patterns

namespace SvelteSyntax.Component

open Markup Run Script

def Table.Backed (P : String → Prop) (t : Table) : Prop :=
  ∀ v ∈ t.vars, v.injected = false → P v.name

variable {v : Variable} {r r' : TemplateReads} {sites : Sites} {compiled : Compiled}

section Tables

variable {P : String → Prop} {t : Table} {name : String}

theorem Table.Backed.declare (h : t.Backed P) (hv : P v.name) (span : Span) :
    (t.declare v span).Backed P := by
  unfold Table.declare
  split
  · exact h
  · intro w hw hinjected
    rcases List.mem_append.mp hw with hw | hw
    · exact h w hw hinjected
    · cases List.mem_singleton.mp hw
      exact hv

theorem Table.Backed.inject (h : t.Backed P) (name : String) : (t.inject name).Backed P := by
  unfold Table.inject
  split
  · exact h
  · intro w hw hinjected
    rcases List.mem_append.mp hw with hw | hw
    · exact h w hw hinjected
    · cases List.mem_singleton.mp hw
      cases hinjected

theorem Table.Backed.update (h : t.Backed P) (name : String) {f}
    (hf : ∀ v, (f v).name = v.name ∧ (f v).injected = v.injected) : (t.update name f).Backed P := by
  intro w hw hinjected
  obtain ⟨v, hv, rfl⟩ := List.mem_map.mp hw
  split at hinjected
  · rw [if_pos ‹_›, (hf v).1]
    exact h v hv ((hf v).2.symm.trans hinjected)
  · rw [if_neg ‹_›]
    exact h v hv hinjected

theorem Table.Backed.subscribe (h : t.Backed P) (name : String) : (t.subscribe name).Backed P := by
  unfold Table.subscribe
  split
  · split
    · exact h.inject name
    · exact h
  · exact h

theorem Table.Backed.useInScript (h : t.Backed P) (use : Use) : (t.useInScript use).Backed P := by
  cases use with
  | reads name _ => exact (h.subscribe name).update name fun _ => ⟨rfl, rfl⟩
  | binds _ => exact h
  | reassigns name | mutates name => exact h.update name fun _ => ⟨rfl, rfl⟩

theorem Table.Backed.useScript (h : t.Backed P) (script : ScriptFacts) :
    (t.useScript script).Backed P :=
  List.foldlRecOn _ _ h fun _ ht use _ => ht.useInScript use

theorem TemplateReads.backed_note (h : r.table.Backed P) (name : String) (offset : Nat) :
    (r.note name offset).table.Backed P := by
  unfold TemplateReads.note
  extract_lets table
  split
  · exact (h.subscribe name).update name fun _ => ⟨rfl, rfl⟩
  · exact h.subscribe name

theorem TemplateReads.backed_expression {span} (h : r.table.Backed P)
    (hr : r.expression js options source sites span = .ok r') : r'.table.Backed P := by
  unfold TemplateReads.expression at hr
  split at hr
  · cases hr
  · cases hr
    refine List.foldlRecOn (motive := fun r : TemplateReads => r.table.Backed P) _ _ h ?_
    rintro r hr ⟨name, offset⟩ -
    dsimp only
    split
    · exact hr
    · exact TemplateReads.backed_note hr name _

theorem TemplateReads.backed_expressions {spans : List Span} (h : r.table.Backed P)
    (hr : spans.foldlM (TemplateReads.expression js options source sites) r = .ok r') :
    r'.table.Backed P := by
  induction spans generalizing r with
  | nil =>
    cases hr
    exact h
  | cons span spans ih =>
    rw [List.foldlM_cons] at hr
    obtain ⟨r₁, h₁, hr⟩ := bind_eq_ok.mp hr
    exact ih (TemplateReads.backed_expression h h₁) hr

theorem Table.Backed.bind (h : t.Backed P) (js : Frontend) (options : Options) (source : List Char)
    (sites : Sites) (span : Span) : (t.bind js options source sites span).Backed P := by
  unfold Table.bind
  split
  · exact h
  · split
    · exact h
    · exact h.useInScript _

theorem Table.Backed.declareScript (h : t.Backed P) {script : ScriptFacts}
    (hnames : ∀ x ∈ script.statements, ∀ d ∈ declaredAt x, P d.name) :
    (t.declareScript script).Backed P := by
  refine List.foldlRecOn _ _ h fun t ht d hd => ?_
  obtain ⟨x, hx, hd⟩ := List.mem_flatMap.mp hd
  exact ht.declare (hnames x hx d hd) _

end Tables

section Published

variable {b : Builder} {x : Syntax} {e : Span × String} {name : String}

theorem mem_namesOfProperties {xs : List Syntax} (h : e ∈ Syntax.namesOfProperties xs) :
    ∃ s key value shorthand computed, .bindingProperty s key value shorthand computed ∈ xs ∧
      e ∈ value.names := by
  induction xs with
  | nil => cases h
  | cons x xs ih =>
    have hrest : e ∈ Syntax.namesOfProperties xs → ∃ s key value shorthand computed,
        .bindingProperty s key value shorthand computed ∈ x :: xs ∧ e ∈ value.names := by
      intro h
      obtain ⟨s, key, value, shorthand, computed, hmem, he⟩ := ih h
      exact ⟨s, key, value, shorthand, computed, List.mem_cons_of_mem _ hmem, he⟩
    cases x
    case bindingProperty s key value shorthand computed =>
      rcases List.mem_append.mp h with he | h
      · exact ⟨s, key, value, shorthand, computed, List.mem_cons_self .., he⟩
      · exact hrest h
    all_goals exact hrest h

theorem mem_namesOfElements {xs : List (Option Syntax)} (h : e ∈ Syntax.namesOfElements xs) :
    ∃ x, some x ∈ xs ∧ e ∈ x.names := by
  induction xs with
  | nil => cases h
  | cons o xs ih =>
    cases o with
    | none =>
      obtain ⟨x, hx, he⟩ := ih h
      exact ⟨x, List.mem_cons_of_mem _ hx, he⟩
    | some x =>
      rcases List.mem_append.mp h with he | h
      · exact ⟨x, List.mem_cons_self .., he⟩
      · obtain ⟨y, hy, he⟩ := ih h
        exact ⟨y, List.mem_cons_of_mem _ hy, he⟩

theorem mem_namesOfRest {rest : Option Syntax} (h : e ∈ Syntax.namesOfRest rest) :
    ∃ s x parts, rest = some (.restElement s x parts) ∧ e ∈ x.names := by
  cases rest with
  | none => cases h
  | some x =>
    cases x
    case restElement s x parts => exact ⟨s, x, parts, rfl, h⟩
    all_goals cases h

theorem binds_restElement {s : Span} {parts : List Syntax}
    (h : (b.place .pattern x (b.build x)).Binds name) : (b.build (.restElement s x parts)).Binds name :=
  .inner (.tail _ (.head _)) rfl h

/-- The published pattern binds every name that the walk through the syntax finds. -/
theorem binds_of_mem_names (b : Builder) (x : Syntax) (he : e ∈ x.names) :
    (b.place .pattern x (b.build x)).Binds e.2 := by
  induction x using Syntax.induct generalizing e with
  | step x ih =>
    -- What is below a part of the pattern is below the pattern.
    have hbelow : ∀ {y z}, y ∈ x.parts → z ∈ y.parts → z ∈ x.inner := fun hy hz =>
      Syntax.mem_inner_trans (Syntax.mem_inner_of_mem_parts hy) (Syntax.mem_inner_of_mem_parts hz)
    cases x
    case binding s name =>
      cases List.mem_singleton.mp he
      exact .identifier rfl rfl
    case objectPattern s properties rest =>
      have hbuild : b.place .pattern (.objectPattern s properties rest)
          (b.build (.objectPattern s properties rest)) = b.node "ObjectPattern" s
            [("properties", .nodes (b.all properties ++ (b.option? rest).toList))] := rfl
      rw [hbuild, Builder.all_eq_map]
      rcases List.mem_append.mp he with he | he
      · obtain ⟨s', key, value, shorthand, computed, hmem, he⟩ := mem_namesOfProperties he
        have hvalue := ih value (hbelow (List.mem_append_left _ hmem) (.tail _ (.head _))) he
        refine .property rfl (List.mem_append_left _ (List.mem_map_of_mem hmem)) ?_ hvalue
        rfl
      · obtain ⟨s', argument, parts, rfl, he⟩ := mem_namesOfRest he
        have hargument := ih argument (hbelow (List.mem_append_right _ (.head _)) (.head _)) he
        refine .property rfl (List.mem_append_right _ (.head _)) ?_ hargument
        rfl
    case arrayPattern s elements rest =>
      have hbuild : b.place .pattern (.arrayPattern s elements rest)
          (b.build (.arrayPattern s elements rest)) = b.node "ArrayPattern" s
            [("elements", .ofSparse (b.sparse .pattern elements ++ (b.option? rest).toList.map some))] := rfl
      rw [hbuild, Builder.sparse_eq_map]
      rcases List.mem_append.mp he with he | he
      · obtain ⟨y, hy, he⟩ := mem_namesOfElements he
        have hy' : y ∈ (Syntax.arrayPattern s elements rest).parts :=
          List.mem_append_left _ (List.mem_filterMap.mpr ⟨some y, hy, rfl⟩)
        refine .element rfl ?_ (ih y (Syntax.mem_inner_of_mem_parts hy') he)
        change _ ∈ (Value.ofSparse _).toNodes
        rw [Node.toNodes_ofSparse, List.mem_filterMap]
        exact ⟨_, List.mem_append_left _ (List.mem_map_of_mem hy), rfl⟩
      · obtain ⟨s', argument, parts, rfl, he⟩ := mem_namesOfRest he
        have hargument := ih argument (hbelow (List.mem_append_right _ (.head _)) (.head _)) he
        refine @Node.Binds.element _ (b.build (.restElement s' argument parts)) _ rfl ?_
          (binds_restElement hargument)
        change _ ∈ (Value.ofSparse _).toNodes
        rw [Node.toNodes_ofSparse, List.mem_filterMap]
        exact ⟨_, List.mem_append_right _ (.head _), rfl⟩
    case assignmentPattern s left right =>
      exact .inner (.head _) rfl (ih left (Syntax.mem_inner_of_mem_parts (.head _)) he)
    all_goals cases he

theorem declares_of_mem_declaredNames (b : Builder) (he : e ∈ x.declaredNames) :
    Spot.declaration.admits.contains x.category ∧ (b.build x).Declares e.2 := by
  unfold Syntax.declaredNames at he
  split at he
  · next s kind declarators =>
    obtain ⟨d, hd, he⟩ := List.mem_flatMap.mp he
    refine ⟨rfl, ?_⟩
    have hbuild : b.build (.variables s kind declarators) = b.node "VariableDeclaration" s
        [("kind", .string kind), ("declarations", .nodes (b.all declarators))] := rfl
    rw [hbuild, Builder.all_eq_map]
    cases d
    case declarator s' id types init =>
      exact .declarator rfl (List.mem_map_of_mem hd) rfl (binds_of_mem_names b id he)
    all_goals cases he
  · cases List.mem_singleton.mp he
    exact ⟨rfl, .named (.inl rfl) rfl (.identifier rfl rfl)⟩
  · cases List.mem_singleton.mp he
    exact ⟨rfl, .named (.inr rfl) rfl (.identifier rfl rfl)⟩
  · cases he

theorem declares_of_mem_declaredBy {d : Declared} (b : Builder) (hd : d ∈ declaredBy x) :
    Spot.declaration.admits.contains x.category ∧ (b.build x).Declares d.name := by
  obtain ⟨e, he, rfl⟩ := List.mem_map.mp hd
  exact declares_of_mem_declaredNames b he

/-- The published statement declares every name that the component takes from the syntax. -/
theorem declares_of_mem_declaredAt {d : Declared} (b : Builder) (hd : d ∈ declaredAt x) :
    (b.place .statement x (b.build x)).Declares d.name := by
  unfold declaredAt at hd
  split at hd
  · next s specifiers from' =>
    obtain ⟨y, hy, hd⟩ := List.mem_filterMap.mp hd
    have hbuild : b.place .statement (.importDeclaration s specifiers from')
        (b.build (.importDeclaration s specifiers from')) = b.node "ImportDeclaration" s
          [("specifiers", .nodes (b.all specifiers)), ("source", .node (b.build from'))] := rfl
    rw [hbuild, Builder.all_eq_map]
    unfold imported? at hd
    split at hd
    all_goals
      cases hd
      try exact .specifier rfl (List.mem_map_of_mem hy) rfl (.identifier rfl rfl)
  · next s declaration specifiers from' =>
    obtain ⟨d₀, hd₀, rfl⟩ := List.mem_map.mp hd
    obtain ⟨hplace, hdeclares⟩ := declares_of_mem_declaredBy b hd₀
    refine .exported rfl ?_ hdeclares
    exact congrArg some (Builder.place_of_admits hplace _)
  · obtain ⟨hplace, hdeclares⟩ := declares_of_mem_declaredBy b hd
    rw [Builder.place_of_admits]
    · exact hdeclares
    · revert hplace
      cases x.category <;> decide

end Published

/-- The published statements of a script. -/
inductive TopLevel (js : Frontend) (options : Options) (source : List Char) (script : Node) : Node → Prop
  | intro {content x p} (hcontent : script.child? "content" = some content)
      (hp : js.program? options.dialect (content.text source) = some p) (hx : x ∈ p.statements) :
      TopLevel js options source script
        (Builder.place ⟨content.text source, content.start⟩ .statement x
          (Builder.build ⟨content.text source, content.start⟩ x))

variable {js : Frontend} {options : Options} {source : List Char} {n script : Node} {name : String}

theorem TopLevel.sited (h : TopLevel js options source script n) : ∃ named, Program.Sited named n := by
  obtain @⟨content, x, p, hcontent, hp, hx⟩ := h
  have hmakes : Builder.Makes ⟨content.text source, content.start⟩ (· ∈ p.nodes)
      (Builder.place ⟨content.text source, content.start⟩ .statement x
        (Builder.build ⟨content.text source, content.start⟩ x)) := by
    have hnodes : ∀ y ∈ x.nodes, y ∈ p.nodes := fun y hy =>
      List.mem_flatMap.mpr ⟨x, List.mem_append_right _ hx, hy⟩
    exact Builder.makes_place (hnodes x (Syntax.mem_nodes_self x)) (Builder.makes_build x hnodes)
  refine ⟨fun span name => ∃ y ∈ p.nodes, y.name? = some name ∧ span =
    ⟨y.span.start + content.start, y.span.stop + content.start⟩, ?_⟩
  refine ⟨?_, fun m hm => (hmakes m hm).kind, fun m hm hkind => ?_,
    fun m hm => (hmakes m hm).fieldNames, fun m hm => (hmakes m hm).first⟩
  · rintro span name name' ⟨y, hy, hname, rfl⟩ ⟨z, hz, hname', hspan⟩
    refine js.name_unique hp y hy z hz ?_ name name' hname hname'
    obtain ⟨hstart, hstop⟩ := Span.mk.inj hspan
    cases hys : y.span
    cases hzs : z.span
    simp only [hys, hzs] at hstart hstop
    congr 1
    · omega
    · omega
  · obtain ⟨y, name, hy, hname, rfl⟩ := (hmakes m hm).identifier hkind
    exact ⟨name, ⟨y, hy, hname, rfl⟩, rfl⟩

theorem mem_of_filterMapM {α β ε : Type} {f : α → Except ε (Option β)} {xs : List α} {ys : List β}
    {b : β} (h : xs.filterMapM f = .ok ys) (hb : b ∈ ys) : ∃ a ∈ xs, f a = .ok (some b) := by
  induction xs generalizing ys with
  | nil =>
    cases h
    cases hb
  | cons a xs ih =>
    rw [List.filterMapM_cons] at h
    obtain ⟨o, ho, h⟩ := bind_eq_ok.mp h
    cases o with
    | none =>
      obtain ⟨x, hx, hb⟩ := ih h hb
      exact ⟨x, List.mem_cons_of_mem _ hx, hb⟩
    | some c =>
      obtain ⟨rest, hrest, h⟩ := bind_eq_ok.mp h
      cases h
      rcases List.mem_cons.mp hb with rfl | hb
      · exact ⟨a, List.mem_cons_self .., ho⟩
      · obtain ⟨x, hx, hb⟩ := ih hrest hb
        exact ⟨x, List.mem_cons_of_mem _ hx, hb⟩

theorem topLevel_of_readScript {module facts x d}
    (h : readScript js options source module script = .ok (some facts)) (hx : x ∈ facts.statements)
    (hd : d ∈ declaredAt x) : ∃ n, TopLevel js options source script n ∧ n.Declares d.name := by
  unfold readScript at h
  split at h
  · next content hcontent =>
    split at h
    · cases h
    · next p hp =>
      cases h
      exact ⟨_, .intro hcontent hp hx, declares_of_mem_declaredAt _ hd⟩
  · cases h

def HasScript (template : Template) (script : Node) : Prop :=
  template.moduleScript = some script ∨ template.instanceScript = some script

def DeclaredIn (js : Frontend) (options : Options) (source : List Char) (template : Template)
    (name : String) : Prop :=
  ∃ script n, HasScript template script ∧ TopLevel js options source script n ∧ n.Declares name

theorem backed_of_analyze {parsed : Markup.Parsed} {analysis : Analysis}
    (h : analyze js options source parsed = .ok analysis) :
    analysis.table.Backed (DeclaredIn js options source parsed.template) := by
  obtain ⟨scripts, hscripts, h⟩ := bind_eq_ok.mp h
  obtain ⟨r, hr, h⟩ := bind_eq_ok.mp h
  cases h
  refine List.foldlRecOn _ _ (TemplateReads.backed_expressions ?_ hr) fun t ht span _ =>
    ht.bind js options source _ span
  refine List.foldlRecOn _ _ ?_ fun t ht script _ => ht.useScript script
  refine List.foldlRecOn _ _ ?_ fun t ht name _ => ht.inject name
  refine List.foldlRecOn _ _ ?_ fun t ht names _ => ht.update names.1 fun _ => ⟨rfl, rfl⟩
  refine List.foldlRecOn _ _ (fun v hv => by cases hv) fun t ht facts hfacts => ?_
  refine ht.declareScript fun x hx d hd => ?_
  obtain ⟨⟨module, script?⟩, hsection, hread⟩ := mem_of_filterMapM hscripts hfacts
  cases script? with
  | none => cases hread
  | some script =>
    obtain ⟨n, htop, hdeclares⟩ := topLevel_of_readScript hread hx hd
    simp only [List.mem_cons, Prod.mk.injEq, List.not_mem_nil, or_false] at hsection
    exact ⟨script, n, hsection.imp (·.2.symm) (·.2.symm), htop, hdeclares⟩

theorem analysis_of_compileWith (h : compileWith js options source = .ok compiled) :
    ∃ parsed analysis, Markup.parse (js.parser options) source = .ok parsed ∧
      analyze js options source parsed = .ok analysis ∧ compiled.template = parsed.template ∧
      compiled.vars = analysis.table.vars := by
  obtain ⟨parsed, hparsed, h⟩ := bind_eq_ok.mp h
  obtain ⟨analysis, hanalysis, h⟩ := bind_eq_ok.mp h
  obtain ⟨warnings, -, h⟩ := bind_eq_ok.mp h
  cases h
  exact ⟨parsed, analysis, mapError_eq_ok.mp hparsed, mapError_eq_ok.mp hanalysis, rfl, rfl⟩

theorem declaredIn_of_compileWith (h : compileWith js options source = .ok compiled)
    (hv : v ∈ compiled.vars) (hinjected : v.injected = false) :
    DeclaredIn js options source compiled.template v.name := by
  obtain ⟨parsed, analysis, -, hanalysis, htemplate, hvars⟩ := analysis_of_compileWith h
  rw [htemplate]
  exact backed_of_analyze hanalysis v (hvars ▸ hv) hinjected

end SvelteSyntax.Component
