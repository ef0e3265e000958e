import SvelteSyntax.Proofs.Program.Bare

namespace SvelteSyntax

open Run Text

variable {c n script' : Node} {index : LineIndex}

namespace Program

def Ordinary (n : Node) : Prop := ∀ m, n.InTree m → m.kind ≠ "TemplateRoot" ∧ Paired m

section Decorated

variable {ctx : NormalizeContext} {n n' : Node}

/-- A node that has been walked is marked, so a second walk of it gives nothing new. -/
def Walked (ctx : NormalizeContext) (depth : Nat) (c : Node) : Prop :=
  LocatedBelow ctx.index c ∧ ∀ c', Yields (normalizeWithin ctx depth c) c' → c' = c

/-- A node that is left has its location, and so has what was walked below it. -/
theorem locatedBelow_restoreShorthand {n₁ loc} (hkind : n₁.kind = n.kind)
    (hbare : (restoreShorthand n₁).bare = n.bare)
    (hloc : locateSpan ctx.index n₁.start n₁.stop = .ok loc)
    (hbelow : ∀ key ∈ n.traversalKeys, ∀ c ∈ n₁.nodesAt key, LocatedBelow ctx.index c) :
    LocatedBelow ctx.index { restoreShorthand n₁ with loc := some loc } := by
  have hplace := samePlace_restoreShorthand n₁
  have hkeys : (restoreShorthand n₁).traversalKeys = n.traversalKeys := by
    rw [← traversalKeys_bare, hbare, traversalKeys_bare]
  refine .intro ⟨loc, rfl, ?_⟩ fun key hkey c hc => ?_
  · change locateSpan ctx.index (restoreShorthand n₁).start (restoreShorthand n₁).stop = _
    rw [hplace.start, hplace.stop]
    exact hloc
  · replace hkey : key ∈ (restoreShorthand n₁).traversalKeys := hkey
    rw [hkeys] at hkey
    rcases mem_nodesAt_restoreShorthand hc with hc | ⟨first, hshort, hc⟩
    · exact hbelow key hkey c hc
    · refine hbelow first ?_ c hc
      rw [hkind] at hshort
      rw [Node.traversalKeys, childKeys?_of_shorthand hshort]
      exact List.mem_cons_self ..

theorem decorated_normalizeWithin {depth} (hn : Ordinary n) (hdepth : n.depth ≤ depth)
    (h : Yields (normalizeWithin ctx depth n) n') :
    n'.bare = n.bare ∧ LocatedBelow ctx.index n' := by
  induction depth generalizing n n' with
  | zero => exact absurd n.depth_pos (by omega)
  | succ depth ih =>
    obtain ⟨⟨hkind, hpaired⟩, hchildren⟩ := Node.forall_inTree.mp hn
    obtain ⟨n₀, henter, h⟩ := Yields.bind h
    obtain ⟨n₁, hmap, hleave⟩ := h.bind
    rw [of_enterNode henter, relabelSections_of_ne (n := { n with visited := true }) hkind] at hmap
    have hplace : SamePlace { n with visited := true } n₁ :=
      (samePlace_dropShorthand _).trans (samePlace_mapChildrenM hmap)
    have hkind₁ : n₁.kind = n.kind := hplace.kind
    obtain ⟨loc, hloc, rfl⟩ := of_leaveNode (hkind₁ ▸ hkind) hleave
    have hwalk : ∀ (_ : Parent) c c', (Ordinary c ∧ c.depth ≤ depth) ∨ Walked ctx depth c →
        Yields (normalizeWithin ctx depth c) c' → c'.bare = c.bare ∧ Walked ctx depth c' := by
      rintro - c c' (⟨hc, hle⟩ | hc) h
      · obtain ⟨hbare, hlocated⟩ := ih hc hle h
        exact ⟨hbare, hlocated, fun c'' => normalizeWithin_again (hc c .root).1 h⟩
      · rw [hc.2 c' h]
        exact ⟨rfl, hc⟩
    have hbefore : ∀ key, ∀ c ∈ (dropShorthand { n with visited := true }).nodesAt key,
        (Ordinary c ∧ c.depth ≤ depth) ∨ Walked ctx depth c := by
      intro key c hc
      have hc : n.HasChild c := hasChild_of_nodesAt_dropShorthand (n := { n with visited := true }) hc
      have hlt := Node.depth_lt_of_hasChild hc
      exact .inl ⟨hchildren c hc, by omega⟩
    obtain ⟨hfields, hbelow⟩ := bare_mapChildrenM hwalk (fun c hc => .inr hc) hbefore hmap
    rw [traversalKeys_dropShorthand] at hbelow
    have hbare : (restoreShorthand n₁).bare = n.bare := by
      rw [bare_restoreShorthand (n := { n with visited := true }) ⟨hpaired.once, hpaired.same⟩ hplace
        hfields, Node.bare_eq, n.bare_eq]
      rfl
    refine ⟨Eq.trans ?_ hbare, locatedBelow_restoreShorthand hkind₁ hbare hloc ?_⟩
    · rw [Node.bare_eq, (restoreShorthand n₁).bare_eq]
      rfl
    · exact fun key hkey c hc => (hbelow key hkey c hc).1

end Decorated

/-- What the last pass makes of a template. -/
structure Decorated (ctx : NormalizeContext) (root program : Node) (after : Output) : Prop where
  located : ∀ top ∈ program ::
      (after.css.toList ++ after.instanceScript.toList ++ after.moduleScript.toList),
    ∀ n, top.Reaches n → Located ctx.index n
  css : Option.Rel (fun c c' => c'.bare = ({ c with kind := "StyleElement" } : Node).bare)
    (root.child? "css") after.css
  instanceScript : Option.Rel (fun c c' => c'.bare = ({ c with kind := "ScriptElement" } : Node).bare)
    (root.child? "instance") after.instanceScript
  moduleScript : Option.Rel (fun c c' => c'.bare = ({ c with kind := "ScriptElement" } : Node).bare)
    (root.child? "module") after.moduleScript
  /-- The program has the nodes of the markup and the statements of the scripts as its body, in the order
  of their places, and the other fields of the markup. -/
  program : ∃ html, root.child? "html" = some html ∧ Ordered (program.children "body") ∧
    ((program.children "body").map Node.bare).Perm ((html.children "children" ++
      ((root.child? "instance").toList ++ (root.child? "module").toList).flatMap statementsOf).map
        Node.bare) ∧
    ∀ key ∉ ["children", "body", "sourceType"],
      (program.get? key).map Value.bare = (html.get? key).map Value.bare

/-- A template whose markup and whose scripts have their nodes in lists that are walked. -/
structure Sectioned (root : Node) : Prop where
  markup : ∀ html, root.child? "html" = some html →
    "children" ∈ html.traversalKeys ∧ html.has "body" = false
  statements : ∀ key ∈ ["instance", "module"], ∀ script, root.child? key = some script →
    ∀ content, script.child? "content" = some content → "body" ∈ content.traversalKeys

section Sections

variable {ctx : NormalizeContext} {root root' program : Node} {before after : Output} {key : String}

theorem Ordinary.relabel (h : Ordinary c) (key : String) :
    Ordinary { c with kind := sectionKind key c.kind } := by
  obtain ⟨⟨hkind, hpaired⟩, hchildren⟩ := Node.forall_inTree.mp h
  have hsection : sectionKind key c.kind = c.kind ∨
      sectionKind key c.kind ∈ ["StyleElement", "ScriptElement"] := by
    unfold sectionKind
    split
    · exact .inr (by decide)
    · split
      · exact .inr (by decide)
      · exact .inl rfl
  refine Node.forall_inTree.mpr ⟨?_, hchildren⟩
  rcases hsection with hsame | helement
  · rw [hsame]
    exact ⟨hkind, hpaired.once, hpaired.same⟩
  · have hplain : ∀ kind ∈ ["StyleElement", "ScriptElement"],
        kind ≠ "TemplateRoot" ∧ shorthandFields? kind = none := by decide
    obtain ⟨hroot, hplain⟩ := hplain _ helement
    refine ⟨hroot, fun first second hshort => ?_, fun first second hshort => ?_⟩
    · change shorthandFields? (sectionKind key c.kind) = _ at hshort
      rw [hplain] at hshort
      cases hshort
    · change shorthandFields? (sectionKind key c.kind) = _ at hshort
      rw [hplain] at hshort
      cases hshort

theorem decorated_sections (hroot : root.kind = "TemplateRoot")
    (hbelow : ∀ c, root.HasChild c → Ordinary c)
    (h : normalizeTree ctx root before = .ok (program, after)) :
    ∃ root' out, Finished ctx root' out after program ∧ ∀ key ∈ sectionKeys,
      Option.Rel (fun c c' => c'.bare = ({ c with kind := sectionKind key c.kind } : Node).bare ∧
        LocatedBelow ctx.index c') (root.child? key) (root'.child? key) := by
  obtain ⟨root', out, hfinished, -, hsections⟩ := walked_of_normalizeTree hroot h
  refine ⟨root', out, hfinished, fun key hkey => ?_⟩
  refine optionRel_imp (fun c c' hc => ?_) (optionRel_child (hsections key hkey))
  obtain ⟨hchild, d, hdepth, hyields⟩ := hc
  refine decorated_normalizeWithin ((hbelow c hchild).relabel key) ?_ hyields
  rw [c.depth_eq] at hdepth
  rw [Node.depth_eq]
  exact hdepth

theorem get?_markupProgram {html} (hkey : key ∉ ["children", "body", "sourceType"]) :
    (markupProgram ctx html).get? key = html.get? key := by
  simp only [List.mem_cons, List.not_mem_nil, or_false, not_or] at hkey
  rw [markupProgram, Node.get?_set_of_ne hkey.2.2]
  exact Fields.get?_rename_of_ne hkey.1 hkey.2.1 _

theorem LocatedBelow.child (h : LocatedBelow index n) (hkey : key ∈ n.traversalKeys)
    (hc : c ∈ n.nodesAt key) : LocatedBelow index c :=
  fun m hm => h m (.step hkey hc hm)

theorem nodesAt_of_children (h : c ∈ n.children key) : c ∈ n.nodesAt key := by
  unfold Node.children at h
  unfold Node.nodesAt
  split at h
  · next ns hget =>
    rw [hget]
    exact h
  · cases h

theorem nodesAt_of_child? (h : n.child? key = some c) : c ∈ n.nodesAt key := by
  rw [Node.nodesAt, Node.get?_of_child? h]
  exact List.mem_singleton_self c

theorem LocatedBelow.statement {script : Node} (h : LocatedBelow index script')
    (hbare : script'.bare = ({ script with kind := "ScriptElement" } : Node).bare)
    (hbody : ∀ content, script.child? "content" = some content → "body" ∈ content.traversalKeys)
    (hc : c ∈ statementsOf script') : LocatedBelow index c := by
  have hkeys : "content" ∈ script'.traversalKeys := by
    have hscript : childKeys? "ScriptElement" = some ["attributes", "content"] := by decide
    rw [← traversalKeys_bare, hbare, traversalKeys_bare, Node.traversalKeys, hscript]
    simp
  have hcontent : (script'.child? "content").map Node.bare = (script.child? "content").map Node.bare :=
    child?_of_bare hbare rfl "content"
  obtain ⟨content', hc', hmem⟩ := Node.mem_map_getD.mp hc
  rw [hc', Option.map_some] at hcontent
  obtain ⟨content, hcontent, hsame⟩ := Option.map_eq_some_iff.mp hcontent.symm
  refine (h.child hkeys (nodesAt_of_child? hc')).child ?_ (nodesAt_of_children hmem)
  rw [← traversalKeys_bare, ← hsame, traversalKeys_bare]
  exact hbody content hcontent

end Sections

section Template

variable {ctx : NormalizeContext} {root root' program : Node} {out after : Output}
  (hfinished : Finished ctx root' out after program) (hsectioned : Sectioned root)
  (hsections : ∀ key ∈ sectionKeys, Option.Rel (fun c c' =>
    c'.bare = ({ c with kind := sectionKind key c.kind } : Node).bare ∧ LocatedBelow ctx.index c')
      (root.child? key) (root'.child? key))
include hsections

theorem markup_of_sections {html'} (hhtml' : root'.child? "html" = some html') :
    ∃ html, root.child? "html" = some html ∧ html'.bare = html.bare ∧ LocatedBelow ctx.index html' := by
  have hrel := hsections "html" (by decide)
  rw [hhtml'] at hrel
  generalize hc : root.child? "html" = o at hrel
  cases hrel with
  | @some html _ h =>
    refine ⟨html, rfl, ?_, h.2⟩
    have hsame : ({ html with kind := sectionKind "html" html.kind } : Node) = html := by
      cases html
      rfl
    rw [h.1, hsame]

include hsectioned

theorem script_of_sections (hkey : key ∈ ["instance", "module"])
    (hscript' : root'.child? key = some script') : ∃ script, root.child? key = some script ∧
      (statementsOf script').map Node.bare = (statementsOf script).map Node.bare ∧
      ∀ c ∈ statementsOf script', LocatedBelow ctx.index c := by
  have hsection : key ∈ sectionKeys ∧ ∀ kind, sectionKind key kind = "ScriptElement" := by
    simp only [List.mem_cons, List.not_mem_nil, or_false] at hkey
    rcases hkey with rfl | rfl
    · exact ⟨by decide, fun kind => by simp [sectionKind]⟩
    · exact ⟨by decide, fun kind => by simp [sectionKind]⟩
  have hrel := hsections key hsection.1
  rw [hscript'] at hrel
  generalize hc : root.child? key = o at hrel
  cases hrel with
  | @some script _ h =>
    rw [hsection.2] at h
    have hbody := hsectioned.statements key hkey script hc
    exact ⟨script, rfl, statementsOf_of_bare h.1 hbody, fun c hc => h.2.statement h.1 hbody hc⟩

theorem statements_of_sections :
    (((root'.child? "instance").toList ++ (root'.child? "module").toList).flatMap statementsOf).map
      Node.bare = (((root.child? "instance").toList ++ (root.child? "module").toList).flatMap
        statementsOf).map Node.bare := by
  have hone : ∀ key ∈ ["instance", "module"],
      ((root'.child? key).toList.flatMap statementsOf).map Node.bare =
        ((root.child? key).toList.flatMap statementsOf).map Node.bare := by
    intro key hkey
    cases hscript : root'.child? key with
    | none =>
      have hscripts : ∀ key ∈ ["instance", "module"], key ∈ sectionKeys := by decide
      have hrel := hsections key (hscripts key hkey)
      rw [hscript] at hrel
      generalize root.child? key = o at hrel ⊢
      cases hrel
      rfl
    | some script' =>
      obtain ⟨script, hroot, hsame, -⟩ := script_of_sections hsectioned hsections hkey hscript
      rw [hroot]
      simpa using hsame
  rw [List.flatMap_append, List.map_append, hone "instance" (by decide), hone "module" (by decide),
    ← List.map_append, ← List.flatMap_append]

include hfinished

theorem program_of_sections : LocatedBelow ctx.index program ∧ ∃ html, root.child? "html" = some html ∧
    Ordered (program.children "body") ∧ ((program.children "body").map Node.bare).Perm ((html.children "children" ++
      ((root.child? "instance").toList ++ (root.child? "module").toList).flatMap statementsOf).map
        Node.bare) ∧
    ∀ key ∉ ["children", "body", "sourceType"],
      (program.get? key).map Value.bare = (html.get? key).map Value.bare := by
  obtain ⟨html', body, hhtml', hsorted, hget⟩ := hfinished.body
  obtain ⟨html, hhtml, hbare, hlocated⟩ := markup_of_sections hsections hhtml'
  obtain ⟨hwalked, hfresh⟩ := hsectioned.markup html hhtml
  have hplain := shorthandFields?_of_mem hwalked (by decide)
  have hnobody : html'.get? "body" = none := by
    have hsame := get?_of_bare hbare hplain "body"
    rw [Node.has, Option.isSome_eq_false_iff, Option.isNone_iff_eq_none] at hfresh
    rwa [hfresh, Option.map_none, Option.map_eq_none_iff] at hsame
  rw [children_markupProgram hnobody] at hsorted
  have hperm := perm_of_sortDisjoint hsorted
  have hbody : program.children "body" = body := by rw [Node.children, hget]
  refine ⟨.intro hfinished.located fun key hkey c hc => ?_, html, hhtml,
    hbody ▸ ordered_of_sortDisjoint hsorted, ?_, fun key hkey => ?_⟩
  · have hkeys : program.traversalKeys = ["body"] := by
      have hprogram : childKeys? "Program" = some ["body"] := by decide
      rw [Node.traversalKeys, hfinished.kind, hprogram]
    rw [hkeys, List.mem_singleton] at hkey
    rw [hkey, Node.nodesAt, hget] at hc
    rcases List.mem_append.mp (hperm.mem_iff.mp hc) with hc | hc
    · have hchildren : "children" ∈ html'.traversalKeys := by
        rw [← traversalKeys_bare, hbare, traversalKeys_bare]
        exact hwalked
      exact hlocated.child hchildren (nodesAt_of_children hc)
    · obtain ⟨script', hmem, hc⟩ := List.mem_flatMap.mp hc
      rcases List.mem_append.mp hmem with hmem | hmem
      · obtain ⟨-, -, -, hlocated⟩ := script_of_sections hsectioned hsections
          (by decide : "instance" ∈ _) (Option.mem_toList.mp hmem)
        exact hlocated c hc
      · obtain ⟨-, -, -, hlocated⟩ := script_of_sections hsectioned hsections
          (by decide : "module" ∈ _) (Option.mem_toList.mp hmem)
        exact hlocated c hc
  · rw [hbody, List.map_append, ← children_of_bare hbare hplain "children",
      ← statements_of_sections hsectioned hsections, ← List.map_append]
    exact hperm.map Node.bare
  · obtain ⟨html'', hhtml'', hfields⟩ := hfinished.fields
    cases hhtml'.symm.trans hhtml''
    have hne : key ≠ "body" := by
      rintro rfl
      exact hkey (by decide)
    rw [hfields key hne, get?_markupProgram hkey]
    exact get?_of_bare hbare hplain key

end Template

/-- The last pass only decorates. All nodes that a walk reaches get the locations of their spans, and
but for this, for marks, and for the second halves of shorthands, which move to the ends of their nodes,
everything below the sections of a template stays as it is. -/
theorem normalize_decorates (ctx : NormalizeContext) (root program : Node) (before after : Output)
    (hroot : root.kind = "TemplateRoot") (hsectioned : Sectioned root)
    (hpaired : ∀ n, root.InTree n → Paired n)
    (hinner : ∀ c, root.HasChild c → ∀ n, c.InTree n → n.kind ≠ "TemplateRoot")
    (h : normalizeTree ctx root before = .ok (program, after)) :
    Decorated ctx root program after := by
  have hbelow : ∀ c, root.HasChild c → Ordinary c := fun c hc n hn =>
    ⟨hinner c hc n hn, (Node.forall_inTree.mp hpaired).2 c hc n hn⟩
  obtain ⟨root', out, hfinished, hsections⟩ := decorated_sections hroot hbelow h
  obtain ⟨hlocated, hprogram⟩ := program_of_sections hfinished hsectioned hsections
  have hkept : ∀ key ∈ sectionKeys, ∀ top, root'.child? key = some top → LocatedBelow ctx.index top := by
    intro key hkey top htop
    have hrel := hsections key hkey
    rw [htop] at hrel
    generalize root.child? key = o at hrel
    cases hrel with
    | some h => exact h.2
  refine ⟨fun top htop => ?_, ?_, ?_, ?_, hprogram⟩
  · rw [hfinished.css, hfinished.instanceScript, hfinished.moduleScript] at htop
    simp only [List.mem_cons, List.mem_append, Option.mem_toList] at htop
    rcases htop with rfl | (htop | htop) | htop
    · exact hlocated
    · exact hkept "css" (by decide) top htop
    · exact hkept "instance" (by decide) top htop
    · exact hkept "module" (by decide) top htop
  · rw [hfinished.css]
    exact optionRel_imp (fun c c' hc => hc.1) (hsections "css" (by decide))
  · rw [hfinished.instanceScript]
    exact optionRel_imp (fun c c' hc => hc.1) (hsections "instance" (by decide))
  · rw [hfinished.moduleScript]
    exact optionRel_imp (fun c c' hc => hc.1) (hsections "module" (by decide))

theorem paired_of_plain (h : shorthandFields? n.kind = none) : Paired n := by
  refine ⟨fun first second hshort => ?_, fun first second hshort => ?_⟩
  · rw [h] at hshort
    cases hshort
  · rw [h] at hshort
    cases hshort

def markupAtStart (kind : String) (markup : List Node) : Node :=
  { kind, start := 0, stop := 0, fields := [("children", .nodes markup)] }

def bareTemplate (kind : String) (markup : List Node) : Node :=
  { kind := "TemplateRoot", start := 0, stop := 0, fields := [("html", .node (markupAtStart kind markup))] }

section BareTemplate

variable {p : Node → Prop} {kind : String} {markup : List Node}

theorem forall_below_bareTemplate (hhtml : p (markupAtStart kind markup))
    (hmarkup : ∀ c ∈ markup, ∀ n, c.InTree n → p n) :
    ∀ c, (bareTemplate kind markup).HasChild c → ∀ n, c.InTree n → p n := by
  intro c hc
  obtain rfl : c = markupAtStart kind markup := by
    simpa [bareTemplate, Node.HasChild, Fields.hold_cons] using hc
  refine Node.forall_inTree.mpr ⟨hhtml, fun c hc => hmarkup c ?_⟩
  simpa [markupAtStart, Node.HasChild, Fields.hold_cons] using hc

theorem fresh_paired_bareTemplate (hkind : shorthandFields? kind = none)
    (hmarkup : ∀ c ∈ markup, ∀ n, c.InTree n → (n.visited = false ∧ n.fieldNames.Nodup) ∧ Paired n) :
    ∀ n, (bareTemplate kind markup).InTree n →
      (n.visited = false ∧ n.fieldNames.Nodup) ∧ Paired n := by
  refine Node.forall_inTree.mpr ⟨⟨⟨rfl, List.nodup_singleton _⟩, paired_of_plain rfl⟩, ?_⟩
  exact forall_below_bareTemplate ⟨⟨rfl, List.nodup_singleton _⟩, paired_of_plain hkind⟩ hmarkup

end BareTemplate

/-- A property that stands for its key and its value, in either order. -/
theorem normalize_decorates_shorthand :
    let ctx : NormalizeContext := { index := .ofText ['a'], options := {} }
    let name : Node := { kind := "Identifier", start := 0, stop := 1 }
    let root := bareTemplate "Fragment"
      [{ kind := "Property", start := 0, stop := 1, fields := [("value", .node name), ("key", .node name)] }]
    ∃ program after, normalizeTree ctx root {} = .ok (program, after) ∧
      (program.children "body").map (·.fieldNames) = [["key", "value"]] ∧
      Decorated ctx root program after := by
  intro ctx name root
  have hrun : ((normalizeTree ctx root {}).toOption.map fun result =>
      (result.1.children "body").map (·.fieldNames)) = some [["key", "value"]] := by
    simp only [normalizeTree_eq, leaveNode, finishRoot, locatedTokens, locatedComments,
      sortDisjoint_eq_insertionSort]
    decide +kernel
  obtain ⟨⟨program, after⟩, hok, hnames⟩ := Option.map_eq_some_iff.mp hrun
  have hok := toOption_eq_some.mp hok
  have hname : ∀ n, name.InTree n → n.kind ≠ "TemplateRoot" ∧ Paired n := by
    refine Node.forall_inTree.mpr ⟨⟨by decide, paired_of_plain rfl⟩, fun c hc => ?_⟩
    simp [name, Node.HasChild] at hc
  have hbelow : ∀ c, root.HasChild c → ∀ n, c.InTree n → n.kind ≠ "TemplateRoot" ∧ Paired n := by
    refine forall_below_bareTemplate ⟨by decide, paired_of_plain rfl⟩ fun c hc => ?_
    cases List.mem_singleton.mp hc
    refine Node.forall_inTree.mpr ⟨⟨by decide, fun first second hshort => ?_,
      fun first second hshort a b ha hb _ => ?_⟩, fun c hc => ?_⟩
    · cases hshort
      decide
    · cases hshort
      cases ha
      cases hb
      rfl
    · obtain rfl : c = name := by simpa [Node.HasChild, Fields.hold_cons] using hc
      exact hname
  refine ⟨program, after, hok, hnames, normalize_decorates ctx root program {} after rfl ?_ ?_ ?_ hok⟩
  · refine ⟨fun html hhtml => ?_, fun key hkey script hscript => ?_⟩
    · cases hhtml
      decide
    · simp only [List.mem_cons, List.not_mem_nil, or_false] at hkey
      rcases hkey with rfl | rfl
      · cases hscript
      · cases hscript
  · exact Node.forall_inTree.mpr ⟨paired_of_plain rfl, fun c hc n hn => (hbelow c hc n hn).2⟩
  · exact fun c hc n hn => (hbelow c hc n hn).1

/-- A template in a template becomes a program as well, and nodes that the walk has left out become part
of the body of the program without a location. -/
theorem normalize_changes :
    let ctx : NormalizeContext := { index := .ofText [], options := {} }
    let text : Node := { kind := "Text", start := 0, stop := 0 }
    ∀ root ∈ [bareTemplate "Fragment" [bareTemplate "Fragment" []], bareTemplate "Text" [text]],
      root.Fresh ∧ (∀ n, root.InTree n → Paired n) ∧ ∃ program after,
        normalizeTree ctx root {} = .ok (program, after) ∧ ¬Decorated ctx root program after := by
  intro ctx text root hroot
  simp only [List.mem_cons, List.not_mem_nil, or_false] at hroot
  rcases hroot with rfl | rfl
  · have hwell : ∀ n, (bareTemplate "Fragment" [bareTemplate "Fragment" []]).InTree n →
        (n.visited = false ∧ n.fieldNames.Nodup) ∧ Paired n := by
      refine fresh_paired_bareTemplate rfl fun c hc => ?_
      cases List.mem_singleton.mp hc
      exact fresh_paired_bareTemplate rfl (by simp)
    refine ⟨fun n hn => (hwell n hn).1, fun n hn => (hwell n hn).2, ?_⟩
    have hrun : ((normalizeTree ctx (bareTemplate "Fragment" [bareTemplate "Fragment" []]) {}).toOption.map
        fun result => (result.1.children "body").map (·.kind)) = some ["Program"] := by
      simp only [normalizeTree_eq, leaveNode, finishRoot, locatedTokens, locatedComments,
        sortDisjoint_eq_insertionSort]
      decide +kernel
    obtain ⟨⟨program, after⟩, hok, hbody⟩ := Option.map_eq_some_iff.mp hrun
    refine ⟨program, after, toOption_eq_some.mp hok, fun h => ?_⟩
    obtain ⟨html, hhtml, -, hperm, -⟩ := h.program
    cases hhtml
    have hkinds := hperm.map (·.kind)
    simp only [List.map_map, Function.comp_def, (samePlace_bare _).kind, hbody] at hkinds
    revert hkinds
    decide
  · have hwell : ∀ n, (bareTemplate "Text" [text]).InTree n →
        (n.visited = false ∧ n.fieldNames.Nodup) ∧ Paired n := by
      refine fresh_paired_bareTemplate rfl fun c hc => ?_
      cases List.mem_singleton.mp hc
      refine Node.forall_inTree.mpr ⟨⟨⟨rfl, by decide⟩, paired_of_plain rfl⟩, fun c hc => ?_⟩
      simp [text, Node.HasChild] at hc
    refine ⟨fun n hn => (hwell n hn).1, fun n hn => (hwell n hn).2, ?_⟩
    have hrun : ((normalizeTree ctx (bareTemplate "Text" [text]) {}).toOption.map fun result =>
        (result.1.traversalKeys, (result.1.children "body").map (·.loc.isSome))) =
        some (["body"], [false]) := by
      simp only [normalizeTree_eq, leaveNode, finishRoot, locatedTokens, locatedComments,
        sortDisjoint_eq_insertionSort]
      decide +kernel
    obtain ⟨⟨program, after⟩, hok, hbody⟩ := Option.map_eq_some_iff.mp hrun
    obtain ⟨hkeys, hbody⟩ := Prod.mk.inj hbody
    refine ⟨program, after, toOption_eq_some.mp hok, fun h => ?_⟩
    obtain ⟨c, rest, hc, hloc, -⟩ := List.map_eq_cons_iff.mp hbody
    have hkey : "body" ∈ program.traversalKeys := by simp [hkeys]
    have hchild : c ∈ program.children "body" := by simp [hc]
    have hreached : program.Reaches c := .step hkey (nodesAt_of_children hchild) (.refl c)
    obtain ⟨loc, hsome, -⟩ := h.located program (List.mem_cons_self ..) c hreached
    rw [hsome] at hloc
    cases hloc

end Program

end SvelteSyntax
