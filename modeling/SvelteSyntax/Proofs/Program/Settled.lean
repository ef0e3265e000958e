import SvelteSyntax.Proofs.Program.Stages.Drafts

namespace SvelteSyntax

open Run Text Markup Script

variable {key : String} {c root program n c₃ c₁ c₂ : Node} {ectx : EmbedContext}
  {zctx ctx : NormalizeContext} {nctx : NameContext} {before after : Output} {v : Value}
  {template : Template}

namespace Program

/-- A node in its final form. -/
structure Settled (n : Node) : Prop where
  parsed : n.placeholder = false
  /-- What an await block binds is in its sections, and the sections are written ones. -/
  await : n.kind = "AwaitBlock" → n.has "value" = false ∧ n.has "error" = false ∧
    ∀ key ∈ ["pending", "then", "catch"], ∀ c, n.child? key = some c → c.flag "skip" = false
  /-- What a section binds is there, if only to say that it binds nothing. -/
  bound : ∀ key, (n.kind, key) ∈ [("ThenBlock", "value"), ("CatchBlock", "error")] →
    n.get? key = some .null ∨ ∃ c, n.get? key = some (.node c)
  each : n.kind = "EachBlock" → ∀ key ∈ ["index", "key"], ∀ v, n.get? key = some v → ∃ c, v = .node c

section Tree

variable {n m : Node}

theorem Scripted.settled (h : Scripted n) : Settled n := by
  obtain ⟨⟨hparsed, hkind⟩, -⟩ := scripted_iff.mp h
  have hmarkup : ∀ kind ∈ ["AwaitBlock", "ThenBlock", "CatchBlock", "EachBlock"], n.kind ≠ kind := by
    intro kind hmem he
    have hall : ∀ kind ∈ ["AwaitBlock", "ThenBlock", "CatchBlock", "EachBlock"], kind ∈ markupKinds := by
      decide
    exact hkind (he ▸ hall kind hmem)
  refine ⟨hparsed, fun he => absurd he (hmarkup _ (by simp)), fun key hkey => ?_,
    fun he => absurd he (hmarkup _ (by simp))⟩
  simp only [List.mem_cons, Prod.mk.injEq, List.not_mem_nil, or_false] at hkey
  rcases hkey with ⟨he, -⟩ | ⟨he, -⟩
  · exact absurd he (hmarkup _ (by simp))
  · exact absurd he (hmarkup _ (by simp))

theorem Fits.declared {kind} (h : Fits .embedded kind key v) (hkey : (kind, key) ∈ declaredFields) :
    (v = .null ∧ (kind, key) ∈ sectionBindings) ∨ ∃ c, v = .node c ∧ (kind, key) ∈ scriptFields := by
  have hbranch : ∀ branch ∈ branchFields, (branch.1, branch.2.1) ∉ declaredFields := by decide
  cases h with
  | bare hother | scripts _ hother | children _ hother => exact absurd hkey hother
  | name h | pattern h | unboundYet h => cases h
  | unbound h => exact .inl ⟨rfl, h⟩
  | script h => exact .inr ⟨_, rfl, h⟩
  | child h => exact absurd hkey (hbranch _ h)

theorem Formed.settled (h : Formed .embedded n) (hchildren : ∀ c, n.HasChild c → Staged .embedded c) :
    Settled n where
  parsed := h.placeholder
  await := fun hkind => by
    have hnone : ∀ key, ("AwaitBlock", key) ∈ awaitBindings → n.has key = false := by
      intro key hkey
      have hfields : ∀ field ∈ awaitBindings, field ∉ sectionBindings ∧ field ∉ scriptFields := by decide
      rw [Node.has, Option.isSome_eq_false_iff, Option.isNone_iff_eq_none]
      by_contra hsome
      obtain ⟨v, hv⟩ := Option.ne_none_iff_exists'.mp hsome
      have hfits := h.fields key v hv
      rw [hkind] at hfits
      rcases hfits.declared (mem_declaredFields_of_awaitBindings hkey) with ⟨-, hbad⟩ | ⟨_, -, hbad⟩
      · exact (hfields _ hkey).1 hbad
      · exact (hfields _ hkey).2 hbad
    refine ⟨hnone "value" (by decide), hnone "error" (by decide), fun key hkey c hc => ?_⟩
    have hfits := h.fields key _ (Node.get?_of_child? hc)
    rw [hkind] at hfits
    have hsections : ∀ field ∈ branchFields, field.1 = "AwaitBlock" → field.2.2 ∈ sectionKinds := by
      decide
    have hsection : c.kind ∈ sectionKinds := hsections _ (hfits.section_kind hkey) rfl
    have hstaged := hchildren c (Node.hasChild_of_child? hc)
    exact (hstaged.formed (sectionKinds_subset hsection)).1.present (by decide) hsection
  bound := fun key hkey => by
    obtain ⟨v, hv⟩ := Option.isSome_iff_exists.mp (h.bound (by decide) key hkey)
    rcases (h.fields key v hv).declared (mem_declaredFields_of_sectionBindings hkey) with
      ⟨rfl, -⟩ | ⟨c, rfl, -⟩
    · exact .inl hv
    · exact .inr ⟨c, hv⟩
  each := fun hkind key hkey v hv => by
    have hfields : ∀ key ∈ ["index", "key"], ("EachBlock", key) ∈ declaredFields ∧
        ("EachBlock", key) ∉ sectionBindings := by decide
    have hfits := h.fields key v hv
    rw [hkind] at hfits
    rcases hfits.declared (hfields key hkey).1 with ⟨-, hbad⟩ | ⟨c, rfl, -⟩
    · exact absurd hbad (hfields key hkey).2
    · exact ⟨c, rfl⟩

theorem Staged.child (h : Staged .embedded n) (hc : n.HasChild c) : Staged .embedded c := by
  cases h with
  | pending hs => exact absurd rfl hs
  | scripted h => exact .scripted (h.child hc)
  | markup _ hchildren => exact hchildren c hc

theorem Staged.settled (h : Staged .embedded n) : Settled n := by
  cases h with
  | pending hs => exact absurd rfl hs
  | scripted h => exact h.settled
  | markup h hchildren => exact h.settled hchildren

theorem Staged.settled_inTree (h : Staged .embedded n) (hm : n.InTree m) : Settled m := by
  suffices Staged .embedded m from this.settled
  induction hm with
  | root => exact h
  | child _ hc ih => exact ih.child hc

end Tree

/-- The kinds that the sections of a template get at last. -/
def relabelled : List (String × String) :=
  [("Fragment", "Fragment"), ("Style", "StyleElement"), ("Script", "ScriptElement")]

theorem Fits.relabel {kind kind'} (h : Fits .embedded kind key v)
    (hkind : (kind, kind') ∈ relabelled) : Fits .embedded kind' key v := by
  have hdeclared : ∀ field ∈ declaredFields, ∀ pair ∈ relabelled, field.1 ≠ pair.1 ∧ field.1 ≠ pair.2 := by
    decide
  have hbranch : ∀ field ∈ branchFields, ∀ pair ∈ relabelled, field.1 ≠ pair.1 := by decide
  have hscript : ∀ field ∈ scriptFields, ∀ pair ∈ relabelled, field.1 = pair.1 →
      (pair.2, field.2) ∈ scriptFields := by decide
  have hkeys : ∀ pair ∈ relabelled, childKeys? pair.2 = childKeys? pair.1 := by decide
  have hother : (kind', key) ∉ declaredFields := fun h => (hdeclared _ h _ hkind).2 rfl
  have hnot : (kind, key) ∉ declaredFields := fun h => (hdeclared _ h _ hkind).1 rfl
  have hleaf : ∀ {c}, Leaf .embedded kind key c → Leaf .embedded kind' key c := by
    intro c hc
    cases hc with
    | pending hs => exact absurd rfl hs
    | scripted h => exact .scripted h
  cases h with
  | bare _ h => exact .bare hother h
  | name h | pattern h | unboundYet h => cases h
  | unbound h => exact absurd (mem_declaredFields_of_sectionBindings h) hnot
  | script h hc => exact .script (hscript _ h _ hkind rfl) (hleaf hc)
  | scripts h _ hc => exact .scripts (hscript _ h _ hkind rfl) hother fun c hmem => hleaf (hc c hmem)
  | child h => exact absurd rfl (hbranch _ h _ hkind)
  | children h _ hc =>
    refine .children ?_ hother hc
    have hsame : childKeys? kind' = childKeys? kind := hkeys _ hkind
    rw [isWalked, hsame]
    exact h

theorem Staged.relabel {kind} (h : Staged .embedded n) (hkind : (n.kind, kind) ∈ relabelled) :
    Staged .embedded { n with kind } := by
  have hkinds : ∀ pair ∈ relabelled, pair.1 ∈ markupKinds ∧ (pair.2 ∈ markupKinds ∧
      pair.2 ≠ "TemplateRoot") ∧ pair.2 ∉ sectionKinds ∧ pair.2 ∉ declaringKinds ∧
        ∀ field ∈ sectionBindings, field.1 ≠ pair.2 := by decide
  obtain ⟨hmarkup, ⟨hmarkup', hroot⟩, hsection, hquiet, hbinding⟩ := hkinds _ hkind
  obtain ⟨hformed, hchildren⟩ := h.formed hmarkup
  exact .markup
    { placeholder := hformed.placeholder
      kind := hmarkup'
      inner := hroot
      names := hformed.names
      fields := fun key v hv => (hformed.fields key v hv).relabel hkind
      present := fun _ h => absurd h hsection
      bound := fun _ key h => absurd rfl (hbinding _ h)
      declares := .of_other hquiet } hchildren

theorem Passed.staged (h : Passed nctx ectx zctx key c c₁ c₂ c₃) (hkey : key ∈ sectionKeys)
    (hparser : ectx.parser.Plain ectx.source) (hc : Staged .drafted c)
    (hkind : (c.kind, sectionKind key c.kind) ∈ relabelled) : Staged .embedded c₃ := by
  obtain ⟨⟨d₁, hdepth₁, h₁⟩, ⟨level, d₂, hdepth₂, h₂⟩, ⟨d₃, h₃⟩⟩ := h
  have hkinds : ∀ pair ∈ relabelled, pair.1 ∈ markupKinds ∧ pair.1 ∉ sectionKinds := by decide
  obtain ⟨hmarkup, hsection⟩ := hkinds _ hkind
  have hslot := slot?_templateRoot hkey
  have hnamed := staged_nameWithin hc hsection hdepth₁ h₁
  have hkind₁ := (samePlace_nameWithin h₁).kind
  have hkind₂ := (samePlace_embedWithin (.inr hslot) h₂).kind.trans hkind₁
  have hembedded := staged_embedWithin hparser hnamed
    (fun hpending => absurd (hkind₁ ▸ hmarkup) hpending.kind) hdepth₂ h₂
  rw [← hkind₂] at hkind
  exact staged_normalizeWithin (hembedded.relabel hkind) h₃

theorem Passed.kind (h : Passed nctx ectx zctx key c c₁ c₂ c₃) (hkey : key ∈ sectionKeys)
    (hkind : (c.kind, sectionKind key c.kind) ∈ relabelled) :
    c₃.kind = sectionKind key c.kind := by
  obtain ⟨⟨d₁, -, h₁⟩, ⟨level, d₂, -, h₂⟩, ⟨d₃, h₃⟩⟩ := h
  have hkinds : ∀ pair ∈ relabelled, pair.2 ≠ "TemplateRoot" := by decide
  have hkind₂ := (samePlace_embedWithin (.inr (slot?_templateRoot hkey)) h₂).kind.trans
    (samePlace_nameWithin h₁).kind
  rw [hkind₂] at h₃
  exact (samePlace_normalizeWithin (hkinds _ hkind) h₃).kind

theorem child?_rootOf_css (template : Template) (size : Nat) :
    (rootOf template size).child? "css" = template.css := by
  obtain ⟨html, css, instanceScript, moduleScript⟩ := template
  cases css <;> rfl

theorem TemplateDrafted.section (h : TemplateDrafted template) {size} (hkey : key ∈ sectionKeys)
    (hc : (rootOf template size).child? key = some c) :
    Staged .drafted c ∧ (c.kind, sectionKind key c.kind) ∈ relabelled := by
  obtain ⟨hhtml, hinstance, hmodule⟩ := child?_rootOf template size
  simp only [sectionKeys, List.mem_cons, List.not_mem_nil, or_false] at hkey
  rcases hkey with rfl | rfl | rfl | rfl
  · obtain ⟨children, hfragment, hchildren⟩ := h.html
    rw [hhtml, hfragment] at hc
    cases hc
    exact ⟨staged_of_grown (by decide) (by simp [Fields.names])
      (.one (.children (by decide) (by decide) hchildren)), by simp [fragmentNode]; decide⟩
  · rw [child?_rootOf_css] at hc
    obtain ⟨hkind, hstaged⟩ := h.css c hc
    exact ⟨hstaged, by rw [hkind]; decide⟩
  · rw [hinstance] at hc
    have hscript := h.instanceScript c hc
    exact ⟨hscript.staged, by rw [hscript.kind]; decide⟩
  · rw [hmodule] at hc
    have hscript := h.moduleScript c hc
    exact ⟨hscript.staged, by rw [hscript.kind]; decide⟩

theorem TemplateDrafted.staged {index : LineIndex} (h : TemplateDrafted template)
    (hparser : ectx.parser.Plain ectx.source) (hkey : key ∈ sectionKeys)
    (hsection : Option.Rel (fun c c' => ∃ c₁ c₂, Passed nctx ectx zctx key c c₁ c₂ c')
      ((rootOf template index.size).child? key) (root.child? key)) (hn : root.child? key = some n) :
    Staged .embedded n ∧ n.kind ∈ relabelled.map (·.2) := by
  rw [hn] at hsection
  generalize hc : (rootOf template index.size).child? key = c at hsection
  cases hsection with
  | @some c _ hpassed =>
    obtain ⟨c₁, c₂, hpassed⟩ := hpassed
    obtain ⟨hdraft, hkind⟩ := h.section hkey hc
    refine ⟨hpassed.staged hkey hparser hdraft hkind, ?_⟩
    rw [hpassed.kind hkey hkind]
    exact List.mem_map_of_mem hkind

theorem Finished.mem_body (h : Finished ctx root before after program) (hc : c ∈ program.children "body") :
    (∃ html, root.child? "html" = some html ∧ html.HasChild c) ∨
      ∃ key ∈ ["instance", "module"], ∃ script, root.child? key = some script ∧
        ∃ content, script.child? "content" = some content ∧ c ∈ content.children "body" := by
  obtain ⟨html, body, hhtml, hsorted, hget⟩ := h.body
  rw [Node.children, hget] at hc
  rcases List.mem_append.mp ((perm_of_sortDisjoint hsorted).mem_iff.mp hc) with hmarkup | hscript
  · exact .inl ⟨html, hhtml, hasChild_markupProgram (Node.hasChild_of_children hmarkup)⟩
  · obtain ⟨script, hmem, hstatement⟩ := List.mem_flatMap.mp hscript
    unfold statementsOf at hstatement
    cases hcontent : script.child? "content" with
    | none => simp [hcontent] at hstatement
    | some content =>
      rw [hcontent, Option.map_some, Option.getD_some] at hstatement
      rcases List.mem_append.mp hmem with hmem | hmem
      · exact .inr ⟨"instance", by simp, script, Option.mem_toList.mp hmem, content, hcontent, hstatement⟩
      · exact .inr ⟨"module", by simp, script, Option.mem_toList.mp hmem, content, hcontent, hstatement⟩

theorem Finished.mem_children (h : Finished ctx root before after program) (hc : program.HasChild c) :
    ∃ key ∈ sectionKeys, ∃ n, root.child? key = some n ∧
      (n.HasChild c ∨ ∃ m, n.HasChild m ∧ m.HasChild c) := by
  have hscripts : ∀ key ∈ ["instance", "module"], key ∈ sectionKeys := by decide
  obtain ⟨html, hhtml, -, hchildren⟩ := h.children
  rcases hchildren c hc with hc | hc
  · exact ⟨"html", by decide, html, hhtml, .inl hc⟩
  rcases h.mem_body hc with ⟨html, hhtml, hc⟩ | ⟨key, hkey, script, hscript, content, hcontent, hc⟩
  · exact ⟨"html", by decide, html, hhtml, .inl hc⟩
  · exact ⟨key, hscripts key hkey, script, hscript,
      .inr ⟨content, Node.hasChild_of_child? hcontent, Node.hasChild_of_children hc⟩⟩

theorem Finished.settled {m : Node} (h : Finished ctx root before after program)
    (hsections : ∀ key ∈ sectionKeys, ∀ n, root.child? key = some n → Staged .embedded n)
    (hm : program.InTree m) : Settled m := by
  have hstaged : ∀ c, program.HasChild c → Staged .embedded c := by
    intro c hc
    obtain ⟨key, hkey, n, hn, hc | ⟨content, hcontent, hc⟩⟩ := h.mem_children hc
    · exact (hsections key hkey n hn).child hc
    · exact ((hsections key hkey n hn).child hcontent).child hc
  refine Node.forall_inTree.mpr ⟨?_, fun c hc m hm => (hstaged c hc).settled_inTree hm⟩ m hm
  obtain ⟨html, hhtml, hplaceholder, -⟩ := h.children
  have hne : ∀ kind, "Program" ≠ kind → program.kind ≠ kind := fun kind hkind => h.kind ▸ hkind
  refine ⟨hplaceholder.trans (hsections "html" (by decide) html hhtml).settled.parsed,
    fun hkind => absurd hkind (hne _ (by decide)), fun key hkey => ?_,
    fun hkind => absurd hkind (hne _ (by decide))⟩
  simp [h.kind] at hkey

/-- In the program of a component that parses and converts, and in its style and scripts, nothing is
pending, and every declaration is in its final form. -/
theorem convert_settled (parser : ScriptParser) (options : Options) (index : LineIndex)
    (source : List Char) (parsed : Parsed) (converted : Converted) (hparser : parser.Plain source)
    (hparse : parse parser source = .ok parsed)
    (hconvert : convert parser options index source parsed.template = .ok converted) :
    ∀ root ∈ converted.ast.program :: (converted.css.toList ++ converted.instanceScript.toList ++
      converted.moduleScript.toList), ∀ n, root.InTree n → Settled n := by
  have htemplate := templateDrafted_of_parse hparser hparse
  obtain ⟨nctx, root, ⟨before, after, hfinished⟩, ⟨hcss, hinstance, hmodule⟩, hsections⟩ :=
    passed_of_convert hconvert
  have hstaged : ∀ key ∈ sectionKeys, ∀ n, root.child? key = some n → Staged .embedded n :=
    fun key hkey n hn => (htemplate.staged hparser hkey (hsections key hkey) hn).1
  intro element helement n hn
  simp only [List.mem_cons, List.mem_append, Option.mem_toList, hcss, hinstance, hmodule] at helement
  rcases helement with rfl | (helement | helement) | helement
  · exact hfinished.settled hstaged hn
  · exact (hstaged "css" (by decide) _ helement).settled_inTree hn
  · exact (hstaged "instance" (by decide) _ helement).settled_inTree hn
  · exact (hstaged "module" (by decide) _ helement).settled_inTree hn

theorem wordParser_plain (source : List Char) : wordParser.Plain source where
  expression start stop assignable parsed h := by
    obtain ⟨text, -, h⟩ := bind_eq_ok.mp h
    cases h
    exact scripted_identifierNode _ _ _
  program start stop parsed h := by
    obtain ⟨text, -, h⟩ := bind_eq_ok.mp h
    cases h
    have hleaf : ∀ kind, kind ∉ markupKinds → Scripted (Node.new kind start stop) := fun kind hkind =>
      scripted_iff.mpr ⟨⟨rfl, hkind⟩, fun c hc => by simp [Node.HasChild, Node.new] at hc⟩
    refine (hleaf "Program" (by decide)).set "body" fun c hc => ?_
    rw [Value.holds_nodes, List.mem_singleton] at hc
    rw [hc]
    refine (hleaf "ExpressionStatement" (by decide)).set "expression" fun c hc => ?_
    rw [Value.holds_node] at hc
    exact hc ▸ scripted_identifierNode _ _ _

/-- An await block with all its sections, an each block with an index and a key, and a script. -/
theorem convert_settled_word :
    let source :=
      "\x7b#await a\x7d\x7b:then b\x7d\x7b:catch c\x7d\x7b/await\x7d\x7b#each d as e, f (g)\x7d\x7b/each\x7d<script>h</script>".toList
    ∃ parsed converted, parse wordParser source = .ok parsed ∧
      convert wordParser {} (LineIndex.ofText source) source parsed.template = .ok converted ∧
      (converted.ast.program.children "body").map (·.kind) =
        ["AwaitBlock", "EachBlock", "ExpressionStatement"] ∧
      ∀ root ∈ converted.ast.program :: (converted.css.toList ++ converted.instanceScript.toList ++
        converted.moduleScript.toList), ∀ n, root.InTree n → Settled n := by
  intro source
  have hrun : ((parse wordParser source).toOption.bind fun parsed =>
      (convert wordParser {} (LineIndex.ofText source) source parsed.template).toOption.map
        fun converted => (converted.ast.program.children "body").map (·.kind)) =
      some ["AwaitBlock", "EachBlock", "ExpressionStatement"] := by
    simp only [convert, normalizeTree_eq, leaveNode, finishRoot, locatedTokens, locatedComments,
      sortDisjoint_eq_insertionSort]
    decide +kernel
  obtain ⟨parsed, hparsed, hrun⟩ := Option.bind_eq_some_iff.mp hrun
  obtain ⟨converted, hconverted, hbody⟩ := Option.map_eq_some_iff.mp hrun
  rw [toOption_eq_some] at hparsed hconverted
  exact ⟨parsed, converted, hparsed, hconverted, hbody,
    convert_settled wordParser {} _ source parsed converted (wordParser_plain source) hparsed hconverted⟩

end Program

end SvelteSyntax
