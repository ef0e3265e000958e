import SvelteSyntax.Markup.Parser
import SvelteSyntax.Program.Convert
import SvelteSyntax.Proofs.Program.Embed
import SvelteSyntax.Proofs.Program.Normalize

namespace SvelteSyntax.Program

open Text Markup Script Run

/-- The program of a script element, parsed if it is pending. -/
def scriptProgram? (parser : ScriptParser) (source : List Char) (script : Node) : Option Node :=
  (script.child? "content").bind fun content =>
    if content.placeholder then
      (parser.programAt source content.start content.stop).toOption.map (·.program)
    else some content

structure SameScript (parser : ScriptParser) (source : List Char) (script script' : Node) :
    Prop where
  start : script'.start = script.start
  stop : script'.stop = script.stop
  statements : script.kind = "Script" → ∀ program, scriptProgram? parser source script = some program →
    program.kind = "Program" → List.Forall₂ Kept (program.children "body") (statementsOf script')

variable {key : String} {source : List Char} {parent : Option Parent}
  {c program html s₃ s₁ s₂ n n' : Node} {ctx : NormalizeContext} {tokens : List Token} {t : Token}

section Content

variable {n n' : Node}

theorem optionRel_child {r : Node → Node → Prop} {o : Option Node} (h : Option.Rel r (n.child? key) o) :
    Option.Rel (fun c c' => n.HasChild c ∧ r c c') (n.child? key) o := by
  generalize hc : n.child? key = oc at h
  cases h with
  | none => exact .none
  | some hr => exact .some ⟨Node.hasChild_of_child? hc, hr⟩

theorem content_nameWithin {ctx : NameContext} {depth} (hkind : n.kind = "Script")
    (h : Yields (nameWithin ctx depth parent n) n') :
    Option.Rel (fun c c' => ∃ d, Yields (nameWithin ctx d (some ⟨"Script", "content"⟩) c) c')
      (n.child? "content") (n'.child? "content") := by
  cases depth with
  | zero =>
    rw [Yields.pure h]
    cases n.child? "content" with
    | none => exact .none
    | some c => exact .some ⟨0, {}, {}, rfl⟩
  | succ depth =>
    rw [nameWithin_of_plain (by simp [hkind])] at h
    have hkeys : childKeys? n.kind = some ["attributes", "content"] := by rw [hkind]; decide
    have hchild := child?_mapChildrenM h hkeys (by decide) (by decide : "content" ∈ _)
    rw [hkind] at hchild
    exact optionRel_imp (fun c c' hc => ⟨depth, hc⟩) hchild

theorem content_embedWithin {ctx : EmbedContext} {level depth} (hkind : n.kind = "Script")
    (hslot : parent.bind slot? = none) (hdepth : n.depth ≤ depth)
    (h : Yields (embedWithin ctx level depth parent n) n') :
    Option.Rel (fun c c' => ∃ d, Yields (embedWithin ctx level (d + 1) (some ⟨"Script", "content"⟩) c) c')
      (n.child? "content") (n'.child? "content") := by
  obtain ⟨d, rfl⟩ : ∃ d, depth = d + 1 := Nat.exists_eq_add_one.mpr (Nat.lt_of_lt_of_le n.depth_pos hdepth)
  rw [embedWithin_eq_mapChildrenM (.inr hslot)] at h
  have hkeys : childKeys? n.kind = some ["attributes", "content"] := by rw [hkind]; decide
  have hchild := child?_mapChildrenM h hkeys (by decide) (by decide : "content" ∈ _)
  rw [hkind] at hchild
  refine optionRel_imp (fun c c' hc => ?_) (optionRel_child hchild)
  have hlt := Node.depth_lt_of_hasChild hc.1
  have hpos := c.depth_pos
  obtain ⟨d, rfl⟩ : ∃ e, d = e + 1 := Nat.exists_eq_add_one.mpr (by omega)
  exact ⟨d, hc.2⟩

end Content

section Passes

variable {nctx : NameContext} {ectx : EmbedContext} {zctx : NormalizeContext}

theorem statements_kept {c₁ c₂ c₃} {parent : Parent} (hparent : slot? parent = some .program)
    {d₁ level d₂ d₃} (h₁ : Yields (nameWithin nctx d₁ (some parent) c) c₁)
    (h₂ : Yields (embedWithin ectx level (d₂ + 1) (some parent) c₁) c₂)
    (h₃ : Yields (normalizeWithin zctx d₃ c₂) c₃) (hprogram : (if c.placeholder then
      (ectx.parser.programAt ectx.source c.start c.stop).toOption.map (·.program)
      else some c) = some program) (hkind : program.kind = "Program") :
    List.Forall₂ Kept (program.children "body") (c₃.children "body") := by
  have hplace := samePlace_nameWithin h₁
  have hlist : ∀ n : Node, n.kind = "Program" → (n.kind, "body") ∈ listFields := by
    intro n hn
    simp [hn, listFields]
  have hembedded : c₂.kind = "Program" ∧
      List.Forall₂ Kept (program.children "body") (c₂.children "body") := by
    by_cases hpending : c.placeholder = true
    · rw [if_pos hpending] at hprogram
      obtain ⟨parsed, hparsed, rfl⟩ := Option.map_eq_some_iff.mp hprogram
      rw [toOption_eq_some] at hparsed
      obtain ⟨parsed', hparsed', hrest⟩ :=
        embedWithin_program (hplace.placeholder.trans hpending) hparent h₂
      rw [hplace.start, hplace.stop, hparsed] at hparsed'
      cases hparsed'
      have hkept := keptList_embedRest (hlist _ hkind) hrest
      exact ⟨hkept.place.kind.trans hkind, hkept.children⟩
    · rw [if_neg hpending] at hprogram
      obtain rfl : c = program := Option.some.inj hprogram
      have hnamed := keptList_nameWithin (hlist c hkind) h₁
      have hparsed := keptList_embedWithin (hlist c₁ (hplace.kind.trans hkind))
        (.inl (by simpa [hplace.placeholder] using hpending)) h₂
      exact ⟨hparsed.place.kind.trans (hplace.kind.trans hkind),
        forall₂_kept_trans hnamed.children hparsed.children⟩
  exact forall₂_kept_trans hembedded.2
    (keptList_normalizeWithin (hlist c₂ hembedded.1) h₃).children

/-- What the three passes make of a section of a template. -/
structure Passed (nctx : NameContext) (ectx : EmbedContext) (zctx : NormalizeContext) (key : String)
    (c c₁ c₂ c₃ : Node) : Prop where
  named : ∃ d, c.depth ≤ d ∧ Yields (nameWithin nctx d (some ⟨"TemplateRoot", key⟩) c) c₁
  embedded : ∃ level d, c₁.depth ≤ d ∧ Yields (embedWithin ectx level d (some ⟨"TemplateRoot", key⟩) c₁) c₂
  normalized : ∃ d, Yields (normalizeWithin zctx (d + 1) { c₂ with kind := sectionKind key c₂.kind }) c₃

theorem slot?_templateRoot (hkey : key ∈ sectionKeys) :
    (some (Parent.mk "TemplateRoot" key)).bind slot? = none := by
  simp only [sectionKeys, List.mem_cons, List.not_mem_nil, or_false] at hkey
  rcases hkey with rfl | rfl | rfl | rfl <;> rfl

theorem Passed.keptList {h₁ h₂ h₃} (h : Passed nctx ectx zctx "html" html h₁ h₂ h₃)
    (hkind : html.kind = "Fragment") : KeptList "children" html h₃ := by
  obtain ⟨⟨_, _, hnamed⟩, ⟨_, _, -, hembedded⟩, ⟨_, hnormalized⟩⟩ := h
  have hlist : ∀ n : Node, n.kind = "Fragment" → (n.kind, "children") ∈ listFields := by
    intro n hn
    simp [hn, listFields]
  have hkept₁ := keptList_nameWithin (hlist html hkind) hnamed
  have hkind₁ := hkept₁.place.kind.trans hkind
  have hkept₂ := keptList_embedWithin (hlist h₁ hkind₁) (.inr rfl) hembedded
  have hkind₂ := hkept₂.place.kind.trans hkind₁
  have hrelabel : KeptList "children" h₂ { h₂ with kind := sectionKind "html" h₂.kind } :=
    .of_fields ⟨by simp [sectionKind], rfl, rfl, rfl⟩ rfl
  have hkept₃ := keptList_normalizeWithin (hlist _ (hrelabel.place.kind.trans hkind₂)) hnormalized
  exact hkept₁.trans (hkept₂.trans (hrelabel.trans hkept₃))

theorem sectionKind_script (hkey : key = "instance" ∨ key = "module") (kind : String) :
    sectionKind key kind = "ScriptElement" := by
  rcases hkey with rfl | rfl <;> simp [sectionKind]

theorem Passed.content {script} (h : Passed nctx ectx zctx key script s₁ s₂ s₃)
    (hkey : key = "instance" ∨ key = "module") (hkind : script.kind = "Script")
    (hc : script.child? "content" = some c) :
    ∃ c₁ c₂ c₃ d₁ level d₂ d₃, s₃.child? "content" = some c₃ ∧
      Yields (nameWithin nctx d₁ (some ⟨"Script", "content"⟩) c) c₁ ∧
      Yields (embedWithin ectx level (d₂ + 1) (some ⟨"Script", "content"⟩) c₁) c₂ ∧
      Yields (normalizeWithin zctx d₃ c₂) c₃ := by
  have hslot : (some (Parent.mk "TemplateRoot" key)).bind slot? = none :=
    slot?_templateRoot (by rcases hkey with rfl | rfl <;> simp [sectionKeys])
  obtain ⟨⟨_, _, hnamed⟩, ⟨_, _, hdepth, hembedded⟩, ⟨_, hnormalized⟩⟩ := h
  rw [sectionKind_script hkey] at hnormalized
  have hcontent₁ := content_nameWithin hkind hnamed
  have hcontent₂ := content_embedWithin ((samePlace_nameWithin hnamed).kind.trans hkind) hslot hdepth
    hembedded
  have hcontent₃ := content_normalizeWithin rfl hnormalized
  rw [hc] at hcontent₁
  obtain ⟨c₁, hc₁, _, hc_named⟩ := of_optionRel_some hcontent₁
  rw [hc₁] at hcontent₂
  obtain ⟨c₂, hc₂, _, hc_embedded⟩ := of_optionRel_some hcontent₂
  rw [show ({ s₂ with kind := "ScriptElement" } : Node).child? "content" = s₂.child? "content" from rfl,
    hc₂] at hcontent₃
  obtain ⟨c₃, hc₃, _, hc_normalized⟩ := of_optionRel_some hcontent₃
  exact ⟨c₁, c₂, c₃, _, _, _, _, hc₃, hc_named, hc_embedded, hc_normalized⟩

theorem Passed.sameScript {script} (h : Passed nctx ectx zctx key script s₁ s₂ s₃)
    (hkey : key = "instance" ∨ key = "module") :
    SameScript ectx.parser ectx.source script s₃ := by
  have hslot : (some (Parent.mk "TemplateRoot" key)).bind slot? = none :=
    slot?_templateRoot (by rcases hkey with rfl | rfl <;> simp [sectionKeys])
  obtain ⟨_, _, hnamed⟩ := h.named
  obtain ⟨_, _, -, hembedded⟩ := h.embedded
  obtain ⟨_, hnormalized⟩ := h.normalized
  rw [sectionKind_script hkey] at hnormalized
  have hplace₁ := samePlace_nameWithin hnamed
  have hplace₂ := samePlace_embedWithin (.inr hslot) hembedded
  have hplace₃ := samePlace_normalizeWithin (by simp) hnormalized
  refine ⟨hplace₃.start.trans (hplace₂.start.trans hplace₁.start),
    hplace₃.stop.trans (hplace₂.stop.trans hplace₁.stop), fun hkind program hprogram hp => ?_⟩
  obtain ⟨c, hc, hprogram⟩ := Option.bind_eq_some_iff.mp hprogram
  obtain ⟨c₁, c₂, c₃, _, _, _, _, hc₃, hc_named, hc_embedded, hc_normalized⟩ := h.content hkey hkind hc
  rw [statementsOf, hc₃]
  exact statements_kept rfl hc_named hc_embedded hc_normalized hprogram hp

theorem of_nameTree (hkind : n.kind = "TemplateRoot") (h : Yields (nameTree nctx n) n') :
    n'.kind = "TemplateRoot" ∧ ∀ key ∈ sectionKeys, Option.Rel (fun c c' => ∃ d, c.depth ≤ d ∧
      Yields (nameWithin nctx d (some ⟨"TemplateRoot", key⟩) c) c') (n.child? key) (n'.child? key) := by
  have hle : n.depth ≤ n.depth * (n.depth + 1) := Nat.le_mul_of_pos_right _ (Nat.succ_pos _)
  obtain ⟨depth, hdepth⟩ : ∃ depth, n.depth * (n.depth + 1) = depth + 1 :=
    Nat.exists_eq_succ_of_ne_zero (by have hpos := n.depth_pos; omega)
  rw [nameTree_eq, hdepth] at h
  obtain ⟨n₁, hnode, hmap⟩ := Yields.bind h
  have hn₁ : n₁ = n := by
    unfold nameNode at hnode
    rw [hkind] at hnode
    obtain ⟨-, -, hnode⟩ := hnode.bind
    exact hnode.pure
  rw [hn₁] at hmap
  have hkeys : childKeys? n.kind = some sectionKeys := by rw [hkind]; decide
  refine ⟨(samePlace_mapChildrenM hmap).kind.trans hkind, fun key hkey => ?_⟩
  have hchild := child?_mapChildrenM hmap hkeys (by decide) hkey
  rw [hkind] at hchild
  refine optionRel_imp (fun c c' hc => ?_) (optionRel_child hchild)
  have hlt := Node.depth_lt_of_hasChild hc.1
  exact ⟨depth, by omega, hc.2⟩

theorem of_embedTree (hkind : n.kind = "TemplateRoot") (h : Yields (embedTree ectx n) n') :
    n'.kind = "TemplateRoot" ∧ ∀ key ∈ sectionKeys, Option.Rel (fun c c' => ∃ level d, c.depth ≤ d ∧
      Yields (embedWithin ectx level d (some ⟨"TemplateRoot", key⟩) c) c') (n.child? key) (n'.child? key) := by
  obtain ⟨depth, hdepth⟩ : ∃ depth, n.depth = depth + 1 := ⟨_, n.depth_eq⟩
  rw [embedTree_eq, hdepth, embedWithin_eq_mapChildrenM (.inr rfl)] at h
  have hkeys : childKeys? n.kind = some sectionKeys := by rw [hkind]; decide
  refine ⟨(samePlace_mapChildrenM h).kind.trans hkind, fun key hkey => ?_⟩
  have hchild := child?_mapChildrenM h hkeys (by decide) hkey
  rw [hkind] at hchild
  refine optionRel_imp (fun c c' hc => ?_) (optionRel_child hchild)
  have hlt := Node.depth_lt_of_hasChild hc.1
  exact ⟨_, depth, by omega, hc.2⟩

end Passes

theorem children_markupProgram (h : html.get? "body" = none) :
    (markupProgram ctx html).children "body" = html.children "children" := by
  have hget : (markupProgram ctx html).get? "body" = html.get? "children" := by
    rw [markupProgram, Node.get?_set_of_ne (by decide)]
    exact Fields.get?_rename_new h
  unfold Node.children
  rw [hget]

/-- The parts of a program are where the source has them. -/
structure Laid (source : List Char) (ast : Ast) : Prop where
  tokens : Ordered ast.streams.tokens
  apart : ast.streams.tokens.Pairwise fun a b => a.stop ≤ b.start
  faithful : ast.streams.Faithful source
  comments : Ordered ast.streams.comments
  body : Ordered (ast.program.children "body")
  start : ast.program.start = (ast.streams.tokens.head?.map (·.start)).getD 0
  stop : ast.program.stop = (ast.streams.tokens.getLast?.map (·.stop)).getD (byteLength source)
  inside : ∀ t ∈ ast.streams.tokens, ast.program.start ≤ t.start ∧ t.stop ≤ ast.program.stop

/-- A program has the markup and the scripts of its template in its body. -/
structure Composed (parser : ScriptParser) (source : List Char) (template : Template)
    (converted : Converted) : Prop where
  body : ∃ markup, List.Forall₂ Kept (template.html.children "children") markup ∧
    (converted.ast.program.children "body").Perm (markup ++
      (converted.instanceScript.toList ++ converted.moduleScript.toList).flatMap statementsOf)
  instanceScript :
    Option.Rel (SameScript parser source) template.instanceScript converted.instanceScript
  moduleScript : Option.Rel (SameScript parser source) template.moduleScript converted.moduleScript

theorem head_le_of_sorted (h : Ordered tokens) (ht : t ∈ tokens) :
    (tokens.head?.map (·.start)).getD 0 ≤ t.start := by
  cases tokens with
  | nil => cases ht
  | cons first rest =>
    rcases List.mem_cons.mp ht with rfl | ht
    · exact Nat.le_refl _
    · exact (List.pairwise_cons.mp h.sorted).1 t ht

theorem le_getLast_of_apart (hle : ∀ t ∈ tokens, t.start ≤ t.stop)
    (h : tokens.Pairwise fun a b => a.stop ≤ b.start) (ht : t ∈ tokens) (size : Nat) :
    t.stop ≤ (tokens.getLast?.map (·.stop)).getD size := by
  obtain ⟨init, last, rfl⟩ : ∃ init last, tokens = init ++ [last] :=
    ⟨_, _, (List.dropLast_append_getLast (List.ne_nil_of_mem ht)).symm⟩
  simp only [List.getLast?_concat, Option.map_some, Option.getD_some]
  rcases List.mem_append.mp ht with hinit | hlast
  · have happart : t.stop ≤ last.start :=
      (List.pairwise_append.mp h).2.2 t hinit last (List.mem_singleton_self last)
    exact happart.trans (hle last (by simp))
  · rw [List.mem_singleton.mp hlast]

theorem laid_of_finished {root before after} (hsize : ctx.index.size = byteLength source)
    (hbefore : before.Faithful source) (h : Finished ctx root before after program) :
    Laid source { program, streams := after.streams } := by
  have htokens := ordered_locatedTokens h.tokens
  have hfaithful := faithful_locatedTokens h.tokens hbefore
  have hle : ∀ t ∈ after.streams.tokens, t.start ≤ t.stop := fun t ht => (hfaithful t ht).start_le_stop
  have happart := htokens.pairwise hle
  obtain ⟨html, body, -, hbody, hget⟩ := h.body
  have hchildren : program.children "body" = body := by rw [Node.children, hget]
  exact
    { tokens := htokens
      apart := happart
      faithful := hfaithful
      comments := ordered_locatedComments h.comments
      body := hchildren ▸ ordered_of_sortDisjoint hbody
      start := h.start
      stop := hsize ▸ h.stop
      inside := fun t ht =>
        ⟨h.start ▸ head_le_of_sorted htokens ht, h.stop ▸ le_getLast_of_apart hle happart ht _⟩ }

theorem child?_rootOf (template : Template) (size : Nat) :
    (rootOf template size).child? "html" = some template.html ∧
      (rootOf template size).child? "instance" = template.instanceScript ∧
      (rootOf template size).child? "module" = template.moduleScript := by
  obtain ⟨html, css, instanceScript, moduleScript⟩ := template
  refine ⟨rfl, ?_, ?_⟩
  · cases instanceScript <;> rfl
  · cases moduleScript <;> rfl

/-- A conversion that succeeds takes the sections of a template through the three passes and makes a
program of them. -/
theorem passed_of_convert {parser options index template converted}
    (h : convert parser options index source template = .ok converted) :
    ∃ nctx, ∃ root : Node,
      (∃ before after, Finished { index, options } root before after converted.ast.program) ∧
      (converted.css = root.child? "css" ∧ converted.instanceScript = root.child? "instance" ∧
        converted.moduleScript = root.child? "module") ∧
      ∀ key ∈ sectionKeys, Option.Rel (fun c c' => ∃ c₁ c₂,
          Passed nctx { source, index, parser } { index, options } key c c₁ c₂ c')
        ((rootOf template index.size).child? key) (root.child? key) := by
  obtain ⟨lexemes, -, h⟩ := bind_eq_ok.mp h
  obtain ⟨⟨root₁, named⟩, hnamed, h⟩ := bind_eq_ok.mp h
  obtain ⟨⟨root₂, embedded⟩, hembedded, h⟩ := bind_eq_ok.mp h
  obtain ⟨⟨program, out⟩, hnormalized, h⟩ := bind_eq_ok.mp h
  cases h
  obtain ⟨hkind₁, hsections₁⟩ := of_nameTree rfl ⟨_, _, hnamed⟩
  obtain ⟨hkind₂, hsections₂⟩ := of_embedTree hkind₁ ⟨_, _, hembedded⟩
  obtain ⟨root₃, before, hfinished, -, hsections₃⟩ := of_normalizeTree hkind₂ hnormalized
  refine ⟨{ source, index, lexemes }, root₃, ⟨before, out, hfinished⟩,
    ⟨hfinished.css, hfinished.instanceScript, hfinished.moduleScript⟩, fun key hkey => ?_⟩
  refine optionRel_imp (fun c c' hc => ?_) (optionRel_comp (hsections₁ key hkey)
    (optionRel_comp (hsections₂ key hkey) (hsections₃ key hkey)))
  obtain ⟨c₁, hnamed, c₂, hembedded, hnormalized⟩ := hc
  exact ⟨c₁, c₂, hnamed, hembedded, hnormalized⟩

/-- A conversion that succeeds gives the streams of the source in their order and the markup and the
statements of the template as the body. -/
theorem convert_laid_composed {parser : ScriptParser} {options : Options} {source : List Char}
    {template : Template} {converted : Converted} (hparser : parser.Faithful source)
    (hkind : template.html.kind = "Fragment") (hbody : template.html.get? "body" = none)
    (h : convert parser options (LineIndex.ofText source) source template = .ok converted) :
    Laid source converted.ast ∧ Composed parser source template converted := by
  obtain ⟨lexemes, hlex, h⟩ := bind_eq_ok.mp h
  obtain ⟨⟨root₁, named⟩, hnamed, h⟩ := bind_eq_ok.mp h
  obtain ⟨⟨root₂, embedded⟩, hembedded, h⟩ := bind_eq_ok.mp h
  obtain ⟨⟨program, out⟩, hnormalized, h⟩ := bind_eq_ok.mp h
  cases h
  obtain ⟨hhtml, hinstance, hmodule⟩ := child?_rootOf template (LineIndex.ofText source).size
  obtain ⟨hkind₁, hsections₁⟩ := of_nameTree rfl ⟨_, _, hnamed⟩
  obtain ⟨hkind₂, hsections₂⟩ := of_embedTree hkind₁ ⟨_, _, hembedded⟩
  obtain ⟨root₃, before, hfinished, hbefore, hsections₃⟩ := of_normalizeTree hkind₂ hnormalized
  have hstreams : (named ++ embedded).Faithful source := by
    have hempty : Streams.Faithful source {} := by simp [Streams.Faithful]
    exact (keeps_nameTree (lex_in hlex) _ _ _ _ hempty hnamed).append
      (keeps_embedTree hparser _ _ _ _ hempty hembedded)
  have hpassed : ∀ key ∈ sectionKeys, Option.Rel (fun c c' => ∃ c₁ c₂,
      Passed { source, index := LineIndex.ofText source, lexemes }
        { source, index := LineIndex.ofText source, parser }
        { index := LineIndex.ofText source, options } key c c₁ c₂ c')
      ((rootOf template (LineIndex.ofText source).size).child? key) (root₃.child? key) := by
    intro key hkey
    refine optionRel_imp (fun c c' hc => ?_) (optionRel_comp (hsections₁ key hkey)
      (optionRel_comp (hsections₂ key hkey) (hsections₃ key hkey)))
    obtain ⟨c₁, hnamed, c₂, hembedded, hnormalized⟩ := hc
    exact ⟨c₁, c₂, hnamed, hembedded, hnormalized⟩
  refine ⟨laid_of_finished rfl (hbefore source hstreams) hfinished, ?_, ?_, ?_⟩
  · have hhtml₃ := hpassed "html" (by simp [sectionKeys])
    rw [hhtml] at hhtml₃
    obtain ⟨html₃, hhtml₃, html₁, html₂, hmarkup⟩ := of_optionRel_some hhtml₃
    have hkept := hmarkup.keptList hkind
    obtain ⟨html, body, hhtml', hsorted, hget⟩ := hfinished.body
    obtain rfl : html₃ = html := Option.some.inj (hhtml₃.symm.trans hhtml')
    refine ⟨html₃.children "children", hkept.children, ?_⟩
    rw [children_markupProgram ((hkept.fields "body" (by decide)).trans hbody)] at hsorted
    rw [hfinished.instanceScript, hfinished.moduleScript, Node.children, hget]
    exact perm_of_sortDisjoint hsorted
  · rw [hfinished.instanceScript, ← hinstance]
    refine optionRel_imp (fun s s' h => ?_) (hpassed "instance" (by simp [sectionKeys]))
    obtain ⟨_, _, h⟩ := h
    exact h.sameScript (.inl rfl)
  · rw [hfinished.moduleScript, ← hmodule]
    refine optionRel_imp (fun s s' h => ?_) (hpassed "module" (by simp [sectionKeys]))
    obtain ⟨_, _, h⟩ := h
    exact h.sameScript (.inr rfl)

def wordParser : ScriptParser where
  expressionAt source start stop _ := do
    let text ← sliceAt source start stop
    let token : Token := { kind := .identifier, value := String.ofList text, start, stop }
    return { expression := identifierNode token.value start stop, streams := ⟨[token], []⟩ }
  programAt source start stop := do
    let text ← sliceAt source start stop
    let token : Token := { kind := .identifier, value := String.ofList text, start, stop }
    let statement : Node :=
      { kind := "ExpressionStatement", start, stop,
        fields := [("expression", .node (identifierNode token.value start stop))] }
    return { program := { kind := "Program", start, stop, fields := [("body", .nodes [statement])] },
             streams := ⟨[token], []⟩ }

theorem faithful_of_sliceAt {text start stop} (h : sliceAt source start stop = .ok text) :
    Streams.Faithful source
      ⟨[{ kind := .identifier, value := String.ofList text, start, stop }], []⟩ := by
  intro t ht
  rw [List.mem_singleton.mp ht, Token.Faithful, String.toList_ofList]
  unfold sliceAt at h
  split at h
  · cases h
    assumption
  · cases h

theorem wordParser_faithful (source : List Char) : wordParser.Faithful source where
  expression start stop assignable parsed h := by
    obtain ⟨text, htext, h⟩ := bind_eq_ok.mp h
    cases h
    exact faithful_of_sliceAt htext
  program start stop parsed h := by
    obtain ⟨text, htext, h⟩ := bind_eq_ok.mp h
    cases h
    exact faithful_of_sliceAt htext

/-- An element with a directive and an expression, a script, a comment and text. -/
theorem convert_laid_composed_word :
    let source := "<b use:c>{d}</b><script>e</script><!--f--> g".toList
    ∃ parsed converted, Markup.parse wordParser source = .ok parsed ∧
      convert wordParser {} (LineIndex.ofText source) source parsed.template = .ok converted ∧
      Laid source converted.ast ∧ Composed wordParser source parsed.template converted ∧
      converted.ast.streams.tokens.map (·.value) =
        ["<", "b", "use", ":", "c", ">", "\x7b", "d", "\x7d", "</", "b", ">", "e", " g"] ∧
      (converted.ast.program.children "body").map (·.kind) =
        ["Element", "ExpressionStatement", "Comment", "Text"] := by
  intro source
  have hrun : ((Markup.parse wordParser source).toOption.bind fun parsed =>
      (convert wordParser {} (LineIndex.ofText source) source parsed.template).toOption.map
        fun converted => (parsed.template.html.kind, (parsed.template.html.get? "body").isNone,
          converted.ast.streams.tokens.map (·.value),
          (converted.ast.program.children "body").map (·.kind))) =
      some ("Fragment", true,
        ["<", "b", "use", ":", "c", ">", "\x7b", "d", "\x7d", "</", "b", ">", "e", " g"],
        ["Element", "ExpressionStatement", "Comment", "Text"]) := by
    simp only [convert, normalizeTree_eq, leaveNode, finishRoot, locatedTokens, locatedComments,
      sortDisjoint_eq_insertionSort]
    decide +kernel
  obtain ⟨parsed, hparsed, hrun⟩ := Option.bind_eq_some_iff.mp hrun
  obtain ⟨converted, hconverted, hrun⟩ := Option.map_eq_some_iff.mp hrun
  rw [toOption_eq_some] at hparsed hconverted
  obtain ⟨hkind, hbody, htokens, hstatements⟩ : _ ∧ _ ∧ _ ∧ _ := by simpa using hrun
  obtain ⟨hlaid, hcomposed⟩ :=
    convert_laid_composed (wordParser_faithful source) hkind hbody hconverted
  exact ⟨parsed, converted, hparsed, hconverted, hlaid, hcomposed, htokens, hstatements⟩

end SvelteSyntax.Program
