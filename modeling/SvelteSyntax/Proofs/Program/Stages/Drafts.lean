import SvelteSyntax.Proofs.Markup.Spans
import SvelteSyntax.Proofs.Program.Stages.Parsing

namespace SvelteSyntax

open Text Markup Script

variable {v : Value} {c : Node} {kind parent key : String} {start : Nat}
  {attributes : List Node} {topLevel assignable closed : Bool} {ending : Ending}

namespace Program

/-- What may stand in a field of a draft, with drafts inside. -/
structure Grown (kind key : String) (v : Value) : Prop where
  fits : Fits .drafted kind key v
  staged : ∀ c, v.Holds c → Staged .drafted c

/-- A draft that stands in a list. -/
structure Draft (n : Node) : Prop where
  staged : Staged .drafted n
  kind : n.kind ∈ markupKinds
  inner : n.kind ∉ loneKinds

section Fields

variable {kind key : String} {n : Node}

theorem Grown.bare (hkey : (kind, key) ∉ declaredFields) (h : ∀ c, ¬v.Holds c) :
    Grown kind key v :=
  ⟨.bare hkey h, fun c hc => absurd hc (h c)⟩

theorem Grown.leaf (hkey : (kind, key) ∈ scriptFields) (h : Leaf .drafted kind key c) :
    Grown kind key (.node c) := by
  refine ⟨.script hkey h, fun d hd => ?_⟩
  rw [Value.holds_node] at hd
  cases h with
  | pending hs _ h => exact hd ▸ .pending hs h
  | scripted h => exact hd ▸ .scripted h

theorem Leaf.pending_drafted (hslot : (slot? ⟨kind, key⟩).isSome) (h : Pending c) :
    Leaf .drafted kind key c :=
  .pending (by decide) hslot h

theorem Leaf.move {kind' key'} (h : Leaf .drafted kind key c) (hslot : (slot? ⟨kind', key'⟩).isSome) :
    Leaf .drafted kind' key' c := by
  cases h with
  | pending _ _ h => exact .pending_drafted hslot h
  | scripted h => exact .scripted h

theorem Grown.children {cs} (hkey : isWalked kind key) (hother : (kind, key) ∉ declaredFields)
    (h : ∀ c ∈ cs, Draft c) : Grown kind key (.nodes cs) := by
  refine ⟨.children hkey hother fun c hc => ⟨(h c hc).kind, (h c hc).inner⟩, fun c hc => ?_⟩
  rw [Value.holds_nodes] at hc
  exact (h c hc).staged

theorem Grown.child (hkey : (kind, key, c.kind) ∈ branchFields) (h : Staged .drafted c) :
    Grown kind key (.node c) := by
  refine ⟨.child hkey, fun d hd => ?_⟩
  rw [Value.holds_node] at hd
  exact hd ▸ h

theorem Grown.name {name} (hkey : (kind, key) ∈ declaredFields) :
    Grown kind key (.string name) :=
  ⟨.name rfl hkey, fun c hc => absurd hc (by simp)⟩

/-- The fields of a draft. -/
abbrev GrownFields (kind : String) : List (String × Value) → Prop := Fields.All (Grown kind)

variable {start stop : Nat} {fields : List (String × Value)}

theorem staged_of_declares (hkind : kind ∈ markupKinds ∧ kind ≠ "TemplateRoot")
    (hnames : (Fields.names fields).Nodup) (h : GrownFields kind fields)
    (hdeclares : Declares .drafted { kind, start, stop, fields }) :
    Staged .drafted { kind, start, stop, fields } := by
  refine .markup
    { placeholder := rfl
      kind := hkind.1
      inner := hkind.2
      names := hnames
      fields := fun key v hv => (h _ (Fields.mem_of_get? hv)).fits
      present := fun hs => absurd rfl hs
      bound := fun hs => absurd rfl hs
      declares := hdeclares } fun c hc => ?_
  obtain ⟨key, v, hmem, hv⟩ := hc
  exact (h _ hmem).staged c hv

theorem draft_of_declares (hkind : kind ∈ markupKinds ∧ kind ≠ "TemplateRoot")
    (hinner : kind ∉ loneKinds) (hnames : (Fields.names fields).Nodup) (h : GrownFields kind fields)
    (hdeclares : Declares .drafted { kind, start, stop, fields }) :
    Draft { kind, start, stop, fields } :=
  ⟨staged_of_declares hkind hnames h hdeclares, hkind.1, hinner⟩

/-- The kinds of nodes that need declare nothing. -/
abbrev Undeclaring (kind : String) : Prop :=
  (kind ∈ markupKinds ∧ kind ≠ "TemplateRoot") ∧ kind ∉ declaringKinds

theorem staged_of_grown (hkind : Undeclaring kind) (hnames : (Fields.names fields).Nodup)
    (h : GrownFields kind fields) : Staged .drafted { kind, start, stop, fields } :=
  staged_of_declares hkind.1 hnames h (.of_other hkind.2)

theorem draft_of_grown (hkind : Undeclaring kind) (hinner : kind ∉ loneKinds)
    (hnames : (Fields.names fields).Nodup) (h : GrownFields kind fields) :
    Draft { kind, start, stop, fields } :=
  draft_of_declares hkind.1 hinner hnames h (.of_other hkind.2)

theorem Draft.withStop (h : Draft n) (stop : Nat) : Draft { n with stop } := by
  obtain ⟨hformed, hchildren⟩ := h.staged.formed h.kind
  exact ⟨.markup (hformed.congr rfl rfl rfl) hchildren, h.kind, h.inner⟩

/-- The nodes in a list of a draft are drafts, unless they are scripts. -/
theorem Draft.listed (h : Draft n) (hkey : (n.kind, key) ∉ scriptFields) (hc : c ∈ n.children key) :
    Draft c := by
  obtain ⟨hformed, hchildren⟩ := h.staged.formed h.kind
  unfold Node.children at hc
  split at hc
  · rename_i ns hget
    have hchild := hchildren c (Node.hasChild_of_get? hget (.nodes hc))
    cases hformed.fields key _ hget with
    | bare _ h => exact absurd (.nodes hc) (h c)
    | scripts h => exact absurd h hkey
    | children _ _ h => exact ⟨hchild, (h c hc).1, (h c hc).2⟩
  · cases hc

end Fields

section Rules

variable {i : Input} {p p' q : Progress} {n e : Node} {content : Content}

theorem forall_of_rounds {α : Type} {round : Progress → α → Progress → Prop} {as : List α}
    {motive : α → Prop} (h : Rounds round p as p') (hround : ∀ q a q', round q a q' → motive a) :
    ∀ a ∈ as, motive a := by
  induction h with
  | nil => simp
  | cons h _ ih =>
    rw [List.forall_mem_cons]
    exact ⟨hround _ _ _ h, ih⟩

theorem draft_textNode (start : Nat) (text : List Char) : Draft (textNode start text) :=
  draft_of_grown (by decide) (by decide) (by simp [Fields.names])
    (.cons (.bare (by decide) (by simp)) (.one (.bare (by decide) (by simp))))

theorem draft_comment (h : CommentForm p n p') : Draft n := by
  obtain ⟨-, rfl⟩ := h
  exact draft_of_grown (by decide) (by decide) (by simp [Fields.names])
    (.one (.bare (by decide) (by simp)))

variable (hparser : i.parser.Plain i.source)
include hparser

theorem pending_of_standsFor (h : StandsFor i assignable e) : Pending e := by
  obtain ⟨⟨parsed, hparsed, he⟩, -⟩ := h
  rw [he]
  exact ⟨rfl, rfl, (scripted_iff.mp (hparser.expression _ _ _ _ hparsed)).1.2⟩

theorem grown_script (hkey : (kind, key) ∈ scriptFields) (hslot : (slot? ⟨kind, key⟩).isSome)
    (h : StandsFor i assignable e) :
    Grown kind key (.node e) :=
  .leaf hkey (.pending_drafted hslot (pending_of_standsFor hparser h))

theorem draft_expression {stop : Nat}
    (hkind : kind ∈ ["MustacheTag", "RawMustacheTag", "Spread", "AttributeShorthand"])
    (h : StandsFor i false e) : Draft (expressionNode kind start stop e) := by
  have hkinds : ∀ kind ∈ ["MustacheTag", "RawMustacheTag", "Spread", "AttributeShorthand"],
      Undeclaring kind ∧ kind ∉ loneKinds ∧
        (kind, "expression") ∈ scriptFields ∧ (slot? ⟨kind, "expression"⟩).isSome := by decide
  obtain ⟨hmarkup, hinner, hkey, hslot⟩ := hkinds kind hkind
  exact draft_of_grown hmarkup hinner (by simp [Fields.names])
    (.one (grown_script hparser hkey hslot h))

theorem draft_chunk (h : ChunkForm i p n p') : Draft n := by
  cases h with
  | braces _ he hn =>
    rw [hn]
    exact draft_expression hparser (by decide) he
  | text _ _ hn =>
    rw [hn]
    exact draft_textNode _ _

theorem draft_value {chunks} (h : ValueForm i p chunks p') : ∀ chunk ∈ chunks, Draft chunk := by
  obtain ⟨-, -, hchunks, -⟩ := h
  exact forall_of_rounds hchunks fun _ _ _ => draft_chunk hparser

omit hparser in
theorem leaf_soleExpression {chunks} (hchunks : ∀ chunk ∈ chunks, Draft chunk)
    (h : soleExpression? chunks = some e) : Leaf .drafted "MustacheTag" "expression" e := by
  obtain ⟨chunk, rfl, hkind, hget⟩ := soleExpression?_eq_some h
  obtain ⟨hformed, -⟩ := (hchunks chunk (by simp)).staged.formed (by rw [hkind]; decide)
  rw [← hkind]
  refine hformed.leaf (by rw [hkind]; decide) (fun kind hbranch => ?_) hget
  have hall : ∀ field ∈ branchFields, field.1 ≠ "MustacheTag" := by decide
  exact hall _ hbranch hkind

omit hparser in
theorem draft_plainAttribute (name : List Char) (start stop : Nat) {value}
    (hvalue : ∀ chunks, value = some chunks → ∀ chunk ∈ chunks, Draft chunk) :
    Draft (plainAttribute name start stop value) := by
  refine draft_of_grown (by decide) (by decide) (by simp [Fields.names])
    (.cons (.bare (by decide) (by simp)) (.one ?_))
  cases value with
  | none => exact .bare (by decide) (by simp)
  | some chunks => exact .children (by decide) (by decide) (hvalue chunks rfl)

theorem draft_braceForm (h : BraceForm i p n p') : Draft n := by
  cases h with
  | spread he _ hn =>
    rw [hn]
    exact draft_expression hparser (by decide) he
  | shorthand _ he _ _ _ _ hn =>
    rw [hn]
    refine draft_plainAttribute _ _ _ ?_
    rintro _ ⟨⟩
    rw [List.forall_mem_singleton]
    exact draft_expression hparser (by decide) he

omit hparser in
theorem draft_directiveNode (word rest : List Char) (start stop : Nat) {o}
    (hkind : kind ∈ directiveKinds)
    (ho : ∀ e, o = some e → Leaf .drafted "MustacheTag" "expression" e) :
    Draft (directiveNode kind word rest start stop o) := by
  have hkinds : ∀ kind ∈ directiveKinds, ((kind ∈ markupKinds ∧ kind ≠ "TemplateRoot") ∧
      kind ≠ "EachBlock") ∧ kind ∉ loneKinds ∧ (kind, "expression") ∈ scriptFields ∧
        (slot? ⟨kind, "expression"⟩).isSome ∧
        ∀ key ∈ ["name", "modifiers", "expression", "intro", "outro"], (kind, key) ∉ declaredFields := by
    decide
  obtain ⟨⟨hmarkup, heach⟩, hinner, hkey, hslot, hdeclared⟩ := hkinds kind hkind
  have hexpression : Grown kind "expression" (.ofOption o) := by
    cases o with
    | none => exact .bare (hdeclared _ (by decide)) (by simp)
    | some e => exact .leaf hkey ((ho e rfl).move hslot)
  have hfields : GrownFields kind
      [("name", .string (String.ofList (directiveName rest))),
        ("modifiers", .strings ((splitOn '|' rest).tail.map String.ofList)),
        ("expression", .ofOption o)] :=
    .cons (.bare (hdeclared _ (by decide)) (by simp))
      (.cons (.bare (hdeclared _ (by decide)) (by simp)) (.one hexpression))
  unfold directiveNode
  split
  · refine draft_of_declares hmarkup hinner (by simp [Node.set, Fields.set, Fields.names]) ?_
      ⟨fun he => absurd he heach, fun _ => ?_⟩
    · simp only [Node.set, Fields.set]
      exact hfields.append (.cons (.bare (hdeclared _ (by decide)) (by simp))
        (.one (.bare (hdeclared _ (by decide)) (by simp))))
    · cases o with
      | none => exact .inr ⟨rfl, rfl, _, rfl⟩
      | some e => exact .inl ⟨"expression", by simp, e, rfl⟩
  · refine draft_of_declares hmarkup hinner (by simp [Fields.names]) hfields
      ⟨fun he => absurd he heach, fun _ => ?_⟩
    cases o with
    | none => exact .inr ⟨rfl, rfl, _, rfl⟩
    | some e => exact .inl ⟨"expression", by simp, e, rfl⟩

theorem draft_optionalValue {value} (h : OptionalValue i p value p') :
    ∀ chunks, value = some chunks → ∀ chunk ∈ chunks, Draft chunk := by
  intro chunks hchunks
  cases h with
  | absent => cases hchunks
  | present _ h =>
    cases hchunks
    exact draft_value hparser h

theorem draft_namedAttribute (h : NamedAttribute i p n p') : Draft n := by
  obtain ⟨-, -, hvalue, -, hform⟩ := h
  have hchunks := draft_optionalValue hparser hvalue
  cases hform with
  | plain hn =>
    rw [hn]
    exact draft_plainAttribute _ _ _ hchunks
  | directive kind word rest o _ hkind ho hn =>
    rw [hn]
    refine draft_directiveNode _ _ _ _ (directiveKind?_mem hkind) fun e he => ?_
    cases ho with
    | value hsole =>
      cases he
      exact leaf_soleExpression (hchunks _ rfl) hsole
    | own _ _ hparsed =>
      cases he
      exact .pending_drafted (by decide)
        ⟨rfl, rfl, (scripted_iff.mp (hparser.expression _ _ _ _ hparsed)).1.2⟩
    | absent => cases he

theorem draft_openTag (h : OpenTag i p attributes closed p') :
    ∀ a ∈ attributes, Draft a := by
  obtain ⟨hrounds, -⟩ := h
  refine forall_of_rounds hrounds fun q a q' ⟨_, h⟩ => ?_
  cases h with
  | braces h => exact draft_braceForm hparser h
  | named h => exact draft_namedAttribute hparser h

structure ScriptDraft (n : Node) : Prop where
  kind : n.kind = "Script"
  staged : Staged .drafted n
  content : ∀ c, n.child? "content" = some c → c.placeholder = true

structure AsideDrafted (p : Progress) : Prop where
  css : ∀ n, p.css = some n → n.kind = "Style" ∧ Staged .drafted n
  instanceScript : ∀ n, p.instanceScript = some n → ScriptDraft n
  moduleScript : ∀ n, p.moduleScript = some n → ScriptDraft n

omit hparser in
theorem AsideDrafted.congr (h : AsideDrafted p) (haside : p'.aside = p.aside) : AsideDrafted p' := by
  simp only [Progress.aside, Prod.mk.injEq] at haside
  obtain ⟨hcss, hinstance, hmodule⟩ := haside
  exact ⟨hcss ▸ h.css, hinstance ▸ h.instanceScript, hmodule ▸ h.moduleScript⟩

def DraftsContent (i : Input) (content : Content) : Prop :=
  ∀ kind q children ending r, AsideDrafted q → Gives (content kind) i q (children, ending) r →
    AsideDrafted r ∧ ∀ c ∈ children, Draft c

def elementKinds : List String :=
  ["Head", "Options", "Window", "Body", "InlineComponent", "Slot", "Title", "Element"]

omit hparser in
theorem elementKind_mem (name parent : String) : elementKind name parent ∈ elementKinds := by
  unfold elementKind
  split
  case h_8 =>
    split
    · decide
    · split <;> decide
  all_goals decide

omit hparser in
theorem PlainAttributes.drafts {name plain this} (h : PlainAttributes name attributes this plain)
    (hattributes : ∀ a ∈ attributes, Draft a) :
    (∀ a ∈ plain, Draft a) ∧
      ∀ e, this = some e → name = "svelte:component" ∧ Leaf .drafted "MustacheTag" "expression" e := by
  cases h with
  | all => exact ⟨hattributes, nofun⟩
  | @without e hname hthis =>
    refine ⟨fun a ha => hattributes a (List.eraseP_sublist.subset ha), ?_⟩
    rintro _ ⟨⟩
    obtain ⟨a, hfind, hsole⟩ := Option.bind_eq_some_iff.mp hthis
    have ha := hattributes a (List.mem_of_find?_eq_some hfind)
    have hkind : a.kind = "Attribute" := by
      have hfound := List.find?_some hfind
      simp only [Node.is, Bool.and_eq_true, beq_iff_eq] at hfound
      exact hfound.1
    exact ⟨hname, leaf_soleExpression (fun chunk hchunk => ha.listed (by rw [hkind]; decide) hchunk) hsole⟩

omit hparser in
theorem drafts_elementBody (hcontent : DraftsContent i content) (hp : AsideDrafted p)
    {name children} (h : ElementBody i content kind name closed p children p') :
    AsideDrafted p' ∧ ∀ c ∈ children, Draft c := by
  cases h with
  | empty => exact ⟨hp, by simp⟩
  | raw _ _ hclose =>
    refine ⟨hp.congr hclose.aside, ?_⟩
    split
    · simp
    · rw [List.forall_mem_singleton]
      exact draft_textNode _ _
  | content _ hchildren hclose =>
    obtain ⟨haside, hdrafts⟩ := hcontent _ _ _ _ _ hp hchildren
    exact ⟨haside.congr hclose.aside, hdrafts⟩

theorem draft_element (hcontent : DraftsContent i content) (hp : AsideDrafted p) {name}
    (h : ElementForm i content parent name start p n p') :
    AsideDrafted p' ∧ Draft n := by
  obtain @⟨attributes, plain, children, this, closed, q, hopening, hplain, hbody, rfl⟩ := h
  obtain ⟨hattributes, hthis⟩ := PlainAttributes.drafts hplain (draft_openTag hparser hopening)
  obtain ⟨haside, hchildren⟩ :=
    drafts_elementBody hcontent (hp.congr hopening.aside) hbody
  have hkinds : ∀ kind ∈ elementKinds, Undeclaring kind ∧
      kind ∉ loneKinds ∧ (∀ key ∈ ["name", "attributes", "children"], (kind, key) ∉ declaredFields) ∧
        ∀ key ∈ ["attributes", "children"], isWalked kind key := by decide
  obtain ⟨hmarkup, hinner, hdeclared, hwalked⟩ := hkinds _ (elementKind_mem name parent)
  have hlists : GrownFields (elementKind name parent)
      [("attributes", .nodes plain), ("children", .nodes children)] :=
    .cons (.children (hwalked _ (by decide)) (hdeclared _ (by decide)) hattributes)
      (.one (.children (hwalked _ (by decide)) (hdeclared _ (by decide)) hchildren))
  refine ⟨haside, draft_of_grown hmarkup hinner (by cases this <;> simp [Fields.names]) ?_⟩
  refine .cons (.bare (hdeclared _ (by decide)) (by simp)) (.append ?_ hlists)
  cases this with
  | none => exact .nil
  | some e =>
    obtain ⟨rfl, hleaf⟩ := hthis e rfl
    have hkind : elementKind "svelte:component" parent = "InlineComponent" := rfl
    rw [hkind]
    exact .one (.leaf (by decide) (hleaf.move (by decide)))

omit hparser in
theorem drafted_styleNode (start stop contentStart : Nat) (text : List Char)
    (h : ∀ a ∈ attributes, Draft a) :
    Staged .drafted (styleNode start stop contentStart attributes text) :=
  staged_of_grown (by decide) (by simp [Fields.names])
    (.cons (.children (by decide) (by decide) h) (.one (.bare (by decide) (by simp))))

omit hparser in
theorem scriptDraft_scriptNode (start stop contentStart : Nat) (text : List Char)
    (h : ∀ a ∈ attributes, Draft a) :
    ScriptDraft (scriptNode start stop contentStart attributes text) := by
  have hprogram : ∀ start stop, Pending (.pending "Program" start stop) := fun start stop =>
    ⟨rfl, rfl, show "Program" ∉ markupKinds by decide⟩
  refine ⟨rfl, staged_of_grown (by decide) (by simp [Fields.names]) ?_, fun c hc => ?_⟩
  · exact .cons (.bare (by decide) (by simp)) (.cons (.children (by decide) (by decide) h)
      (.one (.leaf (by decide) (.pending_drafted (by decide) (hprogram ..)))))
  · cases hc
    rfl

theorem drafted_topLevel (hp : AsideDrafted p) {name} (h : TopLevelForm i name start p p') :
    AsideDrafted p' := by
  obtain ⟨hopening, hbody, haside⟩ := h
  have hattributes := draft_openTag hparser hopening
  have hp := (hp.congr hopening.aside).congr hbody.aside
  cases haside with
  | style =>
    refine ⟨fun n hn => ?_, hp.instanceScript, hp.moduleScript⟩
    cases hn
    exact ⟨rfl, drafted_styleNode _ _ _ _ hattributes⟩
  | moduleScript =>
    refine ⟨hp.css, hp.instanceScript, fun n hn => ?_⟩
    cases hn
    exact scriptDraft_scriptNode _ _ _ _ hattributes
  | instanceScript =>
    refine ⟨hp.css, fun n hn => ?_, hp.moduleScript⟩
    cases hn
    exact scriptDraft_scriptNode _ _ _ _ hattributes

theorem drafts_tag (hcontent : DraftsContent i content) (hp : AsideDrafted p) {node}
    (h : TagForm i content topLevel parent p node p') :
    AsideDrafted p' ∧ ∀ c ∈ node.toList, Draft c := by
  cases h with
  | aside _ _ hstart h => exact ⟨drafted_topLevel hparser (hp.congr hstart.aside) h, by simp⟩
  | element hstart h =>
    rw [Option.toList_some, List.forall_mem_singleton]
    exact draft_element hparser hcontent (hp.congr hstart.aside) h

omit hparser in
theorem draft_elseNode (start stop : Nat) {children} (h : ∀ c ∈ children, Draft c) :
    Draft (elseNode start stop children) :=
  draft_of_grown (by decide) (by decide) (by simp [Fields.names])
    (.one (.children (by decide) (by decide) h))

omit hparser in
theorem draft_else (hcontent : DraftsContent i content) (hp : AsideDrafted p) {branch}
    (h : ElseForm i content branch p n ending p') :
    AsideDrafted p' ∧ Draft n ∧ n.kind = "ElseBlock" := by
  obtain ⟨hopen, hchildren, rfl⟩ := h
  obtain ⟨haside, hdrafts⟩ := hcontent _ _ _ _ _ (hp.congr hopen.aside) hchildren
  exact ⟨haside, draft_elseNode _ _ hdrafts, rfl⟩

omit hparser in
theorem draft_ifNode (start stop : Nat) {condition} (nested : Bool) {children other}
    (hcondition : Pending condition) (hchildren : ∀ c ∈ children, Draft c)
    (hother : ∀ e, other = some e → Draft e ∧ e.kind = "ElseBlock") :
    Draft (ifNode start stop condition nested children other) := by
  refine draft_of_grown (by decide) (by decide) ?_ (.append (.append ?_ ?_) ?_)
  · cases nested <;> cases other <;> simp [Fields.names]
  · exact .cons (.leaf (by decide) (.pending_drafted (by decide) hcondition))
      (.one (.children (by decide) (by decide) hchildren))
  · split
    · exact .one (.bare (by decide) (by simp))
    · exact .nil
  · cases other with
    | none => exact .nil
    | some e =>
      obtain ⟨hdraft, hkind⟩ := hother e rfl
      exact .one (.child (by rw [hkind]; decide) hdraft.staged)

theorem draft_ifChain (hcontent : DraftsContent i content) {condition nested}
    (h : IfChain i content start condition nested p n p') (hp : AsideDrafted p)
    (hcondition : Pending condition) : AsideDrafted p' ∧ Draft n := by
  induction h with
  | last h =>
    obtain ⟨haside, hchildren⟩ := hcontent _ _ _ _ _ hp h
    exact ⟨haside, draft_ifNode _ _ _ hcondition hchildren nofun⟩
  | other h hother =>
    obtain ⟨haside, hchildren⟩ := hcontent _ _ _ _ _ hp h
    obtain ⟨haside, hdraft⟩ := draft_else hcontent haside hother
    refine ⟨haside, draft_ifNode _ _ _ hcondition hchildren fun e he => ?_⟩
    cases he
    exact hdraft
  | link h hopen hinner he _ ih =>
    obtain ⟨haside, hchildren⟩ := hcontent _ _ _ _ _ hp h
    obtain ⟨haside, hlink⟩ := ih ((haside.congr hopen.aside).congr hinner.aside)
      (pending_of_standsFor hparser he)
    refine ⟨haside, draft_ifNode _ _ _ hcondition hchildren fun e he => ?_⟩
    cases he
    exact ⟨draft_elseNode _ _ (by simpa using hlink), rfl⟩

theorem grown_key {key : List (String × Value)} (h : KeyForm i key) :
    (key = [] ∨ ∃ v, key = [("key", v)]) ∧ GrownFields "EachBlock" key := by
  cases h with
  | absent => exact ⟨.inl rfl, .nil⟩
  | grouped he => exact ⟨.inr ⟨_, rfl⟩, .one (grown_script hparser (by decide) (by decide) he)⟩
  | named => exact ⟨.inr ⟨_, rfl⟩, .one (.name (by decide))⟩

omit hparser in
theorem grown_eachOther (hcontent : DraftsContent i content) (hp : AsideDrafted p) {other}
    (h : EachOther i content p ending other p') :
    AsideDrafted p' ∧ (other = [] ∨ ∃ v, other = [("else", v)]) ∧ GrownFields "EachBlock" other := by
  cases h with
  | absent => exact ⟨hp, .inl rfl, .nil⟩
  | present hother =>
    obtain ⟨haside, hdraft, hkind⟩ := draft_else hcontent hp hother
    exact ⟨haside, .inr ⟨_, rfl⟩, .one (.child (by rw [hkind]; decide) hdraft.staged)⟩

theorem draft_each (hcontent : DraftsContent i content) (hp : AsideDrafted p)
    (h : EachForm i content start p n p') : AsideDrafted p' ∧ Draft n := by
  obtain @⟨_, _, index, _, _, _, _, _, _, _, hhead, hlist, hcontext, hindex, hkey, hchildren, hother, hend,
    rfl⟩ := h
  obtain ⟨hp, hdrafts⟩ := hcontent _ _ _ _ _ (hp.congr hhead.aside) hchildren
  obtain ⟨hp, hnames₃, hother⟩ := grown_eachOther hcontent hp hother
  obtain ⟨hnames₂, hkey⟩ := grown_key hparser hkey
  have hindex' : GrownFields "EachBlock" index := by
    rcases hindex with rfl | ⟨_, rfl⟩
    · exact .nil
    · exact .one (.name (by decide))
  have hhead : GrownFields "EachBlock" [("expression", .node _), ("context", .node _)] :=
    .cons (grown_script hparser (by decide) (by decide) hlist)
      (.one (grown_script hparser (by decide) (by decide) hcontext))
  refine ⟨hp.congr hend.aside, draft_of_declares (by decide) (by decide) ?_
    (.append (.append (.append (.append hhead hindex') hkey)
      (.one (.children (by decide) (by decide) hdrafts))) hother)
    ⟨fun _ => ⟨_, rfl⟩, fun he => absurd he (by simp)⟩⟩
  rcases hindex with rfl | ⟨_, rfl⟩ <;> rcases hnames₂ with rfl | ⟨_, rfl⟩ <;>
    rcases hnames₃ with rfl | ⟨_, rfl⟩ <;> simp [Fields.names]

theorem grown_boundValue (hkey : ("AwaitBlock", key) ∈ awaitBindings) 
    (h : BoundValue i v) : Grown "AwaitBlock" key v := by
  cases h with
  | none => exact ⟨.unboundYet rfl hkey, by simp⟩
  | name => exact .name (mem_declaredFields_of_awaitBindings hkey)
  | pattern he =>
    have hpending := pending_of_standsFor hparser he
    refine ⟨.pattern rfl hkey hpending, fun c hc => ?_⟩
    rw [Value.holds_node] at hc
    exact hc ▸ .pending (by decide) hpending

omit hparser in
theorem drafted_section (s : Section) (start stop : Nat) {children} (skip : Bool)
    (h : ∀ c ∈ children, Draft c) :
    Staged .drafted { kind := s.kind, start, stop,
                      fields := [("children", .nodes children), ("skip", .bool skip)] } := by
  cases s <;>
    exact staged_of_grown (by decide) (by simp [Fields.names])
      (.cons (.children (by decide) (by decide) h) (.one (.bare (by decide) (by simp))))

structure SectionsDrafted (sections : Sections) : Prop where
  pending : Staged .drafted sections.pending ∧ sections.pending.kind = "PendingBlock"
  fulfilled : Staged .drafted sections.fulfilled ∧ sections.fulfilled.kind = "ThenBlock"
  rejected : Staged .drafted sections.rejected ∧ sections.rejected.kind = "CatchBlock"
  value : Grown "AwaitBlock" "value" sections.value
  error : Grown "AwaitBlock" "error" sections.error

omit hparser in
theorem SectionsDrafted.none (start : Nat) (hv : Grown "AwaitBlock" "value" v) :
    SectionsDrafted { Sections.none start with value := v } where
  pending := ⟨drafted_section .pending _ _ true (by simp), rfl⟩
  fulfilled := ⟨drafted_section .fulfilled _ _ true (by simp), rfl⟩
  rejected := ⟨drafted_section .rejected _ _ true (by simp), rfl⟩
  value := hv
  error := ⟨.unboundYet rfl (by decide), fun c hc => nomatch hc⟩

omit hparser in
theorem SectionsDrafted.set {sections} (h : SectionsDrafted sections) (s : Section)
    (start stop : Nat) {children} (hchildren : ∀ c ∈ children, Draft c) :
    SectionsDrafted (sections.set s (sectionNode s start stop children)) := by
  have hsection := drafted_section s start stop false hchildren
  cases s with
  | pending => exact ⟨⟨hsection, rfl⟩, h.fulfilled, h.rejected, h.value, h.error⟩
  | fulfilled => exact ⟨h.pending, ⟨hsection, rfl⟩, h.rejected, h.value, h.error⟩
  | rejected => exact ⟨h.pending, h.fulfilled, ⟨hsection, rfl⟩, h.value, h.error⟩

theorem drafted_awaitRest (hcontent : DraftsContent i content) {current sections sections'}
    (h : AwaitRest i content current sections p ending sections' p') (hp : AsideDrafted p)
    (hsections : SectionsDrafted sections) :
    AsideDrafted p' ∧ SectionsDrafted sections' := by
  induction h with
  | close h => exact ⟨hp.congr h.aside, hsections⟩
  | fulfilled hopen hvalue hchildren _ ih =>
    obtain ⟨hp, hdrafts⟩ := hcontent _ _ _ _ _ (hp.congr hopen.aside) hchildren
    exact ih hp ⟨hsections.pending, ⟨drafted_section .fulfilled _ _ false hdrafts, rfl⟩,
      hsections.rejected, grown_boundValue hparser (by decide) hvalue, hsections.error⟩
  | rejected _ hopen herror hchildren _ ih =>
    obtain ⟨hp, hdrafts⟩ := hcontent _ _ _ _ _ (hp.congr hopen.aside) hchildren
    exact ih hp ⟨hsections.pending, hsections.fulfilled,
      ⟨drafted_section .rejected _ _ false hdrafts, rfl⟩, hsections.value,
      grown_boundValue hparser (by decide) herror⟩

theorem drafted_awaitHead (hp : AsideDrafted p) {first} (h : AwaitHead i p e v first p') :
    AsideDrafted p' ∧ Grown "AwaitBlock" "value" v := by
  cases h with
  | plain h hv =>
    rw [hv]
    exact ⟨hp.congr h.aside, ⟨.unboundYet rfl (by decide), by simp⟩⟩
  | compact h hv => exact ⟨hp.congr h.aside, grown_boundValue hparser (by decide) hv⟩

theorem draft_await (hcontent : DraftsContent i content) (hp : AsideDrafted p)
    (h : AwaitForm i content start p n p') : AsideDrafted p' ∧ Draft n := by
  obtain ⟨hhead, he, hchildren, hrest, rfl⟩ := h
  obtain ⟨hp, hvalue⟩ := drafted_awaitHead hparser hp hhead
  obtain ⟨hp, hdrafts⟩ := hcontent _ _ _ _ _ hp hchildren
  obtain ⟨hp, hsections⟩ := drafted_awaitRest hparser hcontent hrest hp
    ((SectionsDrafted.none start hvalue).set _ _ _ hdrafts)
  refine ⟨hp, draft_of_grown (by decide) (by decide) (by simp [Fields.names])
    (.cons (grown_script hparser (by decide) (by decide) he) (.cons hsections.value
      (.cons hsections.error (.cons (.child ?_ hsections.pending.1)
        (.cons (.child ?_ hsections.fulfilled.1) (.one (.child ?_ hsections.rejected.1)))))))⟩
  · rw [hsections.pending.2]
    decide
  · rw [hsections.fulfilled.2]
    decide
  · rw [hsections.rejected.2]
    decide

theorem draft_debugNode (start stop : Nat) {es} (h : ∀ e ∈ es, StandsFor i false e) :
    Draft (debugNode start stop es) := by
  have hpending (e : Node) (he : e ∈ es) : Pending e := pending_of_standsFor hparser (h e he)
  refine draft_of_grown (by decide) (by decide) (by simp [Fields.names])
    (.one ⟨.scripts (by decide) (by decide) fun e he => .pending_drafted (by decide) (hpending e he),
      fun c hc => ?_⟩)
  rw [Value.holds_nodes] at hc
  exact .pending (by decide) (hpending c hc)

theorem draft_debug (h : DebugForm i start p n p') : p'.aside = p.aside ∧ Draft n := by
  cases h with
  | all _ h hn => exact ⟨h.aside, hn ▸ draft_debugNode hparser _ _ (by simp)⟩
  | names _ hes h hn => exact ⟨h.aside, hn ▸ draft_debugNode hparser _ _ hes⟩

theorem draft_mustache (hcontent : DraftsContent i content) (hp : AsideDrafted p)
    (h : MustacheForm i content p n p') : AsideDrafted p' ∧ Draft n := by
  cases h with
  | ifBlock hopen he hchain hend hn =>
    obtain ⟨haside, hdraft⟩ := draft_ifChain hparser hcontent hchain (hp.congr hopen.aside)
      (pending_of_standsFor hparser he)
    rw [hn]
    exact ⟨haside.congr hend.aside, hdraft.withStop _⟩
  | each hopen h => exact draft_each hparser hcontent (hp.congr hopen.aside) h
  | await hopen h => exact draft_await hparser hcontent (hp.congr hopen.aside) h
  | raw h he hn =>
    rw [hn]
    exact ⟨hp.congr h.aside, draft_expression hparser (by decide) he⟩
  | debug hopen h =>
    obtain ⟨haside, hdraft⟩ := draft_debug hparser h
    exact ⟨(hp.congr hopen.aside).congr haside, hdraft⟩
  | plain h => exact ⟨hp.congr h.aside, draft_chunk hparser h⟩

theorem drafts_node (hcontent : DraftsContent i content) (hp : AsideDrafted p) {node}
    (h : NodeForm i content topLevel parent p node p') :
    AsideDrafted p' ∧ ∀ c ∈ node.toList, Draft c := by
  cases h with
  | comment h =>
    rw [Option.toList_some, List.forall_mem_singleton]
    refine ⟨?_, draft_comment h⟩
    obtain ⟨h, -⟩ := h
    exact hp.congr h.aside
  | tag h => exact drafts_tag hparser hcontent hp h
  | mustache h =>
    rw [Option.toList_some, List.forall_mem_singleton]
    exact draft_mustache hparser hcontent hp h
  | text h =>
    rw [Option.toList_some, List.forall_mem_singleton]
    exact ⟨hp.congr h.aside, draft_textNode _ _⟩

/-- All siblings are drafts, and so are the sections among them. -/
theorem drafts_siblings {fuel nodes} (hp : AsideDrafted p)
    (h : Gives (siblings fuel topLevel parent) i p (nodes, ending) p') :
    AsideDrafted p' ∧ ∀ c ∈ nodes, Draft c := by
  induction fuel generalizing topLevel parent p nodes ending p' with
  | zero => exact absurd h not_gives_exhausted
  | succ fuel ih =>
    obtain ⟨-, rfl, rfl⟩ | ⟨node, rest, q, hnode, hrest, rfl⟩ := gives_siblings h
    · exact ⟨hp, by simp⟩
    have hcontent : DraftsContent i (siblings fuel false) := fun _ _ _ _ _ hq hchildren =>
      ih hq hchildren
    obtain ⟨hq, hfirst⟩ := drafts_node hparser hcontent hp hnode
    obtain ⟨hp', hmore⟩ := ih hq hrest
    exact ⟨hp', List.forall_mem_append.mpr ⟨hfirst, hmore⟩⟩

end Rules

structure TemplateDrafted (t : Template) : Prop where
  html : ∃ children, t.html = fragmentNode children ∧ ∀ c ∈ children, Draft c
  css : ∀ n, t.css = some n → n.kind = "Style" ∧ Staged .drafted n
  instanceScript : ∀ n, t.instanceScript = some n → ScriptDraft n
  moduleScript : ∀ n, t.moduleScript = some n → ScriptDraft n

theorem templateDrafted_of_parse {parser source parsed} (hparser : parser.Plain source)
    (h : parse parser source = .ok parsed) :
    TemplateDrafted parsed.template := by
  obtain ⟨p, hfragment, htemplate⟩ := gives_of_parse h
  obtain ⟨children, hhtml, hsiblings⟩ := gives_fragment hfragment
  have hempty : AsideDrafted { cursor := .ofText source } := ⟨nofun, nofun, nofun⟩
  have hplain : (Input.mk source parser).parser.Plain (Input.mk source parser).source := hparser
  obtain ⟨haside, hdrafts⟩ := drafts_siblings hplain hempty hsiblings
  rw [htemplate]
  exact ⟨⟨children, hhtml, hdrafts⟩, haside.css, haside.instanceScript, haside.moduleScript⟩

end Program

end SvelteSyntax
