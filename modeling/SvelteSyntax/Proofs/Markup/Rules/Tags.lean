import SvelteSyntax.Proofs.Markup.Rules

namespace SvelteSyntax.Markup

open Text Script

variable {i : Input} {p p' : Progress} {n : Node} {u : Unit} {start : Nat} {kind name parent : String}
  {value : Option (List Node)} {closed : Bool} {content : Content} {rest : List Char}

def directiveKinds : List String :=
  ["EventHandler", "Binding", "Class", "Action", "Transition", "Animation", "Let"]

theorem directiveKind?_mem {word} (h : directiveKind? word = some kind) :
    kind ∈ directiveKinds := by
  unfold directiveKind? at h
  split at h
  all_goals cases h <;> decide

inductive DirectiveExpression (i : Input) (kind : String) (name : List Char) (nameSpan : Span)
    (stop : Nat) : Option (List Node) → Option Node → Prop
  | value {chunks : List Node} {e : Node} (h : soleExpression? chunks = some e) :
      DirectiveExpression i kind name nameSpan stop (some chunks) (some e)
  | own {parsed : ParsedExpression} (hkind : kind = "Binding" ∨ kind = "Class") (hname : name ≠ [])
      (hparsed : i.parser.expressionAt i.source nameSpan.start nameSpan.stop false = .ok parsed) :
      DirectiveExpression i kind name nameSpan stop none
        (some (.pending parsed.expression.kind nameSpan.start stop))
  | absent (h : name = [] ∨ ¬(kind = "Binding" ∨ kind = "Class")) :
      DirectiveExpression i kind name nameSpan stop none none

theorem gives_directiveExpression {name : List Char} {stop nameSpan e}
    (h : Gives (directiveExpression kind (String.ofList name) start stop nameSpan value) i p e p') :
    Still p p' ∧ DirectiveExpression i kind name nameSpan stop value e := by
  unfold directiveExpression at h
  cases value with
  | some chunks =>
    simp only at h
    cases hsole : soleExpression? chunks with
    | none => simp [hsole] at h
    | some sole =>
      simp only [hsole, gives_ite, gives_bind, gives_pure] at h
      obtain ⟨-, _, q, hdrop, _, q', hpattern, rfl, rfl⟩ | ⟨-, rfl, rfl⟩ := h
      · obtain ⟨_, r, hparse, hstill, rfl⟩ := gives_patternAt hpattern
        obtain ⟨rfl, -⟩ := gives_parseSpan hparse
        exact ⟨(still_modify hdrop).append hstill, .value hsole⟩
      · exact ⟨.refl _, .value hsole⟩
  | none =>
    simp only [gives_ite, gives_bind, gives_pure, Bool.or_eq_true, decide_eq_true_eq] at h
    have hempty : (String.ofList name).isEmpty = true ↔ name = [] := by
      rw [String.isEmpty_iff, String.ofList_eq_empty_iff]
    rw [hempty] at h
    obtain ⟨hname, rfl, rfl⟩ | ⟨hname, ⟨hkind, _, q, hparse, _, q', hnote, rfl, rfl⟩ | ⟨hkind, h⟩⟩ := h
    · exact ⟨.refl _, .absent (.inl hname)⟩
    · obtain ⟨rfl, -, parsed, hparsed, rfl⟩ := gives_parseSpan hparse
      exact ⟨still_modify hnote, .own hkind hname hparsed⟩
    · obtain ⟨-, _, q, hdeclare, rfl, rfl⟩ | ⟨-, rfl, rfl⟩ := h
      · exact ⟨still_modify hdeclare, .absent (.inr hkind)⟩
      · exact ⟨.refl _, .absent (.inr hkind)⟩

/-- The name of a directive: the text after the colon up to the first modifier. -/
def directiveName (rest : List Char) : List Char := (splitOn '|' rest).head?.getD []

def directiveNameSpan (start : Nat) (word rest : List Char) : Span :=
  spanOf (start + byteLength word + 1) (directiveName rest)

def directiveNode (kind : String) (word rest : List Char) (start stop : Nat) (e : Option Node) :
    Node :=
  let node : Node :=
    { kind, start, stop,
      fields := [("name", .string (String.ofList (directiveName rest))),
        ("modifiers", .strings ((splitOn '|' rest).tail.map String.ofList)),
        ("expression", .ofOption e)] }
  if kind = "Transition" then
    (node.set "intro" (.bool (word != "out".toList))).set "outro" (.bool (word != "in".toList))
  else node

theorem gives_directive {word stop} (h : Gives (directive kind word rest start stop value) i p n p') :
    Still p p' ∧ ∃ e, DirectiveExpression i kind (directiveName rest)
        (directiveNameSpan start word rest) stop value e ∧
      n = directiveNode kind word rest start stop e := by
  simp only [directive, gives_bind, ← apply_ite pure] at h
  obtain ⟨e, q, he, h⟩ := h
  obtain ⟨hstill, hexpression⟩ := gives_directiveExpression he
  split at h
  · cases e with
    | some e =>
      simp only [gives_bind, gives_pure] at h
      obtain ⟨_, r, hnote, rfl, rfl⟩ := h
      exact ⟨hstill.append (still_modify hnote), some e, hexpression, rfl⟩
    | none =>
      obtain ⟨rfl, rfl⟩ := gives_pure.mp h
      exact ⟨hstill, none, hexpression, rfl⟩
  · obtain ⟨rfl, rfl⟩ := gives_pure.mp h
    exact ⟨hstill, e, hexpression, rfl⟩

theorem splitColon?_eq_some {name word : List Char} (h : splitColon? name = some (word, rest)) :
    name = word ++ ':' :: rest ∧ ':' ∉ word := by
  obtain ⟨⟨before, after⟩, hsplit, heq⟩ := Option.map_eq_some_iff.mp h
  obtain ⟨rfl, hcolon, hword⟩ := splitAt?_singleton.mp hsplit
  obtain ⟨rest', rfl⟩ := List.head?_eq_some_iff.mp hcolon
  cases heq
  exact ⟨rfl, hword⟩

inductive OptionalValue (i : Input) (p : Progress) : Option (List Node) → Progress → Prop
  | absent : OptionalValue i p none p
  | present {chunks : List Node} {q p' : Progress} (hequal : Spells p [.word ['=']] q)
      (hvalue : ValueForm i q chunks p') : OptionalValue i p (some chunks) p'

inductive NamedForm (i : Input) (name : List Char) (start stop : Nat) (value : Option (List Node))
    (n : Node) : Prop
  | plain (hn : n = plainAttribute name start stop value)
  | directive (kind : String) (word rest : List Char) (e : Option Node)
      (hcolon : splitColon? name = some (word, rest))
      (hkind : directiveKind? (String.ofList word) = some kind)
      (he : DirectiveExpression i kind (directiveName rest) (directiveNameSpan start word rest) stop
        value e)
      (hn : n = directiveNode kind word rest start stop e)

inductive NamedAttribute (i : Input) (p : Progress) (n : Node) (p' : Progress) : Prop
  | intro {name : List Char} {value : Option (List Node)} {q r : Progress}
      (hname : Spells p [.word name] q) (hne : name ≠ []) (hvalue : OptionalValue i q value r)
      (hstill : Still r p') (hform : NamedForm i name p.cursor.offset r.cursor.offset value n)

theorem gives_namedAttribute (h : Gives namedAttribute i p n p') : NamedAttribute i p n p' := by
  simp only [namedAttribute, gives_bind, gives_here, gives_ite, gives_refuse, gives_map, gives_pure] at h
  obtain ⟨_, p, ⟨rfl, rfl⟩, name, q, hname, h⟩ := h
  obtain ⟨-, _, _, ⟨⟩, -⟩ | ⟨hne, eaten, q', heat, h⟩ := h
  have hform : ∃ value r, OptionalValue i q value r ∧
      Still r p' ∧ NamedForm i name p.cursor.offset r.cursor.offset value n := by
    obtain ⟨rfl, hequal⟩ | ⟨rfl, rfl⟩ := spells_eat heat
    case' inl =>
      obtain ⟨-, _, r, ⟨chunks, hvalue, rfl⟩, _, _, ⟨rfl, rfl⟩, h⟩ | ⟨hnot, -⟩ := h
      on_goal 2 => exact absurd rfl hnot
      refine ⟨_, _, .present hequal (gives_attributeValue hvalue), ?_⟩
    case' inr =>
      obtain ⟨⟨⟩, -⟩ | ⟨-, _, _, ⟨rfl, rfl⟩, _, _, ⟨rfl, rfl⟩, h⟩ := h
      refine ⟨_, _, .absent, ?_⟩
    all_goals
      split at h
      · obtain ⟨rfl, rfl⟩ := gives_pure.mp h
        exact ⟨.refl _, .plain rfl⟩
      · rename_i word rest hcolon
        split at h
        · obtain ⟨rfl, rfl⟩ := gives_pure.mp h
          exact ⟨.refl _, .plain rfl⟩
        · rename_i kind hkind
          obtain ⟨hstill, e, he, rfl⟩ := gives_directive h
          exact ⟨hstill, .directive kind word rest e hcolon hkind he rfl⟩
  obtain ⟨value, r, hvalue, hstill, hform⟩ := hform
  exact ⟨spells_readWhile hname, by simpa using hne, hvalue, hstill, hform⟩

inductive AttributeForm (i : Input) (p : Progress) (n : Node) (p' : Progress) : Prop
  | braces (h : BraceForm i p n p')
  | named (h : NamedAttribute i p n p')

theorem AttributeForm.aside (h : AttributeForm i p n p') : p'.aside = p.aside := by
  cases h with
  | braces h => exact h.aside
  | named h =>
    obtain ⟨hname, -, hvalue, hstill, -⟩ := h
    refine hstill.aside.trans (Eq.trans ?_ hname.aside)
    cases hvalue with
    | absent => rfl
    | present hequal hvalue => exact hvalue.aside.trans hequal.aside

inductive AttributeRound (i : Input) (p : Progress) (n : Node) (p' : Progress) : Prop
  | intro {q : Progress} (hblank : Spells p [.blank] q) (h : AttributeForm i q n p')

theorem gives_attributes {ns} (h : Gives attributes i p ns p') :
    ∃ q, Rounds (AttributeRound i) p ns q ∧ Spells q [.blank] p' := by
  refine rounds_of_many (AttributeRound i) (Spells · [.blank] ·) (fun q o q' hitem => ?_) h
  simp only [gives_bind, gives_peek?] at hitem
  obtain ⟨_, r, hblank, _, _, ⟨rfl, rfl⟩, hitem⟩ := hitem
  replace hblank := spells_skipBlanks hblank
  split at hitem
  · simp at hitem
  · obtain ⟨rfl, rfl⟩ := gives_pure.mp hitem
    exact hblank
  · rename_i hhead
    simp only [gives_bind, gives_pure] at hitem
    obtain ⟨n, _, hitem, rfl, rfl⟩ := hitem
    exact ⟨hblank, .braces (gives_braceAttribute hhead hitem)⟩
  · simp only [gives_bind, gives_atText, gives_ite, gives_pure] at hitem
    obtain ⟨_, _, ⟨rfl, rfl⟩, ⟨-, rfl, rfl⟩ | ⟨-, n, _, hitem, rfl, rfl⟩⟩ := hitem
    · exact hblank
    · exact ⟨hblank, .named (gives_namedAttribute hitem)⟩

theorem gives_openEnd (h : Gives openEnd i p closed p') :
    Spells p [.word (if closed then "/>" else ">").toList] p' := by
  simp only [openEnd, gives_bind, gives_ite, gives_pure] at h
  obtain ⟨eaten, q, heat, ⟨rfl, rfl, rfl⟩ | ⟨hnot, _, r, hend, rfl, rfl⟩⟩ := h
  · obtain ⟨-, hspells⟩ | ⟨⟨⟩, -⟩ := spells_eat heat
    exact hspells
  · obtain ⟨rfl, -⟩ | ⟨-, rfl⟩ := spells_eat heat
    · exact absurd rfl hnot
    · exact spells_expect hend

/-- The rest of an opening tag after its name. -/
inductive OpenTag (i : Input) (p : Progress) (attributes : List Node) (closed : Bool)
    (p' : Progress) : Prop
  | intro {q : Progress} (hrounds : Rounds (AttributeRound i) p attributes q)
      (hends : Spells q [.blank, .word (if closed then "/>" else ">").toList] p')

theorem gives_openTag {attributes r} (h : Gives Markup.attributes i p attributes r)
    (hend : Gives openEnd i r closed p') : OpenTag i p attributes closed p' := by
  obtain ⟨q, hrounds, hblank⟩ := gives_attributes h
  exact ⟨hrounds, hblank.append (gives_openEnd hend)⟩

theorem OpenTag.aside {attributes} (h : OpenTag i p attributes closed p') :
    p'.aside = p.aside := by
  obtain ⟨hrounds, hends⟩ := h
  exact hends.aside.trans (hrounds.aside fun _ _ _ ⟨hblank, h⟩ => h.aside.trans hblank.aside)

theorem gives_closeTag (h : Gives (closeTag name) i p u p') : Spells p (tagClose name.toList) p' := by
  simp only [closeTag, gives_bind] at h
  obtain ⟨_, q₁, hopen, _, q₂, hname, _, q₃, hblanks, hend⟩ := h
  exact ((spells_expect hopen).word_word (spells_expect hname)).append
    ((spells_skipBlanks hblanks).append (spells_expect hend))

inductive ElementBody (i : Input) (content : Content) (kind name : String) (closed : Bool)
    (p : Progress) : List Node → Progress → Prop
  | empty (h : closed || voidElements.contains name.toLower) :
      ElementBody i content kind name closed p [] p
  | raw {p' : Progress} {data rest : List Char} (hopen : closed = false)
      (hrest : p.cursor.rest = data ++ rest)
      (hclose : Spells (p.goTo (p.cursor.skip data.length)) (tagClose name.toList) p') :
      ElementBody i content kind name closed p
        (if data.isEmpty then [] else [textNode p.cursor.offset data]) p'
  | content {q p' : Progress} {children : List Node} {start : Nat} (hopen : closed = false)
      (hchildren : Gives (content kind) i p (children, .closingTag name start) q)
      (hclose : Spells q (tagClose name.toList) p') :
      ElementBody i content kind name closed p children p'

theorem rest_of_readUpTo {close} {data : List Char} (h : Gives (readUpTo? close) i p (some data) p')
    (hne : close.toList ≠ []) :
    (∃ rest, p.cursor.rest = data ++ rest) ∧ p' = p.goTo (p.cursor.skip data.length) := by
  obtain ⟨_, rest, ⟨⟩, hsplit, rfl⟩ | ⟨⟨⟩, -⟩ := gives_readUpTo?.mp h
  exact ⟨⟨rest, ((splitAt?_eq_some_iff hne).mp hsplit).1⟩, rfl⟩

theorem gives_rawChildren {children} (h : Gives (rawChildren name start) i p children p')
    (hopen : closed = false) : ElementBody i content kind name closed p children p' := by
  simp only [rawChildren, gives_bind, gives_here] at h
  obtain ⟨_, _, ⟨rfl, rfl⟩, data, q, hdata, h⟩ := h
  cases data with
  | none => simp at h
  | some data =>
    obtain ⟨⟨rest, hrest⟩, rfl⟩ := rest_of_readUpTo hdata (by simp)
    simp only [gives_bind, gives_pure] at h
    obtain ⟨_, r, hclose, rfl, rfl⟩ := h
    exact .raw hopen hrest (gives_closeTag hclose)

theorem gives_elementChildren {children}
    (h : Gives (elementChildren content kind name start) i p children p') (hopen : closed = false) :
    ElementBody i content kind name closed p children p' := by
  simp only [elementChildren, gives_bind] at h
  obtain ⟨⟨children', ending⟩, q, hcontent, h⟩ := h
  cases ending with
  | closingTag closing at_ =>
    simp only [gives_ite, gives_bind, gives_pure, gives_refuse] at h
    obtain ⟨rfl, _, r, hclose, rfl, rfl⟩ | ⟨-, _, _, ⟨⟩, -⟩ := h
    exact .content hopen hcontent (gives_closeTag hclose)
  | _ => simp at h

/-- The attributes of an element without the one that only says which component it is, and the
expression that was in it. -/
inductive PlainAttributes (name : String) (attributes : List Node) :
    Option Node → List Node → Prop
  | all (h : name ≠ "svelte:component") : PlainAttributes name attributes none attributes
  | without {this : Node} (h : name = "svelte:component")
      (hthis : (takeThis attributes).1 = some this) :
      PlainAttributes name attributes (some this) (takeThis attributes).2

def elementNode (kind name : String) (start stop : Nat) (this : Option Node)
    (attributes children : List Node) : Node :=
  { kind, start, stop,
    fields := ("name", .string name) :: (this.toList.map fun e => ("expression", .node e)) ++
      [("attributes", .nodes attributes), ("children", .nodes children)] }

inductive ElementForm (i : Input) (content : Content) (parent name : String) (start : Nat)
    (p : Progress) (n : Node) (p' : Progress) : Prop
  | intro {attributes plain children : List Node} {this : Option Node} {closed : Bool} {q : Progress}
      (hopening : OpenTag i p attributes closed q)
      (hplain : PlainAttributes name attributes this plain)
      (hbody : ElementBody i content (elementKind name parent) name closed q children p')
      (hn : n = elementNode (elementKind name parent) name start p'.cursor.offset this plain children)

theorem gives_elementBody {fields : List Node → List (String × Value)} (h : Gives
      (if closed || voidElements.contains name.toLower then do
        let children ← pure []
        finish kind start (fields children)
      else if rawTextElements.contains name then do
        let children ← rawChildren name start
        finish kind start (fields children)
      else do
        let children ← elementChildren content kind name start
        finish kind start (fields children)) i p n p') :
    ∃ children, ElementBody i content kind name closed p children p' ∧
      n = { kind, start, stop := p'.cursor.offset, fields := fields children } := by
  simp only [gives_ite, gives_bind, gives_pure, gives_finish] at h
  obtain ⟨hempty, _, _, ⟨rfl, rfl⟩, rfl, rfl⟩ | ⟨hempty, h⟩ := h
  · exact ⟨[], .empty hempty, rfl⟩
  have hopen : closed = false := by
    rw [Bool.or_eq_true, not_or] at hempty
    simpa using hempty.1
  obtain ⟨-, children, _, hchildren, rfl, rfl⟩ | ⟨-, children, _, hchildren, rfl, rfl⟩ := h
  · exact ⟨children, gives_rawChildren hchildren hopen, rfl⟩
  · exact ⟨children, gives_elementChildren hchildren hopen, rfl⟩

theorem gives_element (h : Gives (element content parent name start) i p n p') :
    ElementForm i content parent name start p n p' := by
  simp only [element, gives_bind] at h
  obtain ⟨attributes, r, hattributes, closed, q, hend, h⟩ := h
  have hopening : OpenTag i p attributes closed q := gives_openTag hattributes hend
  rw [gives_ite] at h
  obtain ⟨hname, h⟩ | ⟨hname, h⟩ := h
  · cases hthis : (takeThis attributes).1 with
    | none => simp [hthis] at h
    | some this =>
      simp only [hthis] at h
      obtain ⟨children, hbody, rfl⟩ := gives_elementBody h
      exact ⟨hopening, .without hname hthis, hbody, rfl⟩
  · obtain ⟨children, hbody, rfl⟩ := gives_elementBody h
    exact ⟨hopening, .all hname, hbody, rfl⟩

inductive TopLevelBody (name : String) (closed : Bool) (p : Progress) : List Char → Progress → Prop
  | empty (h : closed) : TopLevelBody name closed p [] p
  | text {p' : Progress} {content rest : List Char} (h : closed = false)
      (hrest : p.cursor.rest = content ++ rest)
      (hclose : Spells (p.goTo (p.cursor.skip content.length)) (tagClose name.toList) p') :
      TopLevelBody name closed p content p'

theorem TopLevelBody.aside {text} (h : TopLevelBody name closed p text p') : p'.aside = p.aside := by
  cases h with
  | empty => rfl
  | text _ _ hclose => exact hclose.aside

theorem gives_topLevelContent {content : List Char}
    (h : Gives (topLevelContent name start closed) i p content p') :
    TopLevelBody name closed p content p' := by
  simp only [topLevelContent, gives_ite, gives_bind, gives_pure] at h
  obtain ⟨hclosed, rfl, rfl⟩ | ⟨hclosed, data, q, hdata, h⟩ := h
  · exact .empty hclosed
  cases data with
  | none => simp at h
  | some data =>
    obtain ⟨⟨rest, hrest⟩, rfl⟩ := rest_of_readUpTo hdata (by simp)
    simp only [gives_bind, gives_pure] at h
    obtain ⟨_, r, hclose, rfl, rfl⟩ := h
    exact .text (by simpa using hclosed) hrest (gives_closeTag hclose)

def styleNode (start stop contentStart : Nat) (attributes : List Node) (content : List Char) : Node :=
  { kind := "Style", start, stop,
    fields := [("attributes", .nodes attributes),
      ("content", .object
        [("start", .number (.ofNat contentStart)),
         ("end", .number (.ofNat (contentStart + byteLength content))),
         ("styles", .string (String.ofList content))])] }

def scriptNode (start stop contentStart : Nat) (attributes : List Node) (content : List Char) : Node :=
  { kind := "Script", start, stop,
    fields := [("context", .string (if isModuleScript attributes then "module" else "default")),
      ("attributes", .nodes attributes),
      ("content",
        .node (.pending "Program" contentStart (contentStart + byteLength content)))] }

inductive PutAside (name : String) (start contentStart : Nat) (attributes : List Node)
    (content : List Char) (p : Progress) : Node → Progress → Prop
  | style (h : name = "style") (hnone : p.css = none) :
      PutAside name start contentStart attributes content p
        (styleNode start p.cursor.offset contentStart attributes content)
        { p with css := some (styleNode start p.cursor.offset contentStart attributes content) }
  | moduleScript (h : name ≠ "style") (hmodule : isModuleScript attributes)
      (hnone : p.moduleScript = none) :
      PutAside name start contentStart attributes content p
        (scriptNode start p.cursor.offset contentStart attributes content)
        { p with
          moduleScript := some (scriptNode start p.cursor.offset contentStart attributes content) }
  | instanceScript (h : name ≠ "style") (hmodule : isModuleScript attributes = false)
      (hnone : p.instanceScript = none) :
      PutAside name start contentStart attributes content p
        (scriptNode start p.cursor.offset contentStart attributes content)
        { p with
          instanceScript := some (scriptNode start p.cursor.offset contentStart attributes content) }

/-- The sections that were put aside, if there are any. -/
def Progress.sections (p : Progress) : List Node :=
  p.css.toList ++ p.instanceScript.toList ++ p.moduleScript.toList

theorem Progress.sections_of_aside (h : p'.aside = p.aside) : p'.sections = p.sections := by
  simp only [Progress.aside, Prod.mk.injEq] at h
  simp [Progress.sections, h]

theorem PutAside.spec {contentStart attributes text}
    (h : PutAside name start contentStart attributes text p n p') :
    p'.cursor = p.cursor ∧ p'.sections.Perm (p.sections ++ [n]) ∧
      n = if name = "style" then styleNode start p.cursor.offset contentStart attributes text
        else scriptNode start p.cursor.offset contentStart attributes text := by
  cases h with
  | style hname hnone =>
    refine ⟨rfl, ?_, by simp [hname]⟩
    simp only [Progress.sections, hnone]
    exact (List.perm_append_singleton ..).symm
  | moduleScript hname _ hnone =>
    refine ⟨rfl, ?_, by simp [hname]⟩
    simp [Progress.sections, hnone]
  | instanceScript hname _ hnone =>
    refine ⟨rfl, ?_, by simp [hname]⟩
    simp only [Progress.sections, hnone, Option.toList_none, Option.toList_some, List.append_nil,
      List.append_assoc]
    exact List.perm_append_comm.append_left _

/-- A script or style after its name. -/
inductive TopLevelForm (i : Input) (name : String) (start : Nat) (p p' : Progress) : Prop
  | intro {n : Node} {attributes : List Node} {closed : Bool} {content : List Char} {q s : Progress}
      (hopening : OpenTag i p attributes closed q) (hbody : TopLevelBody name closed q content s)
      (haside : PutAside name start q.cursor.offset attributes content s n p')

theorem gives_topLevelElement (h : Gives (topLevelElement name start) i p u p') :
    TopLevelForm i name start p p' := by
  simp only [topLevelElement, gives_bind, gives_here] at h
  obtain ⟨attributes, r, hattributes, closed, q, hend, _, _, ⟨rfl, rfl⟩, content, s, hcontent, h⟩ := h
  have hopening : OpenTag i p attributes closed _ := gives_openTag hattributes hend
  have hbody := gives_topLevelContent hcontent
  suffices haside : ∃ n, PutAside name start _ attributes content s n p' by
    obtain ⟨n, haside⟩ := haside
    exact ⟨hopening, hbody, haside⟩
  simp only [gives_ite] at h
  obtain ⟨hname, h⟩ | ⟨hname, h⟩ := h
  · simp only [styleElement, gives_bind, gives_get, gives_ite, gives_refuse, gives_finish,
      gives_modify] at h
    obtain ⟨_, _, ⟨rfl, rfl⟩, ⟨-, _, _, ⟨⟩, -⟩ | ⟨hnone, _, _, ⟨rfl, rfl⟩, rfl⟩⟩ := h
    exact ⟨_, .style hname (by simpa using hnone)⟩
  · simp only [scriptElement, gives_bind, gives_get, gives_ite, gives_refuse, gives_finish,
      gives_modify] at h
    obtain ⟨_, _, ⟨rfl, rfl⟩, ⟨-, _, _, ⟨⟩, -⟩ | ⟨hnone, _, _, ⟨rfl, rfl⟩, h⟩⟩ := h
    obtain ⟨hmodule, rfl⟩ | ⟨hmodule, rfl⟩ := h
    · exact ⟨_, .moduleScript hname hmodule (by simpa [hmodule] using hnone)⟩
    · exact ⟨_, .instanceScript hname (by simpa using hmodule) (by simpa [hmodule] using hnone)⟩

/-- What starts with an angle. -/
inductive TagForm (i : Input) (content : Content) (topLevel : Bool) (parent : String) (p : Progress) :
    Option Node → Progress → Prop
  | aside {name : String} {q p' : Progress} (htop : topLevel) (hname : name = "script" ∨ name = "style")
      (hstart : Spells p [.word ('<' :: name.toList)] q)
      (h : TopLevelForm i name p.cursor.offset q p') : TagForm i content topLevel parent p none p'
  | element {name : String} {n : Node} {q p' : Progress} (hstart : Spells p [.word ('<' :: name.toList)] q)
      (h : ElementForm i content parent name p.cursor.offset q n p') :
      TagForm i content topLevel parent p (some n) p'

theorem gives_tag {topLevel} {n : Option Node} (hhead : p.cursor.rest.head? = some '<')
    (h : Gives (tag content topLevel parent) i p n p') : TagForm i content topLevel parent p n p' := by
  simp only [tag, gives_bind, gives_here, gives_skip, gives_ite, gives_refuse, gives_pure,
    Bool.and_eq_true, Bool.or_eq_true, decide_eq_true_eq] at h
  obtain ⟨_, p, ⟨rfl, rfl⟩, _, _, rfl, name, q, hname, h⟩ := h
  obtain ⟨-, _, _, ⟨⟩, -⟩ | ⟨-, h⟩ := h
  have hstart := (Spells.goTo (.char hhead)).word_word (spells_readWhile hname)
  replace hstart : Spells p [.word ('<' :: (String.ofList name).toList)] q := by
    rwa [String.toList_ofList]
  obtain ⟨⟨htop, hname⟩, _, r, h, rfl, rfl⟩ | ⟨-, n, _, h, rfl, rfl⟩ := h
  · exact .aside htop hname hstart (gives_topLevelElement h)
  · exact .element hstart (gives_element h)

end SvelteSyntax.Markup
