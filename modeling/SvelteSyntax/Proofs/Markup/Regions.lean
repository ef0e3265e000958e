import Mathlib.Data.List.Chain
import SvelteSyntax.Proofs.Markup.Lexer

namespace SvelteSyntax.Markup

open Text Run

/-- Whether a construct is opened directly inside another one. -/
def Mode.nestsIn (inner outer : Mode) : Bool :=
  match inner with
  | .text => false
  | .tag _ | .closingTag => (outer matches .text)
  | .attributes => (outer matches .tag _)
  | .attribute => (outer matches .attributes)
  | .attributeName | .attributeValue => (outer matches .attribute)
  | .directiveName => (outer matches .attributeName)
  | .directiveModifiers => (outer matches .directiveName)
  | .quotedValue _ => (outer matches .attributeValue)
  | .closingTagEnd => (outer matches .closingTag)
  | .mustache _ => (outer matches .text | .attribute | .attributeValue | .quotedValue _)
  | .expression | .elseBranch | .each _ | .await _ | .blockValue _ false | .debug | .blockEnd =>
    (outer matches .mustache true)
  | .elseCondition => (outer matches .elseBranch)
  | .eachExpression => (outer matches .each .middle)
  | .eachContext | .eachIndex | .eachGroupedKey | .eachNamedKey => (outer matches .each .tail)
  | .awaitExpression | .blockValue _ true => (outer matches .await .tail)

/-- Every open construct stands directly in the one after it, and the last one in the text. -/
def Modes.Path : Modes → Prop
  | [] => True
  | mode :: outer => mode.nestsIn (Modes.top outer) ∧ Path outer

inductive Region where
  | braces
  | openTag
  | closeTag
  deriving DecidableEq, Repr

namespace Region

/-- The lexeme that a region starts with. -/
def start : Region → LexemeKind
  | braces => .mustacheStart
  | openTag => .openStart
  | closeTag => .closeStart

/-- The lexeme that a region ends with. -/
def stop : Region → LexemeKind
  | braces => .mustacheEnd
  | openTag => .openEnd
  | closeTag => .closeEnd

/-- The lexemes that stand only in a region: the keywords and parts of blocks in braces, the names
of components and the parts of attributes and directives in opening tags. -/
def holds : Region → LexemeKind → Bool
  | braces, kind => (kind matches .ifOpen | .elseOpen | .elseIf | .ifClose | .eachOpen | .eachAs
      | .eachComma | .eachIndex | .eachKeyStart | .eachKeyEnd | .eachKeyMark | .eachKey | .eachClose
      | .awaitOpen | .awaitCompactThen | .awaitThen | .awaitValue | .awaitCatch | .awaitError
      | .awaitClose | .rawHtml | .debug | .debugComma)
  | openTag, kind => (kind matches .componentName | .attributeName | .directiveColon
      | .directiveName | .directivePipe | .directiveModifier | .attributeEqual | .attributeValue
      | .doubleQuote | .singleQuote)
  | closeTag, _ => false

/-- The lexemes that never stand in a region: no tag starts or ends in another region than its own,
and there are no braces in a closing tag. -/
def bars : Region → LexemeKind → Bool
  | braces, kind => (kind matches .openStart | .openEnd | .closeStart | .closeEnd)
  | openTag, kind => (kind matches .closeStart | .closeEnd)
  | closeTag, kind => (kind matches .openStart | .openEnd | .mustacheStart | .mustacheEnd)

/-- Whether a region is open after a lexeme, if the lexeme may stand here. -/
def after (region : Region) (isOpen : Bool) (kind : LexemeKind) : Option Bool :=
  if kind = region.start then (if isOpen then none else some true)
  else if kind = region.stop then (if isOpen then some false else none)
  else if (region.holds kind && !isOpen) || (region.bars kind && isOpen) then none
  else some isOpen

theorem after_of_free {region : Region} {kind : LexemeKind}
    (h : kind ≠ region.start ∧ kind ≠ region.stop ∧ region.holds kind = false ∧
      region.bars kind = false) (isOpen : Bool) : region.after isOpen kind = some isOpen := by
  obtain ⟨hstart, hstop, hholds, hbars⟩ := h
  simp [after, hstart, hstop, hholds, hbars]

def afterAll (region : Region) (isOpen : Bool) (kinds : List LexemeKind) : Option Bool :=
  kinds.foldlM region.after isOpen

theorem afterAll_append (region : Region) (isOpen : Bool) (xs ys : List LexemeKind) :
    region.afterAll isOpen (xs ++ ys) =
      (region.afterAll isOpen xs).bind fun isOpen => region.afterAll isOpen ys :=
  List.foldlM_append

end Region

namespace Mode

/-- Between two braces. The construct of the braces itself is left without a lexeme, when the
closing brace has been read. -/
def inBraces (mode : Mode) : Bool :=
  mode matches .mustache false | .expression | .elseBranch | .elseCondition | .each _
    | .eachExpression | .eachContext | .eachIndex | .eachGroupedKey | .eachNamedKey | .await _
    | .awaitExpression | .blockValue _ _ | .debug | .blockEnd

def isTag : Mode → Bool
  | .tag _ => true
  | _ => false

def isClosing : Mode → Bool
  | .closingTag | .closingTagEnd => true
  | _ => false

/-- In an opening tag and outside of braces. -/
def inTag : Mode → Bool
  | .tag _ | .attributes | .attribute | .attributeName | .directiveName | .directiveModifiers
  | .attributeValue | .quotedValue _ => true
  | _ => false

/-- A construct that starts and ends in the region of the one around it. -/
def isInner (mode : Mode) : Bool :=
  !(mode matches .text | .tag _ | .closingTag | .mustache false | .expression | .elseBranch
    | .each _ | .await _ | .blockValue _ false | .debug | .blockEnd)

/-- A name after `then` or `catch` is read as a part of its block. -/
def isNamed : Mode → Bool
  | .blockValue kind _ => Region.braces.holds kind
  | _ => true

end Mode

def Region.isOpen (modes : Modes) : Region → Bool
  | braces => (Modes.top modes).inBraces
  | openTag => modes.any Mode.isTag
  | closeTag => (Modes.top modes).isClosing

section

variable {mode inner outer : Mode} {modes rest : Modes} {kind : LexemeKind}

/-- What a construct and the one it stands in have to do with each other. -/
@[mk_iff] structure Mode.Nested (inner outer : Mode) : Prop where
  same : inner.isInner → inner.inBraces = outer.inBraces ∧ inner.isClosing = outer.isClosing ∧
    inner.isTag = false
  inTag : inner.inTag → inner.isTag ∨ outer.inTag
  text : inner.isTag ∨ inner = .closingTag → outer = .text
  mustache : inner.nestsIn (.mustache true) → outer = .mustache true
  inBraces : outer = .mustache true → inner.inBraces = true ∧ inner.isClosing = false ∧
    inner.isTag = false

theorem Mode.nested (h : inner.nestsIn outer) : Nested inner outer := by
  rw [nested_iff]
  revert h
  cases inner with
  | mustache entered =>
    cases entered <;> simp only [nestsIn] <;> split <;>
      simp [isInner, inBraces, isClosing, isTag, inTag]
  | blockValue kind compact =>
    cases compact <;> simp only [nestsIn] <;> split <;>
      simp [isInner, inBraces, isClosing, isTag, inTag]
  | text => simp [nestsIn]
  | _ =>
    simp only [nestsIn]
    split <;> simp [isInner, inBraces, isClosing, isTag, inTag]

theorem isOpen_cons_of_isInner (h : inner.nestsIn (Modes.top modes)) (hinner : inner.isInner)
    (region : Region) : region.isOpen (inner :: modes) = region.isOpen modes := by
  obtain ⟨hbraces, hclosing, htag⟩ := (Mode.nested h).same hinner
  cases region with
  | braces => exact hbraces
  | openTag => simp [Region.isOpen, htag]
  | closeTag => exact hclosing

theorem eq_nil_of_nestsIn_text (hp : Modes.Path (mode :: rest))
    (hmode : mode.isTag ∨ mode = .closingTag) : rest = [] := by
  have htext := (Mode.nested hp.1).text hmode
  cases rest with
  | nil => rfl
  | cons outer rest =>
    cases htext
    cases hp.2.1

theorem isOpen_mustache (h : inner.nestsIn (.mustache true)) (region : Region) :
    region.isOpen (inner :: .mustache true :: rest) = region.isOpen (.mustache false :: rest) := by
  obtain ⟨hbraces, hclosing, htag⟩ := (Mode.nested h).inBraces rfl
  cases region with
  | braces => exact hbraces
  | openTag =>
    change (inner.isTag || _) = _
    rw [htag]
    rfl
  | closeTag => exact hclosing

theorem isOpen_openTag (hp : Modes.Path modes) (h : (Modes.top modes).inTag) :
    Region.openTag.isOpen modes = true := by
  induction modes with
  | nil => cases h
  | cons mode rest ih =>
    rcases (Mode.nested hp.1).inTag h with htag | hin
    · simp [Region.isOpen, htag]
    · have := ih hp.2 hin
      simp only [Region.isOpen, List.any_cons] at this ⊢
      rw [this, Bool.or_true]

def Fits (kind : LexemeKind) (modes : Modes) : Prop :=
  ∀ region : Region, region.after (region.isOpen modes) kind = some (region.isOpen modes)

theorem fits_tagName (modes : Modes) : Fits .tagName modes := by
  intro region
  cases region <;> simp [Region.after, Region.start, Region.stop, Region.holds, Region.bars]

theorem fits_of_inBraces (hkind : Region.braces.holds kind) (h : (Modes.top modes).inBraces) :
    Fits kind modes := by
  have hopen : Region.braces.isOpen modes = true := h
  intro region
  cases region <;> cases kind <;>
    simp_all [Region.after, Region.start, Region.stop, Region.holds, Region.bars]

theorem fits_of_inTag (hkind : Region.openTag.holds kind) (hp : Modes.Path modes)
    (h : (Modes.top modes).inTag) : Fits kind modes := by
  have hopen := isOpen_openTag hp h
  intro region
  cases region <;> cases kind <;>
    simp_all [Region.after, Region.start, Region.stop, Region.holds, Region.bars]

end

namespace Region

variable {region : Region} {isOpen isOpen' : Bool} {kind : LexemeKind} {kinds : List LexemeKind}

/-- The starts and ends of a region. -/
def edges (region : Region) (kinds : List LexemeKind) : List LexemeKind :=
  kinds.filter fun kind => kind = region.start || kind = region.stop

/-- The starts and ends of a region take turns, a start first. The last start may have no end. -/
def Alternates (region : Region) (kinds : List LexemeKind) : Prop :=
  (∀ kind ∈ (region.edges kinds).head?, kind = region.start) ∧ (region.edges kinds).IsChain (· ≠ ·)

/-- A place between a start of a region and its end, or between the last start and the end of the
lexemes. -/
def Encloses (region : Region) (before after : List LexemeKind) : Prop :=
  (∃ outer inner, before = outer ++ region.start :: inner ∧ region.edges inner = []) ∧
    (region.edges after = [] ∨
      ∃ inner outer, after = inner ++ region.stop :: outer ∧ region.edges inner = [])

theorem start_ne_stop (region : Region) : region.start ≠ region.stop := by
  cases region <;> decide

theorem after_eq_some (h : region.after isOpen kind = some isOpen') :
    (kind = region.start ∧ isOpen = false ∧ isOpen' = true) ∨
      (kind = region.stop ∧ isOpen = true ∧ isOpen' = false) ∨
      (kind ≠ region.start ∧ kind ≠ region.stop ∧ isOpen' = isOpen ∧
        (region.holds kind → isOpen = true) ∧ (region.bars kind → isOpen = false)) := by
  unfold after at h
  cases isOpen <;> grind

theorem afterAll_cons :
    region.afterAll isOpen (kind :: kinds) = some isOpen' ↔
      ∃ next, region.after isOpen kind = some next ∧ region.afterAll next kinds = some isOpen' := by
  simp [afterAll, List.foldlM_cons, Option.bind_eq_some_iff]

theorem afterAll_append_eq_some {xs ys} :
    region.afterAll isOpen (xs ++ ys) = some isOpen' ↔
      ∃ next, region.afterAll isOpen xs = some next ∧ region.afterAll next ys = some isOpen' := by
  rw [afterAll_append, Option.bind_eq_some_iff]

theorem edges_cons_of_ne (hstart : kind ≠ region.start) (hstop : kind ≠ region.stop) :
    region.edges (kind :: kinds) = region.edges kinds := by
  simp [edges, hstart, hstop]

theorem edges_start_cons :
    region.edges (region.start :: kinds) = region.start :: region.edges kinds := by
  simp [edges]

theorem edges_stop_cons :
    region.edges (region.stop :: kinds) = region.stop :: region.edges kinds := by
  simp [edges]

theorem edges_alternate (h : region.afterAll isOpen kinds = some isOpen') :
    (∀ kind ∈ (region.edges kinds).head?, kind = if isOpen then region.stop else region.start) ∧
      (region.edges kinds).IsChain (· ≠ ·) := by
  induction kinds generalizing isOpen with
  | nil => simp [edges]
  | cons kind kinds ih =>
    obtain ⟨next, hkind, hkinds⟩ := afterAll_cons.mp h
    obtain ⟨hhead, hchain⟩ := ih hkinds
    rcases after_eq_some hkind with ⟨rfl, rfl, rfl⟩ | ⟨rfl, rfl, rfl⟩ | ⟨hstart, hstop, rfl, -, -⟩
    · rw [edges_start_cons, List.isChain_cons]
      refine ⟨by simp, fun next hnext => ?_, hchain⟩
      rw [hhead next hnext]
      exact region.start_ne_stop
    · rw [edges_stop_cons, List.isChain_cons]
      refine ⟨by simp, fun next hnext => ?_, hchain⟩
      rw [hhead next hnext]
      exact region.start_ne_stop.symm
    · rw [edges_cons_of_ne hstart hstop]
      exact ⟨hhead, hchain⟩

theorem eq_of_edges_eq_nil (h : region.afterAll isOpen kinds = some isOpen')
    (hedges : region.edges kinds = []) : isOpen' = isOpen := by
  induction kinds generalizing isOpen with
  | nil => exact (Option.some.inj h).symm
  | cons kind kinds ih =>
    obtain ⟨next, hkind, hkinds⟩ := afterAll_cons.mp h
    rcases after_eq_some hkind with ⟨rfl, -⟩ | ⟨rfl, -⟩ | ⟨hstart, hstop, rfl, -⟩
    · simp [edges_start_cons] at hedges
    · simp [edges_stop_cons] at hedges
    · rw [edges_cons_of_ne hstart hstop] at hedges
      exact ih hkinds hedges

theorem exists_start (h : region.afterAll isOpen kinds = some true) :
    (isOpen = true ∧ region.edges kinds = []) ∨
      ∃ outer inner, kinds = outer ++ region.start :: inner ∧ region.edges inner = [] := by
  induction kinds generalizing isOpen with
  | nil => exact .inl ⟨Option.some.inj h, rfl⟩
  | cons kind kinds ih =>
    obtain ⟨next, hkind, hkinds⟩ := afterAll_cons.mp h
    rcases ih hkinds with ⟨rfl, hedges⟩ | ⟨outer, inner, rfl, hedges⟩
    -- No edge follows, so the region is open after `kind`: it has just started or was open before.
    · rcases after_eq_some hkind with ⟨rfl, -⟩ | ⟨-, -, hnext⟩ | ⟨hstart, hstop, rfl, -⟩
      · exact .inr ⟨[], kinds, rfl, hedges⟩
      · cases hnext
      · exact .inl ⟨rfl, (edges_cons_of_ne hstart hstop).trans hedges⟩
    · exact .inr ⟨kind :: outer, inner, rfl, hedges⟩

/-- A region that is open stays so up to its end. -/
theorem exists_stop (h : region.afterAll true kinds = some isOpen') :
    region.edges kinds = [] ∨
      ∃ inner outer, kinds = inner ++ region.stop :: outer ∧ region.edges inner = [] := by
  induction kinds with
  | nil => exact .inl rfl
  | cons kind kinds ih =>
    obtain ⟨next, hkind, hkinds⟩ := afterAll_cons.mp h
    rcases after_eq_some hkind with ⟨-, hopen, -⟩ | ⟨rfl, -⟩ | ⟨hstart, hstop, rfl, -⟩
    · cases hopen
    · exact .inr ⟨[], kinds, rfl, rfl⟩
    · rcases ih hkinds with hedges | ⟨inner, outer, rfl, hedges⟩
      · exact .inl ((edges_cons_of_ne hstart hstop).trans hedges)
      · exact .inr ⟨kind :: inner, outer, rfl, (edges_cons_of_ne hstart hstop).trans hedges⟩

theorem isOpen_of_start {outer inner : List LexemeKind}
    (h : region.afterAll isOpen (outer ++ region.start :: inner) = some isOpen')
    (hedges : region.edges inner = []) : isOpen' = true := by
  obtain ⟨_, -, h⟩ := afterAll_append_eq_some.mp h
  obtain ⟨next, hstart, hinner⟩ := afterAll_cons.mp h
  rw [eq_of_edges_eq_nil hinner hedges]
  rcases after_eq_some hstart with ⟨-, -, hnext⟩ | ⟨hstop, -⟩ | ⟨hne, -⟩
  · exact hnext
  · exact absurd hstop region.start_ne_stop
  · exact absurd rfl hne

theorem encloses_iff {before after} (hbefore : region.afterAll false before = some isOpen)
    (hafter : region.afterAll isOpen after = some isOpen') :
    region.Encloses before after ↔ isOpen = true := by
  constructor
  · rintro ⟨⟨outer, inner, rfl, hedges⟩, -⟩
    exact isOpen_of_start hbefore hedges
  · rintro rfl
    rcases exists_start hbefore with ⟨hfalse, -⟩ | hstart
    · cases hfalse
    · exact ⟨hstart, exists_stop hafter⟩

/-- The edges of a region take turns, the lexemes that stand only in it do so, and those that never
stand in it do not. -/
structure RespectedBy (region : Region) (kinds : List LexemeKind) : Prop where
  alternates : region.Alternates kinds
  encloses (before : List LexemeKind) (kind : LexemeKind) (after : List LexemeKind) :
    kinds = before ++ kind :: after → region.holds kind → region.Encloses before after
  excludes (before : List LexemeKind) (kind : LexemeKind) (after : List LexemeKind) :
    kinds = before ++ kind :: after → region.bars kind → ¬region.Encloses before after

theorem encloses_of_afterAll {before after}
    (h : region.afterAll false (before ++ kind :: after) = some isOpen)
    (hstart : kind ≠ region.start) (hstop : kind ≠ region.stop) :
    (region.holds kind → region.Encloses before after) ∧
      (region.bars kind → ¬region.Encloses before after) := by
  obtain ⟨now, hbefore, h⟩ := afterAll_append_eq_some.mp h
  obtain ⟨next, hkind, hafter⟩ := afterAll_cons.mp h
  rcases after_eq_some hkind with ⟨heq, -⟩ | ⟨heq, -⟩ | ⟨-, -, rfl, hholds, hbars⟩
  · exact absurd heq hstart
  · exact absurd heq hstop
  · rw [encloses_iff hbefore hafter]
    exact ⟨hholds, fun h => by simp [hbars h]⟩

theorem ne_of_holds (h : region.holds kind) : kind ≠ region.start ∧ kind ≠ region.stop := by
  cases region <;> cases kind <;> simp_all [holds, start, stop]

theorem ne_of_bars (h : region.bars kind) : kind ≠ region.start ∧ kind ≠ region.stop := by
  cases region <;> cases kind <;> simp_all [bars, start, stop]

theorem respectedBy_of_afterAll (h : region.afterAll false kinds = some isOpen) :
    region.RespectedBy kinds where
  alternates := edges_alternate h
  encloses before kind after hkinds hholds := by
    obtain ⟨hstart, hstop⟩ := ne_of_holds hholds
    exact (encloses_of_afterAll (hkinds ▸ h) hstart hstop).1 hholds
  excludes before kind after hkinds hbars := by
    obtain ⟨hstart, hstop⟩ := ne_of_bars hbars
    exact (encloses_of_afterAll (hkinds ▸ h) hstart hstop).2 hbars

end Region

end SvelteSyntax.Markup
