import SvelteSyntax.Proofs.Markup.Bytes
import SvelteSyntax.Proofs.Markup.Noted.Blocks
import SvelteSyntax.Proofs.Markup.Spans

namespace SvelteSyntax.Markup

open Text Script

variable {r : Terms} {p q q' : Progress} {s t : List Nat} {start contentStart k : Nat}
  {name parent : String} {topLevel : Bool} {n : Node}

/-- The state with the sections that another one has put aside. -/
def Progress.hold (p q : Progress) : Progress := { q with cursor := p.cursor, sites := p.sites }

/-- Where the expressions of the sections put aside start. -/
def Progress.held (p : Progress) : List Nat := p.sections.flatMap Node.slots

/-- The way from one state to another, on which expressions with these starts are noted, and also those
of sections that are put aside outside of all elements. -/
structure Reaches (r : Terms) (topLevel : Bool) (p : Progress) (slots : List Nat) (q : Progress) :
    Prop where
  noted : ∃ new, Passes r (p.hold q) new q ∧ (new ++ p.held).Perm (slots ++ q.held)
  aside : topLevel = false → q.aside = p.aside

theorem Progress.hold_eq (h : q.aside = p.aside) : p.hold q = p := by
  obtain ⟨cursor, css, instanceScript, moduleScript, sites⟩ := p
  obtain ⟨rfl, rfl, rfl⟩ := by simpa [Progress.aside] using h
  rfl

theorem Progress.held_eq (h : q.aside = p.aside) : q.held = p.held := by
  rw [Progress.held, Progress.sections_of_aside h, Progress.held]

theorem Passes.reaches (h : Passes r p s q) : Reaches r topLevel p s q := by
  refine ⟨⟨s, ?_, ?_⟩, fun _ => h.aside⟩
  · rwa [Progress.hold_eq h.aside]
  · rw [Progress.held_eq h.aside]

theorem Passes.hold (h : Passes r p s q) (q' : Progress) : Passes r (p.hold q') s (q.hold q') :=
  ⟨⟨h.begins.inside, h.begins.before⟩, h.moved, rfl, h.noted⟩

namespace Reaches

theorem passes (h : Reaches r false p s q) : Passes r p s q := by
  obtain ⟨new, hpass, hperm⟩ := h.noted
  rw [Progress.hold_eq (h.aside rfl)] at hpass
  rw [Progress.held_eq (h.aside rfl)] at hperm
  exact hpass.perm ((List.perm_append_right_iff _).mp hperm)

theorem ends (h : Reaches r topLevel p s q) : Standing r q := by
  obtain ⟨new, hpass, -⟩ := h.noted
  exact hpass.ends

theorem length_le (h : Reaches r topLevel p s q) : q.cursor.rest.length ≤ p.cursor.rest.length := by
  obtain ⟨new, hpass, -⟩ := h.noted
  exact hpass.length_le

theorem trans (h : Reaches r topLevel p s q) (h' : Reaches r topLevel q t q') :
    Reaches r topLevel p (s ++ t) q' := by
  obtain ⟨new, hpass, hperm⟩ := h.noted
  obtain ⟨new', hpass', hperm'⟩ := h'.noted
  refine ⟨⟨new ++ new', (hpass.hold q').trans hpass', ?_⟩, fun hb => (h'.aside hb).trans (h.aside hb)⟩
  calc new ++ new' ++ p.held
    _ |>.Perm (new' ++ (new ++ p.held)) := by rw [List.append_assoc]; exact List.perm_append_comm_assoc ..
    _ |>.Perm (new' ++ (s ++ q.held)) := hperm.append_left _
    _ |>.Perm (s ++ (new' ++ q.held)) := List.perm_append_comm_assoc ..
    _ |>.Perm (s ++ (t ++ q'.held)) := hperm'.append_left _
    _ |>.Perm (s ++ t ++ q'.held) := by rw [List.append_assoc]

end Reaches

theorem slots_section {attributes content}
    (h : PutAside name start contentStart attributes content p n q) :
    n.slots = attributes.flatMap Node.slots := by
  cases h <;> simp [styleNode, scriptNode, Node.slotsOfFields]

theorem PutAside.reaches {attributes content}
    (haside : PutAside name start contentStart attributes content q n q')
    (h : Passes r p (attributes.flatMap Node.slots) q) : Reaches r true p [] q' := by
  have hsites : q'.sites = q.sites := by cases haside <;> rfl
  obtain ⟨hcursor, hsections, -⟩ := haside.spec
  refine ⟨⟨attributes.flatMap Node.slots, ?_, ?_⟩, nofun⟩
  · have hsame : q.hold q' = q' := by rw [Progress.hold, ← hcursor, ← hsites]
    rw [← hsame]
    exact h.hold q'
  · rw [List.nil_append, Progress.held, Progress.held, ← Progress.sections_of_aside h.aside,
      ← slots_section haside]
    refine .trans List.perm_append_comm ?_
    simpa using (hsections.flatMap_right Node.slots).symm

theorem leads_topLevelElement (h : Standing r p) (hstart : r.Refusal start) :
    Leads r (topLevelElement name start) p fun _ q => Reaches r true p [] q := by
  unfold topLevelElement
  refine (leads_attributes h).bind ?_
  rintro attributes q ⟨h, -⟩
  refine (leads_openEnd h).bind fun closed q h => leads_here.mpr ?_
  refine (leads_topLevelContent h hstart).bind fun content q h => ?_
  rw [leads_ite]
  refine ⟨fun hname => ?_, fun hname => ?_⟩
  · simp only [styleElement, leads_get]
    rw [leads_ite]
    refine ⟨fun _ => leads_refuse_bind hstart, fun hnone => ?_⟩
    exact ⟨rfl, (PutAside.style hname (by simpa using hnone)).reaches h⟩
  · simp only [scriptElement, leads_get]
    rw [leads_ite]
    refine ⟨fun _ => leads_refuse_bind hstart, fun hnone => ?_⟩
    refine (leads_finish.mpr ⟨rfl, rfl⟩ : Leads r _ q fun n q' =>
      n = scriptNode start q.cursor.offset _ attributes content ∧ q' = q).bind ?_
    rintro _ _ ⟨rfl, rfl⟩
    rw [leads_ite]
    refine ⟨fun hmodule => ?_, fun hmodule => ?_⟩
    · exact ⟨rfl, (PutAside.moduleScript hname hmodule (by simpa [hmodule] using hnone)).reaches h⟩
    · simp only [Bool.not_eq_true] at hmodule
      exact ⟨rfl, (PutAside.instanceScript hname hmodule (by simpa [hmodule] using hnone)).reaches h⟩

/-- The rule is read further, past what it notes. -/
def Advances (r : Terms) (topLevel : Bool) (p : Progress) (o : Option Node) (q : Progress) : Prop :=
  Reaches r topLevel p (o.toList.flatMap Node.slots) q ∧ q.cursor.rest.length < p.cursor.rest.length

theorem Reaches.advances {o : Option Node} (h : Standing r p) (hne : p.cursor.rest ≠ []) (hk : 0 < k)
    (hq : Reaches r topLevel (p.goTo (p.cursor.skip k)) (o.toList.flatMap Node.slots) q) :
    Advances r topLevel p o q :=
  ⟨((Passes.refl h).skip k).reaches.trans hq, Nat.lt_of_le_of_lt hq.length_le (length_skip_lt hne hk)⟩

theorem leads_tag {content : Content} {cs : List Char}
    (hcontent : Delivers r p.cursor.rest.length content) (h : Standing r p)
    (hrest : p.cursor.rest = '<' :: cs) :
    Leads r (tag content topLevel parent) p fun o q =>
      Advances r topLevel p o q := by
  have hne : p.cursor.rest ≠ [] := by simp [hrest]
  have hoffset : (p.cursor.skip 1).offset = p.cursor.offset + 1 := by
    rw [Cursor.offset_skip, hrest]
    rfl
  have hopen := ((Passes.refl h).skip 1).ends
  simp only [tag, leads_here, leads_skip, leads_readWhile]
  rw [leads_ite]
  refine ⟨fun _ => leads_refuse_bind (hoffset ▸ hopen.border), fun _ => ?_⟩
  generalize (p.goTo (p.cursor.skip 1)).cursor.rest.takeWhile _ = name
  have hname := (Passes.refl hopen).skip name.length
  have hlength := Nat.lt_of_le_of_lt hname.length_le (length_skip_lt hne Nat.one_pos)
  rw [leads_ite]
  refine ⟨fun htop => ?_, fun _ => ?_⟩
  · obtain rfl : topLevel = true := by simp_all
    refine (leads_topLevelElement hname.ends h.border).bind fun _ q hq => leads_pure.mpr ?_
    exact (hname.reaches.trans hq).advances h hne Nat.one_pos
  · refine (leads_element hcontent hname.ends hlength h.border).bind fun n q hq => leads_pure.mpr ?_
    exact Reaches.advances h hne Nat.one_pos (by simpa using (hname.trans hq).reaches)

theorem leads_comment (h : Standing r p) (hnext : startsWith "<!--".toList p.cursor.rest) :
    Leads r comment p fun n q => Advances r topLevel p (some n) q := by
  have hne : p.cursor.rest ≠ [] := by
    rintro hnil
    simp [hnil, startsWith] at hnext
  simp only [comment, leads_here, leads_skip]
  refine (leads_readUpTo? (Passes.refl ((Passes.refl h).skip 4).ends)).bind fun o q hq => ?_
  cases o with
  | none => exact leads_refuse h.border
  | some data =>
    refine leads_skip.mpr (leads_finish.mpr (Reaches.advances h hne (Nat.succ_pos 3) ?_))
    simpa using (hq.skip 3).reaches

theorem leads_text (h : Standing r p) (hne : p.cursor.rest ≠ [])
    (hnext : p.cursor.rest.head?.all fun d => d != '<' && d != '{') :
    Leads r text p fun n q => Advances r topLevel p (some n) q := by
  refine leads_here.mpr (leads_readWhile.mpr (leads_pure.mpr ?_))
  have hhead := List.head?_eq_some_head hne
  have hpos : 0 < (p.cursor.rest.takeWhile fun d => d != '<' && d != '{').length :=
    length_takeWhile_pos hhead (by simpa [hhead] using hnext)
  refine Reaches.advances h hne hpos ?_
  simpa [slots_textNode] using (Passes.refl ((Passes.refl h).skip _).ends).reaches

theorem leads_siblings {fuel} (h : Standing r p) (hlt : p.cursor.rest.length < fuel) :
    Leads r (siblings fuel topLevel parent) p fun c q =>
      Reaches r topLevel p (c.1.flatMap Node.slots) q ∧ c.2.At q.cursor.offset := by
  induction fuel generalizing topLevel parent p with
  | zero => exact absurd hlt (Nat.not_lt_zero _)
  | succ fuel ih =>
    have hcontent : Delivers r p.cursor.rest.length (siblings fuel false) := by
      intro kind q hq hshort
      refine (ih hq (by omega)).weaken ?_
      rintro c q' ⟨hreaches, hending⟩
      exact ⟨hreaches.passes, hending⟩
    have hrest {x : Read (Option Node)} (hx : Leads r x p fun o q => Advances r topLevel p o q) :
        Leads r (x >>= fun o => siblings fuel topLevel parent >>= fun c => pure (o.toList ++ c.1, c.2)) p
          fun c q => Reaches r topLevel p (c.1.flatMap Node.slots) q ∧ c.2.At q.cursor.offset := by
      refine hx.bind ?_
      rintro o q ⟨hreaches, hshort⟩
      refine (ih hreaches.ends (by omega)).bind ?_
      rintro ⟨nodes, ending⟩ q' ⟨hmore, hending⟩
      refine leads_pure.mpr ⟨?_, hending⟩
      rw [List.flatMap_append]
      exact hreaches.trans hmore
    have hnext := startsNext p.cursor
    simp only [siblings, next_eq, bind_assoc, pure_bind, leads_cursor]
    generalize nextAt p.cursor = found at hnext ⊢
    cases hnext with
    | ends hends =>
      refine leads_pure.mpr ⟨(Passes.refl h).reaches, ?_⟩
      cases hends <;> simp [Ending.At]
    | comment hstarts => exact hrest (leads_map (leads_comment h hstarts))
    | tag hstarts => exact hrest (leads_tag hcontent h hstarts)
    | mustache hstarts =>
      refine hrest (leads_map ((leads_mustache hcontent h (by simp [hstarts]) (by omega)).weaken ?_))
      rintro n q ⟨hn, hshort⟩
      exact ⟨by simpa using hn.reaches, hshort⟩
    | text hne hstarts => exact hrest (leads_map (leads_text h hne hstarts))

theorem leads_fragment (h : Standing r p) :
    Leads r fragment p fun n q => Reaches r true p n.slots q := by
  refine leads_cursor.mpr ((leads_siblings h (Nat.lt_succ_self _)).bind ?_)
  rintro ⟨nodes, ending⟩ q ⟨hreaches, hending⟩
  cases ending with
  | endOfText => exact leads_pure.mpr (by simpa using hreaches)
  | _ =>
    cases hending
    exact leads_refuse hreaches.ends.border

theorem standing_start (r : Terms) : Standing r { cursor := .ofText r.source } :=
  ⟨Cursor.in_ofText r.source, nofun⟩

/-- The expressions that are noted for the analysis of variables are those of the tree, each of them
once and in the order of the text. Patterns and scripts are not among them. -/
theorem parse_notes_expressions {parser : ScriptParser} {source : List Char} {parsed : Parsed}
    (h : parse parser source = .ok parsed) :
    (parsed.sites.expressions.map Span.start).Pairwise (· < ·) ∧
      (parsed.sites.expressions.map Span.start).Perm (parsed.template.roots.flatMap Node.slots) := by
  let r : Terms := ⟨source, parser, parser, fun _ _ _ _ => rfl, fun _ => True, fun _ => trivial,
    fun _ _ _ _ _ _ => trivial⟩
  obtain ⟨⟨html, p⟩, hrun, hparsed⟩ := Run.bind_eq_ok.mp h
  cases hparsed
  have hreaches := (leads_fragment (standing_start r)).2
  rw [show fragment ⟨r.source, r.parser⟩ { cursor := .ofText r.source } = .ok (html, p) from hrun]
    at hreaches
  obtain ⟨new, hpass, hperm⟩ := hreaches.noted
  obtain ⟨noted, hnoted, hnew, hsorted, -⟩ := hpass.noted
  replace hnoted : p.sites.expressions.map Span.start = noted := hnoted
  replace hperm : (new ++ []).Perm (html.slots ++ p.held) := hperm
  rw [List.append_nil] at hperm
  rw [hnoted]
  exact ⟨hsorted, hnew.trans hperm⟩

/-- An each block in an element with a `let:`. Its context and the target are not noted. -/
theorem parse_notes_expressions_mixed :
    let source := "a\x7bb\x7d<c let:d e=\x7bf\x7d>\x7b#each g as h (i)\x7d\x7bj\x7d\x7b/each\x7d</c>".toList
    ∃ parsed, parse Program.wordParser source = .ok parsed ∧
      parsed.sites.expressions.map Span.start = [2, 16, 26, 34, 38] ∧
      (parsed.sites.expressions.map Span.start).Pairwise (· < ·) ∧
      (parsed.sites.expressions.map Span.start).Perm (parsed.template.roots.flatMap Node.slots) := by
  intro source
  have hrun : (parse Program.wordParser source).toOption.map
      (fun parsed => parsed.sites.expressions.map Span.start) = some [2, 16, 26, 34, 38] := by
    decide +kernel
  obtain ⟨parsed, hparsed, hstarts⟩ := Option.map_eq_some_iff.mp hrun
  rw [Run.toOption_eq_some] at hparsed
  exact ⟨parsed, hparsed, hstarts, parse_notes_expressions hparsed⟩

theorem parse_congr {parser other : ScriptParser} {source : List Char}
    (h : ∀ start stop assignable, Border source start → Border source stop → start < stop →
      other.expressionAt source start stop assignable = parser.expressionAt source start stop assignable) :
    parse other source = parse parser source := by
  let r : Terms := ⟨source, parser, other, fun hstart hstop hlt _ => h _ _ _ hstart hstop hlt,
    fun _ => True, fun _ => trivial, fun _ _ _ _ _ _ => trivial⟩
  have hrun : fragment ⟨source, other⟩ { cursor := .ofText source } =
      fragment ⟨source, parser⟩ { cursor := .ofText source } := (leads_fragment (standing_start r)).1
  exact congrArg (· >>= _) hrun

/-- A template is read in full with one round for each of its characters and one more. If it is
refused, it is at a border, where the error has a position. Only parts of the source between two borders
are parsed as scripts: with a parser that takes those alike, all is the same. It is also the same when
the bytes of the source are scanned, and then nothing is cut inside a character or behind the end. -/
theorem parse_refuses_at_border {parser : ScriptParser} {source : List Char}
    (hparser : ∀ start stop assignable e, Border source start → Border source stop → start < stop →
      parser.expressionAt source start stop assignable = .error e → Border source e.offset) :
    (∀ rounds > source.length, ∀ p, siblings rounds true "Fragment" ⟨source, parser⟩
      { cursor := .ofText source } ≠ exhausted ⟨source, parser⟩ p) ∧
    (∀ e, parse parser source = .error e → Border source e.offset ∧ e.offset ≤ byteLength source ∧
      ∃ s : SyntaxError, e.toError (.ofText source) = .malformed s ∧ s.offset = e.offset) ∧
    (∀ other : ScriptParser,
      (∀ start stop assignable, Border source start → Border source stop → start < stop →
        other.expressionAt source start stop assignable =
          parser.expressionAt source start stop assignable) →
      parse other source = parse parser source) ∧
    @parse byBytes parser source = parse parser source ∧
      ∀ p, @parse byBytes parser source ≠ (torn ⟨source, parser⟩ p).map Prod.fst := by
  let r : Terms := ⟨source, parser, parser, fun _ _ _ _ => rfl, Border source, id,
    fun hstart hstop hlt _ _ he => hparser _ _ _ _ hstart hstop hlt he⟩
  have hrefused (e : CompileError) (he : parse parser source = .error e) : Border source e.offset := by
    obtain hrun | ⟨_, -, hpure⟩ := Run.bind_eq_error.mp he
    · have hborder := (leads_fragment (standing_start r)).2
      rwa [show fragment ⟨r.source, r.parser⟩ _ = .error e from hrun] at hborder
    · cases hpure
  refine ⟨fun rounds hrounds p hrun => ?_, fun e he => ?_, fun other hother => parse_congr hother,
    parse_byBytes parser source, fun p hrun => ?_⟩
  · have hborder := (@leads_siblings r _ "Fragment" true rounds (standing_start r) hrounds).2
    rw [show siblings rounds true "Fragment" ⟨r.source, r.parser⟩ _ = _ from hrun] at hborder
    exact Nat.not_succ_le_self _ (Border.le hborder)
  · have hborder := hrefused e he
    obtain ⟨s, hs, hoffset, -⟩ := error_at_border hborder (e.code ++ ": " ++ e.message) .compiler
    exact ⟨hborder, hborder.le, s, hs, hoffset⟩
  · rw [parse_byBytes] at hrun
    exact Nat.not_succ_le_self _ (hrefused _ hrun).le

/-- A parser that refuses every script where it starts, at a script after a character of two bytes. -/
theorem parse_refuses_at_border_accent :
    let source := "é<b>\x7bx\x7d</b>".toList
    let parser : ScriptParser :=
      ⟨fun _ start _ _ => .error ⟨"Unexpected token", start⟩, fun _ start _ => .error ⟨"Unexpected token", start⟩⟩
    ∃ e, parse parser source = .error e ∧ e.offset = 6 ∧ Border source e.offset ∧
      e.offset ≤ byteLength source ∧
      (∃ s : SyntaxError, e.toError (.ofText source) = .malformed s ∧ s.offset = e.offset) ∧
      @parse byBytes parser source = .error e := by
  intro source parser
  obtain ⟨-, herror, -, hbytes, -⟩ := @parse_refuses_at_border parser source fun start stop _ e hstart _ _ he => by
    cases he
    exact hstart
  have hrun : (parse parser source).map (fun _ => ()) =
      .error ⟨"parse-error", "Unexpected token", 6⟩ := by decide +kernel
  cases hparse : parse parser source with
  | ok parsed => simp [hparse, Except.map] at hrun
  | error e =>
    rw [hparse] at hrun
    cases hrun
    obtain ⟨hborder, hle, hs⟩ := herror _ hparse
    exact ⟨_, rfl, rfl, hborder, hle, hs, hbytes.trans hparse⟩

end SvelteSyntax.Markup
