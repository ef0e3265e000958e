import SvelteSyntax.Proofs.Markup.Noted
import SvelteSyntax.Proofs.Markup.Rules.Tags

namespace SvelteSyntax.Markup

open Text Script

variable {r : Terms} {p q q' : Progress} {s : List Nat} {start stop x : Nat} {name kind : String}
  {value : Option (List Node)} {rest : List Char}

/-- If a value is nothing but an expression, the expression is all that is noted for it. -/
def Sole (r : Terms) (chunks : List Node) : Prop :=
  ∀ e, soleExpression? chunks = some e → Slot r e ∧ chunks.flatMap Node.slots = [e.start]

theorem sole_of_forall {chunks} (h : ∀ n ∈ chunks, Sole r [n]) : Sole r chunks := by
  rcases chunks with _ | ⟨n, _ | _⟩
  · exact nofun
  · exact h n (by simp)
  · exact nofun

theorem leads_valueMustache (h : Standing r p) :
    Leads r valueMustache p fun n q =>
      Passes r p n.slots q ∧ Sole r [n] ∧ q.cursor.rest.length ≤ p.cursor.rest.length - 1 := by
  simp only [valueMustache, leads_here, leads_skip]
  have hopen := (Passes.refl h).skip 1
  refine (leads_expressionToBrace hopen.ends).bind ?_
  rintro e q ⟨hpass, hslot⟩
  refine leads_finish.mpr ⟨by simpa using hopen.trans hpass, ?_, by simpa [Cursor.rest_skip] using hpass.length_le⟩
  rintro e' he'
  obtain rfl : e = e' := by
    simpa [soleExpression?, Node.is, Node.child?, Node.get?, Fields.get?, Value.toNode?] using he'
  exact ⟨hslot, by simpa using hslot.slots⟩

theorem slots_textNode (start : Nat) (cs : List Char) : (textNode start cs).slots = [] := by
  simp [textNode]

theorem sole_textNode (start : Nat) (cs : List Char) : Sole r [textNode start cs] := by
  simp [Sole, soleExpression?, Node.is, textNode]

theorem length_skip_lt {c : Cursor} {k : Nat} (hne : c.rest ≠ []) (hk : 0 < k) :
    (c.skip k).rest.length < c.rest.length := by
  have := List.length_pos_iff.mpr hne
  rw [Cursor.rest_skip, List.length_drop]
  omega

theorem leads_quotedValue {quote} (h : Standing r p) (hstart : r.Refusal start) :
    Leads r (quotedValue start quote) p fun chunks q =>
      Passes r p (chunks.flatMap Node.slots) q ∧ Sole r chunks := by
  refine (leads_many (P := fun n => Sole r [n]) (fun q hq => ?_) h).bind ?_
  · rw [valueChunk, leads_peek?]
    split
    · exact leads_refuse hstart
    · next hhead =>
      refine (leads_valueMustache hq).bind ?_
      rintro n q' ⟨hpass, hsole, hlength⟩
      refine leads_pure.mpr ⟨by simpa using hpass, ?_⟩
      rintro _ ⟨⟩
      have := List.length_pos_of_mem (List.mem_of_head? hhead)
      exact ⟨hsole, by omega⟩
    · next d hd hhead =>
      simp only [leads_ite, leads_pure, textWhile, leads_here, bind_assoc, pure_bind, leads_readWhile]
      refine ⟨fun _ => ⟨.refl hq, by simp⟩, fun hne => ⟨?_, ?_⟩⟩
      · simpa [slots_textNode] using (Passes.refl hq).skip _
      rintro _ ⟨⟩
      have hstop : (d != quote && d != '{') = true := by simpa using ⟨hne, hd⟩
      have hrest := List.ne_nil_of_mem (List.mem_of_head? hhead)
      exact ⟨sole_textNode _ _, length_skip_lt hrest (length_takeWhile_pos hhead hstop)⟩
  · rintro chunks q ⟨hpass, hsole⟩
    exact leads_skip.mpr (leads_pure.mpr ⟨hpass.skip 1, sole_of_forall hsole⟩)

theorem leads_attributeValue (h : Standing r p) :
    Leads r attributeValue p fun chunks q =>
      Passes r p (chunks.flatMap Node.slots) q ∧ Sole r chunks := by
  have hquoted (quote : Char) :
      Leads r (quotedValue p.cursor.offset quote)
        (p.goTo (p.cursor.skip 1)) fun chunks q =>
          Passes r p (chunks.flatMap Node.slots) q ∧ Sole r chunks := by
    have hopen := (Passes.refl h).skip 1
    refine (leads_quotedValue hopen.ends h.border).weaken ?_
    rintro chunks q ⟨hpass, hsole⟩
    exact ⟨by simpa using hopen.trans hpass, hsole⟩
  simp only [attributeValue, leads_here, leads_peek?]
  split
  · exact leads_skip.mpr (hquoted _)
  · exact leads_skip.mpr (hquoted _)
  · refine (leads_valueMustache h).bind ?_
    rintro n q ⟨hpass, hsole, -⟩
    exact leads_pure.mpr ⟨by simpa using hpass, hsole⟩
  · simp only [leads_readWhile, leads_ite, leads_pure]
    refine ⟨fun _ => leads_refuse_bind h.border, fun _ => ⟨?_, sole_textNode _ _⟩⟩
    simpa [slots_textNode] using (Passes.refl h).skip _

def Exposes (r : Terms) (n : Node) : Prop :=
  n.is "Attribute" → ∀ e, soleExpression? (n.children "value") = some e → Slot r e ∧ n.slots = [e.start]

theorem leads_braceAttribute (h : Standing r p) (hhead : p.cursor.rest.head? = some '{') :
    Leads r braceAttribute p fun n q =>
      Passes r p n.slots q ∧ Exposes r n ∧ q.cursor.rest.length < p.cursor.rest.length := by
  have hpos := List.length_pos_of_mem (List.mem_of_head? hhead)
  have hle := p.cursor.offset_le_skip 1
  have hin := h.inside.skip 1
  simp only [braceAttribute, trimIn_eq, pure_bind, leads_here, leads_skip, leads_pass, leads_scriptUpTo,
    leads_cursor, leads_ite]
  simp only [Progress.cursor_goTo, Progress.goTo_goTo]
  refine ⟨fun _ => leads_refuse_bind h.border, fun hne => ?_⟩
  obtain ⟨d, -, tail, hrest⟩ := split_of_takeUntil rfl hne
  generalize Balanced.takeUntil _ _ _ = text at hrest ⊢
  obtain ⟨after, htext, -⟩ := exists_trim_append text
  have hlength := congrArg byteLength htext
  simp only [trimmed]
  generalize text.takeWhile isMarkupBlank = gap at htext hlength ⊢
  generalize trim isMarkupBlank text = inner at htext hlength ⊢
  simp only [byteLength_append] at hlength
  have hgap : (p.cursor.skip 1).rest = gap ++ (inner ++ (after ++ d :: tail)) := by
    rw [hrest, htext]
    simp
  -- The braces are passed before the expression in them is noted.
  have hpass {x : Nat} {q : Progress}
      (hnotes : Notes (p.goTo ((p.cursor.skip 1).skip (text.length + 1))) x q)
      (hx : p.cursor.offset ≤ x) (hlt : x < (p.cursor.skip 1).offset + byteLength text) :
      Passes r p [x] q ∧ q.cursor.rest.length < p.cursor.rest.length := by
    have hcursor : q.cursor = (p.cursor.skip 1).skip (text.length + 1) := hnotes.cursor
    refine ⟨(Passes.refl h).note ⟨_, hcursor.trans (Cursor.skip_skip ..)⟩ hnotes.aside hnotes.starts hx ?_, ?_⟩
    · rw [hcursor, ← Cursor.skip_skip]
      rw [← Cursor.offset_skip_length hrest] at hlt
      exact Nat.lt_of_lt_of_le hlt (Cursor.offset_le_skip ..)
    · simp only [hcursor, Cursor.rest_skip, List.length_drop]
      omega
  refine ⟨fun hdots => ?_, fun _ => ⟨fun _ => ?_, fun _ => ?_⟩⟩
  · obtain ⟨spread, rfl⟩ := startsWith_iff.mp hdots
    have hspread : (p.cursor.skip 1).rest = (gap ++ "...".toList) ++ (spread ++ (after ++ d :: tail)) := by
      rw [hgap]
      simp
    refine (leads_expression _ hin hspread (by rw [byteLength_append, Nat.add_assoc]; rfl)).bind ?_
    rintro e q ⟨hslot, hfirst, hlast, hnotes⟩
    rw [byteLength_append, show byteLength "...".toList = 3 from rfl] at hlength
    obtain ⟨hpass, hshorter⟩ := hpass hnotes (by omega) (by omega)
    refine leads_finish.mpr ⟨by simpa [hslot.slots] using hpass, fun hkind => ?_, hshorter⟩
    exact absurd hkind (by simp [Node.is])
  · refine (leads_expression gap hin hgap rfl).bind ?_
    rintro e q ⟨hslot, hfirst, hlast, hnotes⟩
    obtain ⟨hpass, hshorter⟩ := hpass hnotes (by omega) (by omega)
    refine leads_finish.mpr ⟨by simpa [hslot.slots] using hpass, fun _ e' he' => ?_, hshorter⟩
    simp [Node.children, Node.get?, Fields.get?, soleExpression?, Node.is] at he'
  · exact leads_refuse_bind (r.border (border_append_rest hin hgap))

theorem Passes.starts_eq (h : Passes r p [x] q) : q.starts = p.starts ++ [x] := by
  obtain ⟨new, hnew, hperm, -⟩ := h.noted
  rw [hnew, List.perm_singleton.mp hperm]

/-- The note of an expression that turns out to be a pattern is taken back. -/
theorem Passes.drop (h : Passes r p [x] q) :
    Leads r (dropExpression x) q fun _ q' => Passes r p [] q' ∧ q'.cursor = q.cursor := by
  have hbefore : ∀ y ∈ p.starts, y ≠ x := by
    obtain ⟨new, -, hperm, -, hbounds⟩ := h.noted
    rw [List.perm_singleton.mp hperm] at hbounds
    have hx := (hbounds x (by simp)).1
    intro y hy
    have := h.begins.before y hy
    omega
  refine ⟨rfl, ⟨h.begins, h.moved, h.aside, [], ?_, .nil, .nil, nofun⟩, rfl⟩
  have hfilter : q.starts.filter (· ≠ x) = p.starts := by
    rw [h.starts_eq, List.filter_append, List.filter_eq_self.mpr (by simpa using hbefore)]
    simp
  rw [List.append_nil, ← hfilter, Progress.starts, Progress.starts, List.filter_map]
  rfl

theorem leads_directiveExpression {nameSpan} (h : Passes r p ((value.getD []).flatMap Node.slots) q)
    (hsole : ∀ chunks ∈ value, Sole r chunks) (hstart : r.Refusal start)
    (hfirst : Border r.source nameSpan.start) (hlast : Border r.source nameSpan.stop)
    (hspan : nameSpan.start ≤ nameSpan.stop) (hle : p.cursor.offset ≤ nameSpan.start)
    (hlt : nameSpan.stop ≤ q.cursor.offset) :
    Leads r (directiveExpression kind name start stop nameSpan value) q fun o q' =>
        Passes r p (if kind = "Let" then [] else o.toList.flatMap Node.slots) q' ∧
          q'.cursor = q.cursor := by
  unfold directiveExpression
  cases value with
  | some chunks =>
    cases he : soleExpression? chunks with
    | none =>
      simp only [he]
      exact leads_refuse hstart
    | some e =>
      obtain ⟨hslot, hslots⟩ := hsole chunks rfl e he
      rw [Option.getD_some, hslots] at h
      simp only [he, leads_ite, leads_pure]
      refine ⟨fun hkind => ?_, fun hkind => ⟨by simpa [hkind, hslot.slots] using h, trivial⟩⟩
      refine h.drop.bind ?_
      rintro _ q₁ ⟨h, hcursor⟩
      refine (leads_patternAt h hslot.start hslot.stop (Nat.le_of_lt hslot.lt)).bind ?_
      rintro _ q₂ ⟨h, hcursor'⟩
      exact leads_pure.mpr ⟨by simpa [hkind] using h, hcursor'.trans hcursor⟩
  | none =>
    replace h : Passes r p [] q := h
    simp only [leads_ite, leads_pure, Bool.or_eq_true, decide_eq_true_eq]
    refine ⟨fun _ => ⟨by simpa using h, trivial⟩, fun _ => ⟨fun hkind => ?_, fun _ => ?_⟩⟩
    · refine (leads_parseSpan hfirst hlast hspan false).bind ?_
      rintro parsed _ ⟨rfl, hne⟩
      refine leads_modify.mpr (leads_pure.mpr ⟨?_, rfl⟩)
      have hlet : kind ≠ "Let" := by
        rintro rfl
        simp at hkind
      obtain ⟨new, hnew, hperm, -⟩ := h.noted
      rw [List.perm_nil.mp hperm, List.append_nil] at hnew
      suffices hpass : Passes r p [nameSpan.start] _ by simpa [hlet, Node.pending] using hpass
      refine (Passes.refl h.begins).note h.moved h.aside ?_ hle (Nat.lt_of_lt_of_le hne hlt)
      rw [← hnew]
      simp [Progress.starts]
    · refine ⟨fun _ => ?_, fun _ => ⟨by simpa using h, trivial⟩⟩
      exact (leads_declare h).bind fun _ _ hq => leads_pure.mpr ⟨by simpa using hq.1, hq.2⟩

theorem leads_directive {word} (h : Passes r p ((value.getD []).flatMap Node.slots) q)
    (hsole : ∀ chunks ∈ value, Sole r chunks) (hstart : r.Refusal start)
    (hfirst : Border r.source (directiveNameSpan start word rest).start)
    (hlast : Border r.source (directiveNameSpan start word rest).stop)
    (hle : p.cursor.offset ≤ (directiveNameSpan start word rest).start)
    (hlt : (directiveNameSpan start word rest).stop ≤ q.cursor.offset)
    (hkind : kind ∈ directiveKinds) :
    Leads r (directive kind word rest start stop value) q
      fun n q' => Passes r p n.slots q' ∧ Exposes r n ∧ q'.cursor = q.cursor := by
  simp only [directive, ← apply_ite pure]
  refine (leads_directiveExpression h hsole hstart hfirst hlast (Nat.le_add_right ..) hle hlt).bind ?_
  rintro o q' ⟨h, hcursor⟩
  have hnode : (directiveNode kind word rest start stop o).slots =
      (if kind = "Let" then [] else o.toList.flatMap Node.slots) ∧
        Exposes r (directiveNode kind word rest start stop o) := by
    have hne : kind ≠ "Attribute" := by
      rintro rfl
      simp [directiveKinds] at hkind
    simp only [directiveNode, Exposes, Node.is]
    split <;> cases o <;> simp_all [Node.set, Fields.set, Value.ofOption]
  rw [← hnode.1] at h
  split
  · cases o with
    | some e =>
      refine leads_modify.mpr (leads_pure.mpr ⟨?_, hnode.2, hcursor⟩)
      exact h.still ⟨0, (Cursor.skip_zero _).symm⟩ rfl rfl
    | none => exact leads_pure.mpr ⟨h, hnode.2, hcursor⟩
  · exact leads_pure.mpr ⟨h, hnode.2, hcursor⟩

/-- The name of a directive is a part of the name of the attribute. -/
theorem directiveNameSpan_in {c : Cursor} {name word tail : List Char} (hc : c.In r.source)
    (hrest : c.rest = name ++ tail) (hcolon : splitColon? name = some (word, rest)) :
    Border r.source (directiveNameSpan c.offset word rest).start ∧
      Border r.source (directiveNameSpan c.offset word rest).stop ∧
      c.offset ≤ (directiveNameSpan c.offset word rest).start ∧
      (directiveNameSpan c.offset word rest).stop ≤ (c.skip name.length).offset := by
  rw [Cursor.offset_skip_length hrest]
  obtain ⟨rfl, -⟩ := splitColon?_eq_some hcolon
  obtain ⟨more, hmore⟩ : ∃ more, rest = directiveName rest ++ more := by
    obtain ⟨hparts, hne⟩ := intercalate_splitOn '|' rest
    obtain ⟨part, parts, hsplit⟩ := List.exists_cons_of_ne_nil hne
    rw [hsplit] at hparts
    cases parts with
    | nil => exact ⟨[], by simpa [directiveName, hsplit] using hparts.symm⟩
    | cons next parts =>
      rw [List.intercalate_cons_cons] at hparts
      exact ⟨_, by simpa [directiveName, hsplit] using hparts.symm⟩
  have hlength : byteLength rest = byteLength (directiveName rest) + byteLength more := by
    rw [← byteLength_append, ← hmore]
  have hword : c.rest = (word ++ [':']) ++ (directiveName rest ++ (more ++ tail)) := by
    rw [hrest, ← List.append_assoc (directiveName rest), ← hmore]
    simp
  have hname : c.rest = ((word ++ [':']) ++ directiveName rest) ++ (more ++ tail) := by
    rw [hword]
    simp
  have hfirst := border_append_rest hc hword
  have hlast := border_append_rest hc hname
  have hcolon : byteLength [':'] = 1 := rfl
  simp only [byteLength_append, hcolon] at hfirst hlast
  simp only [directiveNameSpan, spanOf, byteLength_append, byteLength_cons]
  refine ⟨by rwa [Nat.add_assoc], by simpa only [Nat.add_assoc] using hlast, by omega, ?_⟩
  have hone : Char.utf8Size ':' = 1 := rfl
  omega

theorem leads_namedAttribute (h : Standing r p) :
    Leads r namedAttribute p fun n q =>
      Passes r p n.slots q ∧ Exposes r n ∧ q.cursor.rest.length < p.cursor.rest.length := by
  simp only [namedAttribute, leads_here, leads_readWhile, leads_ite]
  refine ⟨fun _ => leads_refuse_bind h.border, fun hne => ?_⟩
  obtain ⟨tail, hrest, -⟩ := split_at_blankOr ['=', '/', '>', '"', '\'', '{'] p.cursor.rest
  generalize p.cursor.rest.takeWhile _ = name at hne hrest ⊢
  have hname := (Passes.refl h).skip name.length
  have hshort : (p.cursor.skip name.length).rest.length < p.cursor.rest.length := by
    rw [Cursor.rest_skip_length hrest, hrest, List.length_append]
    have := List.length_pos_iff.mpr (by simpa using hne)
    omega
  refine (leads_eat (.refl hname.ends)).bind fun b q hq => ?_
  -- What the value is, if there is one, and what is noted for it.
  let Value (value : Option (List Node)) (q' : Progress) : Prop :=
    Passes r (p.goTo (p.cursor.skip name.length)) ((value.getD []).flatMap Node.slots) q' ∧
      ∀ chunks ∈ value, Sole r chunks
  rw [leads_ite]
  refine ⟨fun _ => Leads.bind (Q := Value) ?_ fun value q' hvalue => ?_,
    fun _ => Leads.bind (Q := Value) (leads_pure.mpr ⟨hq, by simp⟩) fun value q' hvalue => ?_⟩
  · refine leads_map ((leads_attributeValue hq.ends).weaken ?_)
    rintro chunks q' ⟨hpass, hsole⟩
    refine ⟨by simpa using hq.trans hpass, ?_⟩
    rintro _ ⟨⟩
    exact hsole
  all_goals
    obtain ⟨hpass, hsole⟩ := hvalue
    have hnamed : Passes r p ((value.getD []).flatMap Node.slots) q' := by simpa using hname.trans hpass
    have hplain : Passes r p (plainAttribute name p.cursor.offset q'.cursor.offset value).slots q' ∧
        Exposes r (plainAttribute name p.cursor.offset q'.cursor.offset value) ∧
        q'.cursor.rest.length < p.cursor.rest.length := by
      refine ⟨?_, ?_, Nat.lt_of_le_of_lt hpass.length_le hshort⟩
      · cases value <;> simpa [plainAttribute] using hnamed
      · rintro - e he
        cases value with
        | none => simp [plainAttribute, Node.children, Node.get?, Fields.get?, soleExpression?] at he
        | some chunks =>
          obtain ⟨hslot, hslots⟩ := hsole chunks rfl e
            (by simpa [plainAttribute, Node.children, Node.get?, Fields.get?] using he)
          exact ⟨hslot, by simpa [plainAttribute] using hslots⟩
    rw [leads_here]
    split
    · exact leads_pure.mpr hplain
    · next word rest hcolon =>
      split
      · exact leads_pure.mpr hplain
      · next kind hkind =>
        obtain ⟨hfirst, hlast, hle, hlt⟩ := directiveNameSpan_in h.inside hrest hcolon
        refine (leads_directive hnamed hsole h.border hfirst hlast hle
          (Nat.le_trans hlt hpass.offset_le) (directiveKind?_mem hkind)).weaken ?_
        rintro n q'' ⟨hn, hexposes, hcursor⟩
        exact ⟨hn, hexposes, hcursor ▸ Nat.lt_of_le_of_lt hpass.length_le hshort⟩

theorem leads_attributes (h : Standing r p) :
    Leads r attributes p fun ns q =>
      Passes r p (ns.flatMap Node.slots) q ∧ ∀ n ∈ ns, Exposes r n := by
  refine leads_many (fun q hq => ?_) h
  have hgap := (Passes.refl hq).skip (blanks q.cursor.rest)
  have hround {n : Node} {q' : Progress}
      (hn : Passes r (q.goTo (q.cursor.skip (blanks q.cursor.rest))) n.slots q' ∧ Exposes r n ∧
        q'.cursor.rest.length < (q.cursor.skip (blanks q.cursor.rest)).rest.length) :
      Passes r q ((some n).toList.flatMap Node.slots) q' ∧
        ∀ m ∈ some n, Exposes r m ∧ q'.cursor.rest.length < q.cursor.rest.length := by
    refine ⟨by simpa using hgap.trans hn.1, ?_⟩
    rintro _ ⟨⟩
    exact ⟨hn.2.1, Nat.lt_of_lt_of_le hn.2.2 hgap.length_le⟩
  simp only [leads_skipBlanks, leads_peek?]
  split
  · exact leads_here.mpr (leads_refuse hgap.ends.border)
  · exact leads_pure.mpr ⟨hgap, by simp⟩
  · next hhead => exact (leads_braceAttribute hgap.ends hhead).bind fun _ _ hn => leads_pure.mpr (hround hn)
  · simp only [leads_atText, leads_ite, leads_pure]
    refine ⟨fun _ => ⟨hgap, by simp⟩, fun _ => ?_⟩
    exact (leads_namedAttribute hgap.ends).bind fun _ _ hn => leads_pure.mpr (hround hn)

theorem leads_openEnd (h : Passes r p s q) :
    Leads r openEnd q fun _ => Passes r p s := by
  refine (leads_eat h).bind fun b q h => leads_ite.mpr ⟨fun _ => leads_pure.mpr h, fun _ => ?_⟩
  exact (leads_expect h).bind fun _ q h => leads_pure.mpr h

theorem leads_closeTag (h : Passes r p s q) :
    Leads r (closeTag name) q fun _ => Passes r p s :=
  (leads_expect h).bind fun _ _ h => (leads_expect h).bind fun _ _ h =>
    leads_skipBlanks.mpr (leads_expect (h.skip _))

theorem leads_topLevelContent {closed} (h : Passes r p s q) (hstart : r.Refusal start) :
    Leads r (topLevelContent name start closed) q
      fun _ => Passes r p s := by
  refine leads_ite.mpr ⟨fun _ => leads_pure.mpr h, fun _ => ?_⟩
  refine (leads_readUpTo? h).bind fun o q h => ?_
  cases o with
  | none => exact leads_refuse hstart
  | some content => exact (leads_closeTag h).bind fun _ _ h => leads_pure.mpr h

theorem leads_rawChildren (h : Passes r p s q) (hstart : r.Refusal start) :
    Leads r (rawChildren name start) q fun ns q' =>
      Passes r p (s ++ ns.flatMap Node.slots) q' := by
  simp only [rawChildren, leads_here]
  refine (leads_readUpTo? h).bind fun o q h => ?_
  cases o with
  | none => exact leads_refuse hstart
  | some data =>
    refine (leads_closeTag h).bind fun _ _ h => leads_pure.mpr ?_
    split <;> simpa [slots_textNode] using h

/-- What a list of siblings ends at stands here. -/
def Ending.At (offset : Nat) : Ending → Prop
  | .endOfText => True
  | .closingTag _ start | .blockClose _ start | .branch _ start => start = offset

/-- The content is read in full as long as fewer than so many characters are left. -/
def Delivers (r : Terms) (length : Nat) (content : Content) : Prop :=
  ∀ {kind : String} {p : Progress}, Standing r p → p.cursor.rest.length < length →
    Leads r (content kind) p fun c q =>
      Passes r p (c.1.flatMap Node.slots) q ∧ c.2.At q.cursor.offset

variable {length : Nat} {content : Content}

theorem Delivers.after (hcontent : Delivers r length content) (h : Passes r p s q)
    (hlength : p.cursor.rest.length < length) :
    Leads r (content kind) q fun c q' =>
      Passes r p (s ++ c.1.flatMap Node.slots) q' ∧ c.2.At q'.cursor.offset :=
  (hcontent h.ends (Nat.lt_of_le_of_lt h.length_le hlength)).weaken fun _ _ hc => ⟨h.trans hc.1, hc.2⟩

theorem leads_elementChildren (hcontent : Delivers r length content) (h : Passes r p s q)
    (hlength : p.cursor.rest.length < length) (hstart : r.Refusal start) :
    Leads r (elementChildren content kind name start) q
      fun ns q' => Passes r p (s ++ ns.flatMap Node.slots) q' := by
  refine (hcontent.after h hlength).bind ?_
  rintro ⟨children, ending⟩ q ⟨h, hending⟩
  cases ending with
  | closingTag closing at_ =>
    refine leads_ite.mpr ⟨fun _ => ?_, fun _ => ?_⟩
    · exact (leads_closeTag h).bind fun _ _ h => leads_pure.mpr h
    · cases hending
      exact leads_refuse_bind h.ends.border
  | _ => exact leads_refuse hstart

/-- The expression that is taken out of the attributes is counted once. -/
theorem perm_takeThis {attributes this} (h : ∀ a ∈ attributes, Exposes r a)
    (hthis : (takeThis attributes).1 = some this) :
    (attributes.flatMap Node.slots).Perm
      (this.slots ++ (takeThis attributes).2.flatMap Node.slots) := by
  obtain ⟨a, hfind, hsole⟩ := Option.bind_eq_some_iff.mp hthis
  obtain ⟨ha, before, after, rfl, hbefore⟩ := List.find?_eq_some_iff_append.mp hfind
  obtain ⟨hkind, -⟩ := Bool.and_eq_true_iff.mp ha
  obtain ⟨hslot, hslots⟩ := h a (by simp) hkind this hsole
  simp only [Bool.not_eq_true', ← Bool.not_eq_true] at hbefore
  have herase : (takeThis (before ++ a :: after)).2 = before ++ after := by
    rw [takeThis, List.eraseP_append_right _ hbefore]
    exact congrArg (before ++ ·) (List.eraseP_cons_of_pos ha)
  rw [herase, List.flatMap_append, List.flatMap_append, List.flatMap_cons, hslots, hslot.slots]
  exact List.perm_append_comm_assoc ..

theorem elementKind_ne_let (name parent : String) : elementKind name parent ≠ "Let" := by
  unfold elementKind
  split <;> try decide
  split
  · decide
  · split <;> decide

theorem leads_element {parent} (hcontent : Delivers r length content) (h : Standing r p)
    (hlength : p.cursor.rest.length < length) (hstart : r.Refusal start) :
    Leads r (element content parent name start) p fun n q =>
      Passes r p n.slots q := by
  unfold element
  refine (leads_attributes h).bind ?_
  rintro attributes q ⟨h, hexposes⟩
  refine (leads_openEnd h).bind fun closed q h => ?_
  have hlet := elementKind_ne_let name parent
  rw [leads_ite]
  refine ⟨fun _ => ?_, fun _ => ?_⟩
  · cases hthis : (takeThis attributes).1 with
    | none =>
      simp only [hthis]
      exact leads_refuse hstart
    | some this =>
      replace h := h.perm (perm_takeThis hexposes hthis)
      simp only [hthis, leads_ite, pure_bind, leads_finish]
      refine ⟨fun _ => by simpa [hlet] using h, fun _ => ⟨fun _ => ?_, fun _ => ?_⟩⟩
      · refine (leads_rawChildren h hstart).bind fun _ _ h => leads_finish.mpr ?_
        simpa [hlet] using h
      · refine (leads_elementChildren hcontent h hlength hstart).bind fun _ _ h => leads_finish.mpr ?_
        simpa [hlet] using h
  · simp only [leads_ite, pure_bind, leads_finish]
    refine ⟨fun _ => by simpa using h, fun _ => ⟨fun _ => ?_, fun _ => ?_⟩⟩
    · refine (leads_rawChildren h hstart).bind fun _ _ h => leads_finish.mpr ?_
      simpa using h
    · refine (leads_elementChildren hcontent h hlength hstart).bind fun _ _ h => leads_finish.mpr ?_
      simpa using h

end SvelteSyntax.Markup
