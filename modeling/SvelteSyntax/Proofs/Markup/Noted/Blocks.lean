import SvelteSyntax.Proofs.Markup.Noted.Tags
import SvelteSyntax.Proofs.Markup.Rules.Blocks

namespace SvelteSyntax.Markup

open Text Script

variable {r : Terms} {p q q' : Progress} {s : List Nat} {start branch length fuel : Nat}
  {content : Content} {keyword block : String} {ending : Ending}

theorem leads_blockClose (h : Passes r p s q) :
    Leads r (blockClose keyword) q fun _ => Passes r p s :=
  (leads_expect h).bind fun _ _ h => leads_skipBlanks.mpr <| (leads_expect (h.skip _)).bind fun _ _ h =>
    (leads_expect h).bind fun _ _ h => leads_skipBlanks.mpr (leads_expect (h.skip _))

theorem leads_branchOpen (h : Passes r p s q) :
    Leads r (branchOpen keyword) q fun _ => Passes r p s :=
  (leads_expect h).bind fun _ _ h => leads_skipBlanks.mpr <| (leads_expect (h.skip _)).bind fun _ _ h =>
    leads_expect h

theorem leads_refuseEnding {α : Type} {Q : α → Progress → Prop} (h : Standing r q)
    (hending : ending.At q.cursor.offset) (hstart : r.Refusal start) :
    Leads r (refuseEnding ending block start) q Q := by
  cases ending with
  | endOfText => exact leads_refuse hstart
  | _ =>
    cases hending
    exact leads_refuse h.border

section Blocks

variable (hcontent : Delivers r length content) (hlength : p.cursor.rest.length < length)
include hcontent hlength

theorem leads_elseBranch (h : Passes r p s q) :
    Leads r (elseBranch content branch) q fun c q' =>
      Passes r p (s ++ c.1.slots) q' ∧ c.2.At q'.cursor.offset := by
  refine (leads_expect h).bind fun _ q h => (hcontent.after h hlength).bind ?_
  rintro ⟨children, ending⟩ q ⟨h, hending⟩
  exact leads_here.mpr (leads_pure.mpr ⟨by simpa [elseNode] using h, hending⟩)

def IfNoted (r : Terms) (condition : Node) (p : Progress) (n : Node) (q : Progress) : Prop :=
  ∃ t, n.slots.Perm (condition.slots ++ t) ∧ Passes r p t q

theorem leads_ifLink {link condition nested}
    (hlink : ∀ {start : Nat} {e : Node} {q : Progress}, Standing r q →
      q.cursor.rest.length < p.cursor.rest.length → r.Refusal start →
      Leads r (link start e true) q (IfNoted r e q)) (h : Standing r p) (hstart : r.Refusal start) :
    Leads r (ifLink content link start condition nested) p
      (IfNoted r condition p) := by
  refine (hcontent h hlength).bind ?_
  rintro ⟨children, ending⟩ q ⟨h, hending⟩
  -- Whatever followed, the block ends where its contents ended.
  have hclose {node : Node} {t : List Nat} {q : Progress} (stop : Nat)
      (hslots : node.slots.Perm (condition.slots ++ t)) (h : Passes r p t q) :
      Leads r (pure { node with stop }) q (IfNoted r condition p) :=
    leads_pure.mpr ⟨t, by rwa [Node.slots_with_stop], h⟩
  simp only
  split
  · refine (leads_branchOpen h).bind fun _ q h => ?_
    simp only [leads_skipBlanks, leads_cursor, leads_wordIn, leads_ite, leads_here, leads_skip]
    replace h := h.skip (blanks q.cursor.rest)
    refine ⟨fun hword => ?_, fun _ => ?_⟩
    · have hinner := h.ends.border
      have hne : (q.cursor.skip (blanks q.cursor.rest)).rest ≠ [] := by
        rintro hnil
        rw [Progress.cursor_goTo, hnil] at hword
        exact absurd hword (by decide)
      have hshort := List.length_pos_iff.mpr hne
      have hle := h.length_le
      replace h := h.skip 2
      refine (leads_expressionToBrace h.ends).bind ?_
      rintro e q' ⟨he, -⟩
      have hle' := he.length_le
      simp only [Progress.cursor_goTo, Cursor.rest_skip, List.length_drop] at hle hle' hshort
      refine (hlink he.ends (by omega) hinner).bind ?_
      rintro n q'' ⟨t, hslots, ht⟩
      simp only [leads_here, pure_bind]
      refine hclose _ ?_ (h.trans ((he.trans ht).perm hslots.symm))
      cases nested <;> simp [Node.set, Fields.set, elseNode]
    · refine (leads_elseBranch hcontent hlength h).bind ?_
      rintro ⟨other, ending⟩ q ⟨h, hending⟩
      simp only [pure_bind]
      split
      · refine hclose _ ?_ h
        cases nested <;> simp [Node.set, Fields.set]
      · exact leads_refuseEnding h.ends hending hstart
  · simp only [pure_bind]
    split
    · refine hclose _ ?_ h
      cases nested <;> simp [Node.set, Fields.set]
    · exact leads_refuseEnding h.ends hending hstart

theorem leads_ifChain {condition nested} (h : Standing r p) (hfuel : p.cursor.rest.length < fuel)
    (hstart : r.Refusal start) :
    Leads r (ifChain content fuel start condition nested)
      p (IfNoted r condition p) := by
  induction fuel generalizing p start condition nested with
  | zero => exact absurd hfuel (Nat.not_lt_zero _)
  | succ fuel ih =>
    refine leads_ifLink hcontent hlength (fun hq hshort hinner => ?_) h hstart
    exact ih (by omega) hq (by omega) hinner

theorem leads_ifBlock (h : Passes r p [] q) (hfuel : p.cursor.rest.length < fuel)
    (hstart : r.Refusal start) :
    Leads r (ifBlock content fuel start) q fun n q' =>
      Passes r p n.slots q' := by
  refine (leads_expressionToBrace h.ends).bind ?_
  rintro condition q' ⟨hcondition, -⟩
  have hle := (h.trans hcondition).length_le
  refine (leads_ifChain hcontent (by omega) hcondition.ends (by omega) hstart).bind ?_
  rintro n q'' ⟨t, hslots, ht⟩
  have hchain : Passes r p n.slots q'' := (h.trans (hcondition.trans ht)).perm (by simpa using hslots.symm)
  refine (leads_blockClose hchain).bind fun _ q h => leads_here.mpr (leads_pure.mpr ?_)
  rwa [Node.slots_with_stop]

omit hcontent hlength in
theorem leads_eachIndex (h : Passes r p s q) :
    Leads r eachIndex q fun fields q' =>
      Passes r p s q' ∧ Node.slotsOfFields "EachBlock" fields = [] := by
  refine (leads_eat h).bind fun b q h => leads_ite.mpr ⟨fun _ => ?_, fun _ => leads_pure.mpr ⟨h, rfl⟩⟩
  simp only [leads_skipBlanks, leads_here, leads_readWhile, leads_ite]
  replace h := h.skip (blanks q.cursor.rest)
  refine ⟨fun _ => leads_refuse_bind h.ends.border, fun _ => ?_⟩
  exact (leads_declare (h.skip _)).bind fun _ _ hq =>
    leads_skipBlanks.mpr (leads_pure.mpr ⟨hq.1.skip _, by simp⟩)

omit hcontent hlength in
theorem leads_eachKey (h : Passes r p s q) :
    Leads r eachKey q fun fields q' =>
      Passes r p (s ++ Node.slotsOfFields "EachBlock" fields) q' := by
  refine (leads_eat h).bind fun b q h => leads_ite.mpr ⟨fun _ => ?_, fun _ => ?_⟩
  · simp only [leads_cursor, leads_scriptUpTo, leads_ite]
    refine ⟨fun _ => leads_refuse_bind h.ends.border, fun hne => ?_⟩
    obtain ⟨d, -, tail, hrest⟩ := split_of_takeUntil rfl hne
    refine (leads_expression [] h.ends.inside hrest rfl).bind ?_
    rintro e q' ⟨hslot, hle, hlt, hnotes⟩
    refine leads_skip.mpr (leads_skipBlanks.mpr (leads_pure.mpr ?_))
    simpa [hslot.slots] using (h.noteSkip hrest hnotes hle hlt 1).skip _
  · refine (leads_eat h).bind fun b q h => leads_ite.mpr ⟨fun _ => ?_, fun _ => ?_⟩
    · simp only [leads_readWhile, leads_skipBlanks, leads_pure]
      simpa using (h.skip _).skip _
    · exact leads_pure.mpr (by simpa using h)

theorem leads_eachBlock (h : Passes r p [] q) (hstart : r.Refusal start) :
    Leads r (eachBlock content start) q fun n q' => Passes r p n.slots q' := by
  have hrest (stop : Balanced.Stop) (q : Progress) :=
    (Balanced.takeUntil_append_drop stop q.cursor.prev q.cursor.rest).symm
  simp only [eachBlock, leads_cursor, leads_scriptUpTo, leads_ite]
  refine ⟨fun _ => leads_refuse_bind (h.skip _).ends.border, fun _ => ?_⟩
  refine (leads_expression [] h.ends.inside (hrest _ q) rfl).bind ?_
  rintro e q₁ ⟨hslot, hle, hlt, hnotes⟩
  replace h := h.noteSkip (hrest _ q) hnotes hle hlt 2
  simp only [leads_pass, leads_cursor, leads_scriptUpTo]
  refine (leads_pattern h (hrest ..)).bind ?_
  rintro context q₂ ⟨h, -⟩
  simp only [leads_pass, Nat.add_zero, leads_skipBlanks]
  refine (leads_eachIndex ((h.skip _).skip _)).bind ?_
  rintro index q₃ ⟨h, hindex⟩
  refine (leads_eachKey h).bind fun key q₄ h => (leads_expect h).bind fun _ q₅ h => ?_
  refine (hcontent.after h hlength).bind ?_
  rintro ⟨children, ending⟩ q₆ ⟨h, hending⟩
  replace h : Passes r p (e.slots ++ Node.slotsOfFields "EachBlock" key ++
    children.flatMap Node.slots) q₆ := by simpa [hslot.slots] using h
  simp only
  split
  · refine (leads_branchOpen h).bind fun _ q h => leads_skipBlanks.mpr ?_
    refine (leads_elseBranch hcontent hlength (h.skip _)).bind ?_
    rintro ⟨other, ending⟩ q ⟨h, hending⟩
    simp only [pure_bind]
    split
    · refine (leads_blockClose h).bind fun _ _ h => leads_finish.mpr ?_
      simpa [hindex] using h
    · exact leads_refuseEnding h.ends hending hstart
  · simp only [pure_bind]
    split
    · refine (leads_blockClose h).bind fun _ _ h => leads_finish.mpr ?_
      simpa [hindex] using h
    · exact leads_refuseEnding h.ends hending hstart

/-- The starts in the three sections. -/
def Sections.slots (sections : Sections) : List Nat :=
  sections.pending.slots ++ sections.fulfilled.slots ++ sections.rejected.slots

omit hcontent hlength in
theorem leads_branchValue (h : Passes r p s q) :
    Leads r branchValue q fun _ => Passes r p s := by
  simp only [branchValue, leads_cursor, leads_scriptUpTo]
  refine (leads_blockValue h (Balanced.takeUntil_append_drop ..).symm).bind fun _ _ hq => leads_skip.mpr ?_
  exact (leads_expect (hq.1.skip _)).bind fun _ _ h => leads_pure.mpr h

theorem leads_awaitSection {current} {sections : Sections} (h : Passes r p s q) :
    Leads r (awaitSection content current start sections)
      q fun c q' => ∃ n, c.1 = sections.set current n ∧ Passes r p (s ++ n.slots) q' ∧
        c.2.At q'.cursor.offset := by
  refine (hcontent.after h hlength).bind ?_
  rintro ⟨children, ending⟩ q ⟨h, hending⟩
  exact leads_here.mpr (leads_pure.mpr ⟨_, rfl, by simpa using h, hending⟩)

variable {sections : Sections}

omit hcontent hlength in
theorem leads_awaitEnd (h : Passes r p (s ++ sections.slots) q) (hending : ending.At q.cursor.offset)
    (hstart : r.Refusal start) :
    Leads r (awaitEnd start sections ending) q fun sections' q' =>
      Passes r p (s ++ sections'.slots) q' := by
  unfold awaitEnd
  split
  · exact (leads_blockClose h).bind fun _ _ h => leads_pure.mpr h
  · exact leads_refuseEnding h.ends hending hstart

theorem leads_awaitRejected (h : Passes r p (s ++ sections.slots) q)
    (hending : ending.At q.cursor.offset) (hrejected : sections.rejected.slots = [])
    (hstart : r.Refusal start) :
    Leads r (awaitRejected content start sections ending)
      q fun sections' q' => Passes r p (s ++ sections'.slots) q' := by
  unfold awaitRejected
  split
  · refine (leads_branchOpen h).bind fun _ _ h => (leads_branchValue h).bind fun error _ h => ?_
    refine (leads_awaitSection hcontent hlength h).bind ?_
    rintro ⟨_, ending⟩ q ⟨n, rfl, h, hending⟩
    exact leads_awaitEnd (by simpa [Sections.slots, Sections.set, hrejected] using h) hending hstart
  · exact leads_awaitEnd h hending hstart

theorem leads_awaitFulfilled (h : Passes r p (s ++ sections.slots) q)
    (hending : ending.At q.cursor.offset) (hfulfilled : sections.fulfilled.slots = [])
    (hrejected : sections.rejected.slots = []) (hstart : r.Refusal start) :
    Leads r (awaitFulfilled content start sections ending) q fun sections' q' =>
        Passes r p (s ++ sections'.slots) q' := by
  unfold awaitFulfilled
  split
  · refine (leads_branchOpen h).bind fun _ _ h => (leads_branchValue h).bind fun value _ h => ?_
    refine (leads_awaitSection hcontent hlength h).bind ?_
    rintro ⟨_, ending⟩ q ⟨n, rfl, h, hending⟩
    refine leads_awaitRejected hcontent hlength ?_ hending hrejected hstart
    simpa [Sections.slots, Sections.set, hfulfilled, hrejected] using h
  · exact leads_awaitRejected hcontent hlength h hending hrejected hstart

omit hcontent hlength in
/-- The first section that is read is the only one that has anything in it. -/
theorem slots_set_none (start : Nat) (value : Value) (first : Section) (n : Node) :
    (({ Sections.none start with value } : Sections).set first n).slots = n.slots ∧
      (first ≠ .rejected →
        (({ Sections.none start with value } : Sections).set first n).rejected.slots = []) ∧
      (first = .pending →
        (({ Sections.none start with value } : Sections).set first n).fulfilled.slots = []) := by
  cases first <;> simp [Sections.slots, Sections.set, Sections.none, Section.kind]

theorem leads_awaitBlock (h : Passes r p [] q) (hstart : r.Refusal start) :
    Leads r (awaitBlock content start) q fun n q' =>
      Passes r p n.slots q' := by
  have hrest := (Balanced.takeUntil_append_drop (Balanced.atBraceOr "then".toList) q.cursor.prev
    q.cursor.rest).symm
  simp only [awaitBlock, leads_cursor, leads_scriptUpTo]
  split
  · next mark hmark =>
    refine (leads_expression [] h.ends.inside hrest rfl).bind ?_
    rintro e q₁ ⟨hslot, hle, hlt, hnotes⟩
    replace h := h.noteSkip hrest hnotes hle hlt 0
    rw [List.nil_append, ← hslot.slots] at h
    simp only [leads_skip, leads_pass, Nat.add_zero, leads_ite]
    refine ⟨fun hcompact => ?_, fun hcompact => ?_⟩
    · refine (leads_branchValue (h.skip 4)).bind fun value q h => leads_here.mpr ?_
      refine (leads_awaitSection hcontent hlength h).bind ?_
      rintro ⟨_, ending⟩ q ⟨n, rfl, h, hending⟩
      simp only [hcompact, ↓reduceIte]
      obtain ⟨hslots, hrejected, -⟩ := slots_set_none start value .fulfilled n
      generalize Sections.set .fulfilled n _ = sections at hslots hrejected ⊢
      refine (leads_awaitRejected hcontent hlength (hslots ▸ h) hending (hrejected (by decide))
        hstart).bind fun sections q h => leads_finish.mpr ?_
      simpa [Sections.slots] using h
    · refine (leads_expect h).bind fun _ q h => ?_
      simp only [pure_bind, leads_here]
      refine (leads_awaitSection hcontent hlength h).bind ?_
      rintro ⟨_, ending⟩ q ⟨n, rfl, h, hending⟩
      simp only [hcompact, Bool.false_eq_true, ↓reduceIte]
      obtain ⟨hslots, hrejected, hfulfilled⟩ := slots_set_none start .null .pending n
      generalize Sections.set .pending n _ = sections at hslots hrejected hfulfilled ⊢
      refine (leads_awaitFulfilled hcontent hlength (hslots ▸ h) hending (hfulfilled rfl)
        (hrejected (by decide)) hstart).bind fun sections q h => leads_finish.mpr ?_
      simpa [Sections.slots] using h
  · exact leads_refuse h.ends.border

omit hcontent hlength in
theorem leads_debugIdentifiers {c : Cursor} {before tail : List Char} {parts : List (List Char)}
    (hc : c.In r.source) (hrest : c.rest = before ++ ([','].intercalate parts ++ tail))
    (hstart : start = c.offset + byteLength before) :
    Leads r (debugIdentifiers start parts) q fun es q' =>
      q'.cursor = q.cursor ∧ q'.aside = q.aside ∧ q'.starts = q.starts ++ es.flatMap Node.slots ∧
        (es.flatMap Node.slots).Pairwise (· < ·) ∧ ∀ x ∈ es.flatMap Node.slots,
          start ≤ x ∧ x < start + byteLength ([','].intercalate parts) := by
  induction parts generalizing start before q with
  | nil => exact leads_pure.mpr ⟨rfl, rfl, by simp, .nil, nofun⟩
  | cons part parts ih =>
    obtain ⟨more, hmore⟩ : ∃ more, [','].intercalate (part :: parts) = part ++ more := by
      cases parts with
      | nil => exact ⟨[], by simp⟩
      | cons => exact ⟨_, by rw [List.intercalate_cons_cons, List.append_assoc]⟩
    have hlength := congrArg byteLength hmore
    rw [byteLength_append] at hlength
    refine (leads_expression before hc (by rw [hrest, hmore, List.append_assoc]) hstart).bind ?_
    rintro e q₁ ⟨hslot, hle, hlt, hnotes⟩
    rw [leads_ite]
    refine ⟨fun _ => ?_, fun _ => leads_refuse_bind (r.border hslot.start)⟩
    cases parts with
    | nil =>
      simp only [debugIdentifiers, pure_bind, leads_pure]
      refine ⟨hnotes.cursor, hnotes.aside, by simpa [hslot.slots] using hnotes.starts, ?_⟩
      simpa [hslot.slots] using ⟨hle, by omega⟩
    | cons next parts =>
      rw [List.intercalate_cons_cons] at hrest hlength ⊢
      have hcomma : byteLength [','] = 1 := rfl
      simp only [byteLength_append, hcomma] at hlength ⊢
      refine (@ih q₁ _ (before ++ part ++ [',']) (by rw [hrest]; simp) ?_).bind ?_
      · simp only [byteLength_append, hcomma]
        omega
      rintro es q₂ ⟨hcursor, haside, hstarts, hsorted, hbounds⟩
      refine leads_pure.mpr ⟨hcursor.trans hnotes.cursor, haside.trans hnotes.aside, ?_, ?_, ?_⟩
      · rw [hstarts, hnotes.starts, List.flatMap_cons, hslot.slots, List.append_assoc]
      · rw [List.flatMap_cons, hslot.slots]
        refine List.pairwise_cons.mpr ⟨fun x hx => ?_, hsorted⟩
        have := hbounds x hx
        omega
      · rw [List.flatMap_cons, hslot.slots]
        refine List.forall_mem_cons.mpr ⟨⟨hle, by omega⟩, fun x hx => ?_⟩
        have := hbounds x hx
        omega

omit hcontent hlength in
theorem leads_debugTag (h : Passes r p [] q) (hstart : r.Refusal start) :
    Leads r (debugTag start) q fun n q' => Passes r p n.slots q' := by
  simp only [debugTag, leads_cursor]
  split
  · next body tail hsplit =>
    obtain ⟨hrest, -, -⟩ := splitAt?_singleton.mp hsplit
    simp only [leads_ite, pure_bind, leads_pass, leads_finish]
    refine ⟨fun _ => by simpa using h.skip _, fun _ => ?_⟩
    have hparts := (intercalate_splitOn ',' body).1
    refine (@leads_debugIdentifiers _ _ _ _ [] _ _ h.ends.inside (by simpa [hparts] using hrest) rfl).bind ?_
    rintro es q₁ ⟨hcursor, haside, hstarts, hsorted, hbounds⟩
    replace hbounds : ∀ x ∈ es.flatMap Node.slots,
        q.cursor.offset ≤ x ∧ x < (q.cursor.skip body.length).offset := by
      rw [Cursor.offset_skip_length hrest]
      simpa [hparts] using hbounds
    refine leads_skip.mpr (leads_finish.mpr ?_)
    have hpass : Passes r q (es.flatMap Node.slots) (q₁.goTo (q₁.cursor.skip (body.length + 1))) := by
      refine ⟨h.ends, ⟨_, by rw [← hcursor]; rfl⟩, haside, _, hstarts, .refl _, hsorted, fun x hx => ?_⟩
      obtain ⟨hle, hlt⟩ := hbounds x hx
      rw [Progress.cursor_goTo, hcursor, ← Cursor.skip_skip]
      exact ⟨hle, Nat.lt_of_lt_of_le hlt (Cursor.offset_le_skip ..)⟩
    simpa using h.trans hpass
  · exact leads_refuse hstart

end Blocks

theorem leads_mustache (hcontent : Delivers r p.cursor.rest.length content) (h : Standing r p)
    (hne : p.cursor.rest ≠ []) (hfuel : p.cursor.rest.length ≤ fuel) :
    Leads r (mustache content fuel) p fun n q =>
      Passes r p n.slots q ∧ q.cursor.rest.length < p.cursor.rest.length := by
  have hopen := (Passes.refl h).skip 1
  have hshort : (p.goTo (p.cursor.skip 1)).cursor.rest.length < p.cursor.rest.length := by
    have := List.length_pos_iff.mpr hne
    simp only [Progress.cursor_goTo, Cursor.rest_skip, List.length_drop]
    omega
  have hstart := h.border
  simp only [mustache, leads_here, leads_skip, leads_skipBlanks]
  refine Leads.weaken (Q := fun n q => Passes r (p.goTo (p.cursor.skip 1)) n.slots q) ?_ fun n q hn =>
    ⟨by simpa using hopen.trans hn, Nat.lt_of_le_of_lt hn.length_le hshort⟩
  have hgap := (Passes.refl hopen.ends).skip (blanks (p.cursor.skip 1).rest)
  have hbraces {q : Progress} (hq : Passes r (p.goTo (p.cursor.skip 1)) [] q) {kind : String}
      (hkind : kind ≠ "Let") :
      Leads r (expressionToBrace >>= fun e => finish kind p.cursor.offset [("expression", .node e)]) q
        fun n q => Passes r (p.goTo (p.cursor.skip 1)) n.slots q := by
    refine (leads_expressionToBrace hq.ends).bind ?_
    rintro e q' ⟨he, -⟩
    exact leads_finish.mpr (by simpa [hkind] using hq.trans he)
  refine (leads_eat hgap).bind fun b q hq => leads_ite.mpr ⟨fun _ => ?_, fun _ => ?_⟩
  · simp only [leads_cursor, leads_wordIn, leads_skip]
    replace hq := hq.skip (word q.cursor.rest).length
    split
    · exact leads_ifBlock hcontent hshort hq (by omega) hstart
    · exact leads_eachBlock hcontent hshort hq hstart
    · exact leads_awaitBlock hcontent hshort hq hstart
    · exact leads_here.mpr (leads_refuse hq.ends.border)
  · refine (leads_eat hq).bind fun b q hq => leads_ite.mpr ⟨fun _ => hbraces hq (by decide), fun _ => ?_⟩
    refine (leads_eat hq).bind fun b q hq => leads_ite.mpr ⟨fun _ => ?_, fun _ => hbraces hq (by decide)⟩
    exact leads_debugTag hq hstart

end SvelteSyntax.Markup
