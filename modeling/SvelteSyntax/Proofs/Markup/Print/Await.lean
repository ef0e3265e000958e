import SvelteSyntax.Proofs.Markup.Print.Blocks

namespace SvelteSyntax.Markup

open Text Script

variable {i : Input} {before rest word : List Char} {content : Content} {size start first : Nat}
  {sections : Sections} {b rejected : Branch} {e : Snippet}

def isNameChar (c : Char) : Bool := isAsciiLetter c || c == '_' || c == '$' || isWordChar c

theorem step_of_isNameChar {c} (hc : isNameChar c) (next : Option Char) :
    Balanced.step [.code 0] c next = [.code 0] ∧ c ≠ '}' := by
  have hmarks : ['"', '\'', '`', '/', '{', '[', '(', '}', ']', ')'].any isNameChar = false := by
    decide
  have hne : c ∉ ['"', '\'', '`', '/', '{', '[', '(', '}', ']', ')'] :=
    fun hmem => List.any_eq_false.mp hmarks c hmem hc
  simp only [List.mem_cons, List.not_mem_nil, or_false, not_or] at hne
  refine ⟨?_, by tauto⟩
  unfold Balanced.step Balanced.stepCode
  simp only [ne_eq, not_true_eq_false, false_and, and_false, ↓reduceIte]
  split <;> simp_all

theorem isNameChar_of_isName (h : isName word) : ∀ c ∈ word, isNameChar c := by
  cases word with
  | nil => simp
  | cons c word =>
    simp only [isName, Bool.and_eq_true, List.all_eq_true] at h
    intro d hd
    rcases List.mem_cons.mp hd with rfl | hd
    · rw [isNameChar, h.1, Bool.true_or]
    · have hword := h.2 d hd
      simp only [Bool.or_eq_true] at hword
      rcases hword with hword | hword <;> simp [isNameChar, hword]

theorem takeUntil_name (h : ∀ c ∈ word, isNameChar c) (prev : Option Char) (rest : List Char) :
    Balanced.takeUntil (Balanced.atAny ['}']) prev (word ++ '}' :: rest) = word := by
  induction word generalizing prev with
  | nil => rfl
  | cons c word ih =>
    obtain ⟨hstep, hc⟩ := step_of_isNameChar (h c (by simp)) (word ++ '}' :: rest).head?
    have hgo : Balanced.atAny ['}'] prev (c :: (word ++ '}' :: rest)) = false := by
      simpa [Balanced.atAny] using hc
    rw [List.cons_append, Balanced.takeUntil, Balanced.takeFrom, hgo, if_neg (by simp), hstep]
    exact congrArg (c :: ·) (ih (fun d hd => h d (by simp [hd])) (some c))

theorem trimmed_name (h : isName word) (start : Nat) :
    trimmed start (' ' :: word) = (start + 1, word) := by
  have hblank : ∀ c ∈ word, isMarkupBlank c = false := fun c hc =>
    not_isMarkupBlank (by decide) (isNameChar_of_isName h c hc)
  have hne : word ≠ [] := by
    rintro rfl
    cases h
  have hfirst : word.head?.all (!isMarkupBlank ·) := by
    cases hhead : word.head? with
    | none => rfl
    | some c => simpa using hblank c (List.mem_of_head? hhead)
  have hlast : word.getLast?.all (!isMarkupBlank ·) := by
    cases hend : word.getLast? with
    | none => rfl
    | some c => simpa using hblank c (List.mem_of_getLast? hend)
  have htrimmed : trimmed start ([' '] ++ (word ++ [])) = (start + 1, word) :=
    trimmed_of_trimmed hne hfirst hlast (isMarkupBlank_of_gap (.inr rfl)) (by simp) start
  rw [List.append_nil] at htrimmed
  exact htrimmed

theorem reads_branchValue {bound : Bound} (h : bound.Printable i.parser)
    (hstart : byteLength before = start) :
    Reads branchValue i before (bound.print ++ ['}']) rest (bound.value start) := by
  subst hstart
  have htake : ∀ prev, Balanced.takeUntil (Balanced.atAny ['}']) prev (bound.print ++ ['}'] ++ rest) =
      bound.print := by
    intro prev
    rw [List.append_assoc]
    cases bound with
    | nothing => rfl
    | name word =>
      rw [Bound.print, List.cons_append, Balanced.takeUntil_blank (fun _ _ => rfl)]
      exact congrArg (' ' :: ·) (takeUntil_name (isNameChar_of_isName h) _ rest)
    | pattern e =>
      have hpattern := h.2.takeUntil_mark rfl (.inl rfl) (show ['}'].contains '}' from rfl) (by decide)
        prev rest
      rw [List.append_nil] at hpattern
      exact hpattern
  refine .of_script bound.print htake fun c hc hoffset hsource => ?_
  have hvalue : ∀ rest', Reads (blockValue (byteLength before) bound.print) i before [] rest'
      (bound.value (byteLength before)) := by
    intro rest'
    cases bound with
    | nothing => exact .pure _
    | name word =>
      have hne : ¬word.isEmpty := by
        rintro hnil
        rw [List.isEmpty_iff.mp hnil] at h
        cases h
      have hname : isName word := h
      rw [Bound.print, blockValue, trimIn_eq, pure_bind, trimmed_name h]
      simp only [hne, hname, ↓reduceIte]
      exact .bind_still (.declare _ _) (.pure _)
    | pattern e =>
      obtain ⟨hname, he⟩ := h
      have htrimmed : trimmed (byteLength before) ([' '] ++ (e.text ++ [])) =
          (byteLength before + 1, e.text) := he.trimmed (isMarkupBlank_of_gap (.inr rfl)) (by simp) _
      have hplace : i.source = (before ++ [' ']) ++ (e.text ++ (['}'] ++ rest)) := by
        rw [hsource]
        simp [Bound.print]
      have hpattern : Reads (patternAt (spanOf (byteLength (before ++ [' '])) e.text)) i before [] rest' _ :=
        he.patternAt hplace
      have hne : ¬e.text.isEmpty := by simpa using he.ne_nil
      rw [byteLength_append] at hpattern
      rw [List.append_nil] at htrimmed
      rw [Bound.print, blockValue, trimIn_eq, pure_bind, show ' ' :: e.text = [' '] ++ e.text from rfl,
        htrimmed]
      simp only [hne, hname, Bool.false_eq_true, ↓reduceIte]
      exact .bind_still hpattern (.pure _)
  rw [hoffset]
  exact .bind_still (hvalue _) (.bind (.skip rfl) (.bind_last (.expect_char rfl) (.pure _)))

/-- How the siblings before a section end. -/
def Branch.ending (keyword : String) (last : Nat → Ending) : Branch → Nat → Ending
  | .absent => last
  | .present _ _ => .branch keyword

theorem Ends.later {keyword} (hletters : keyword.toList.all isAsciiLetter) {last}
    (h : Ends rest last) (b : Branch) :
    Ends (b.print keyword ++ rest) (b.ending keyword last) := by
  cases b with
  | absent => exact h
  | present bound children =>
    rw [Branch.print, List.append_assoc]
    refine .branch hletters ?_
    cases bound <;> rfl

theorem ends_await (rest : List Char) : Ends (tagEnd "await" ++ rest) (.blockClose "await") :=
  .blockClose (by decide) rest

theorem reads_awaitSection {children ending s} (hchildren : ReadsAll content i children)
    (hends : Ends rest ending) (hfirst : byteLength before = first) :
    Reads (awaitSection content s start sections) i before (printAll children) rest
      (sections.set s (sectionNode s start (first + byteLength (printAll children))
        (nodesFrom s.kind first children)), ending (first + byteLength (printAll children))) := by
  subst hfirst
  refine .bind_last (hchildren s.kind hends rfl) (.of_here ?_)
  rw [byteLength_append]
  exact .pure _

theorem reads_awaitRejected (hcontent : ReadsBelow content i size) (hb : b.Printable i.parser)
    (hsize : (b.print "catch").length < size) (hfirst : byteLength before = first)
    (hrejected : sections.rejected = skippedNode .rejected start) (herror : sections.error = .null) :
    Reads (awaitRejected content start sections (b.ending "catch" (.blockClose "await") first)) i before
      (b.print "catch" ++ tagEnd "await") rest
      { sections with
        rejected := b.node .rejected "catch" start first, error := b.value "catch" first } := by
  cases b with
  | absent =>
    have hsections : { sections with
        rejected := Branch.absent.node .rejected "catch" start first,
        error := Branch.absent.value "catch" first } = sections := by
      rw [Branch.node, Branch.value, ← hrejected, ← herror]
    rw [hsections]
    exact .bind_last (reads_blockClose "await") (.pure _)
  | present bound children =>
    obtain ⟨hbound, hchildren⟩ := hb
    have htext : (Branch.present bound children).print "catch" ++ tagEnd "await" =
        tagOpen ':' "catch" ++ ((bound.print ++ ['}']) ++ (printAll children ++ tagEnd "await")) := by
      simp [Branch.print]
    have hopen : byteLength (before ++ tagOpen ':' "catch") = first + byteLength (tagOpen ':' "catch") := by
      rw [byteLength_append, hfirst]
    have hinner : byteLength (before ++ tagOpen ':' "catch" ++ (bound.print ++ ['}'])) =
        first + byteLength (tagOpen ':' "catch") + byteLength bound.print + 1 := by
      rw [byteLength_append, hopen, byteLength_append]
      rfl
    have hread := hcontent children hchildren (by simp [Branch.print] at hsize; omega)
    rw [htext]
    exact .bind (reads_branchOpen "catch") (.bind (reads_branchValue hbound hopen)
      (.bind (reads_awaitSection hread (ends_await rest) hinner)
        (.bind_last (reads_blockClose "await") (.pure _))))

theorem ends_rejected (b : Branch) (rest : List Char) :
    Ends (b.print "catch" ++ tagEnd "await" ++ rest) (b.ending "catch" (.blockClose "await")) := by
  rw [List.append_assoc]
  exact (ends_await rest).later (by decide) b

theorem reads_awaitFulfilled (hcontent : ReadsBelow content i size) {b' : Branch} {second : Nat}
    (hb : b.Printable i.parser) (hb' : b'.Printable i.parser)
    (hsize : (b.print "then" ++ b'.print "catch").length < size) (hfirst : byteLength before = first)
    (hsecond : first + byteLength (b.print "then") = second)
    (hfulfilled : sections.fulfilled = skippedNode .fulfilled start) (hvalue : sections.value = .null)
    (hrejected : sections.rejected = skippedNode .rejected start) (herror : sections.error = .null) :
    Reads (awaitFulfilled content start sections
        (b.ending "then" (b'.ending "catch" (.blockClose "await")) first)) i before
      (b.print "then" ++ (b'.print "catch" ++ tagEnd "await")) rest
      { pending := sections.pending
        fulfilled := b.node .fulfilled "then" start first, value := b.value "then" first
        rejected := b'.node .rejected "catch" start second, error := b'.value "catch" second } := by
  rw [List.length_append] at hsize
  cases b with
  | absent =>
    have hsame : second = first := by
      rw [← hsecond, Branch.print, byteLength_nil, Nat.add_zero]
    have hread : Reads (awaitRejected content start sections (b'.ending "catch" (.blockClose "await") first))
        i before (b'.print "catch" ++ tagEnd "await") rest _ :=
      reads_awaitRejected hcontent hb' (by omega) hfirst hrejected herror
    rw [hsame, Branch.node, Branch.value, ← hfulfilled, ← hvalue]
    cases b' <;> exact hread
  | present bound children =>
    obtain ⟨hbound, hchildren⟩ := hb
    have htext : (Branch.present bound children).print "then" ++ (b'.print "catch" ++ tagEnd "await") =
        tagOpen ':' "then" ++ ((bound.print ++ ['}']) ++ (printAll children ++
          (b'.print "catch" ++ tagEnd "await"))) := by
      simp [Branch.print]
    have hopen : byteLength (before ++ tagOpen ':' "then") = first + byteLength (tagOpen ':' "then") := by
      rw [byteLength_append, hfirst]
    have hinner : byteLength (before ++ tagOpen ':' "then" ++ (bound.print ++ ['}'])) =
        first + byteLength (tagOpen ':' "then") + byteLength bound.print + 1 := by
      rw [byteLength_append, hopen, byteLength_append]
      rfl
    have hend : first + byteLength (tagOpen ':' "then") + byteLength bound.print + 1 +
        byteLength (printAll children) = second := by
      rw [← hsecond]
      simp (disch := decide) only [Branch.print, byteLength_append, byteLength_cons, utf8Size_of_lt]
      omega
    have hplace : byteLength (before ++ tagOpen ':' "then" ++ (bound.print ++ ['}']) ++ printAll children) =
        second := by
      rw [byteLength_append, hinner, hend]
    have hread := hcontent children hchildren (by simp [Branch.print] at hsize; omega)
    rw [htext]
    refine .bind (reads_branchOpen "then") (.bind (reads_branchValue hbound hopen)
      (.bind (reads_awaitSection hread (ends_rejected b' rest) hinner) ?_))
    rw [hend, Branch.node, hend]
    exact reads_awaitRejected hcontent hb' (by omega) hplace hrejected herror

theorem reads_awaitBlock_pending (hcontent : ReadsBelow content i size) {pending fulfilled}
    (h : (Item.await e pending fulfilled rejected).Printable i.parser)
    (hsize : (printAll pending ++ (fulfilled.print "then" ++ rejected.print "catch")).length < size)
    (hstart : byteLength before = start + 7) (parent : String) :
    Reads (awaitBlock content start) i before
      (' ' :: (e.text ++ '}' :: (printAll pending ++
        (fulfilled.print "then" ++ (rejected.print "catch" ++ tagEnd "await"))))) rest
      ((Item.await e pending fulfilled rejected).node parent start) := by
  obtain ⟨he, hpending, hfulfilled, hrejected⟩ := h
  have htext : ' ' :: (e.text ++ '}' :: (printAll pending ++
      (fulfilled.print "then" ++ (rejected.print "catch" ++ tagEnd "await")))) =
      (' ' :: e.text) ++ '}' :: (printAll pending ++
        (fulfilled.print "then" ++ (rejected.print "catch" ++ tagEnd "await"))) := rfl
  rw [htext]
  refine .of_script (' ' :: e.text) (fun prev => ?_) fun c hc hoffset hsource => ?_
  · rw [List.append_assoc, List.cons_append, Balanced.takeUntil_blank (fun _ _ => rfl)]
    exact congrArg (' ' :: ·) (he.takeUntil
      (Balanced.local_atBraceOr (by decide) (by decide) (.inr rfl)) (by decide) (fun _ _ => rfl) _)
  rw [List.append_assoc] at hc hsource
  rw [peek?_skip_length hc, hoffset]
  have hpromise : ∀ rest', Reads (expression (byteLength before) (' ' :: (e.text ++ []))) i before [] rest'
      (e.node (start + 8)) := fun _ => he.expression_spaced (.inl rfl) hsource (by rw [hstart])
  rw [List.append_nil] at hpromise
  refine .bind_still (hpromise _) (.bind (.skip rfl) ?_)
  simp only [bne_self_eq_false, Bool.false_eq_true, ↓reduceIte]
  have hinner : byteLength (before ++ (' ' :: e.text) ++ ['}']) = start + 8 + byteLength e.text + 1 := by
    simp (disch := decide) only [hstart, byteLength_append, byteLength_cons, byteLength_nil, utf8Size_of_lt]
    omega
  have hsecond : byteLength (before ++ (' ' :: e.text) ++ ['}'] ++ printAll pending) =
      start + 8 + byteLength e.text + 1 + byteLength (printAll pending) := by
    rw [byteLength_append, hinner]
  have hends : Ends (fulfilled.print "then" ++ (rejected.print "catch" ++ tagEnd "await") ++ rest)
      (fulfilled.ending "then" (rejected.ending "catch" (.blockClose "await"))) := by
    rw [List.append_assoc]
    exact (ends_rejected rejected rest).later (by decide) fulfilled
  simp only [List.length_append] at hsize
  refine .bind_char (.expect_char rfl) (.bind_still (.pure _) (.of_here ?_))
  rw [hinner]
  refine .bind (reads_awaitSection (hcontent pending hpending (by omega)) hends hinner)
    (.bind_last (reads_awaitFulfilled hcontent hfulfilled hrejected
      (by rw [List.length_append]; omega) hsecond rfl rfl rfl rfl rfl) (.finish ?_))
  rw [byteLength_append, hsecond]
  simp (disch := decide) only [Item.print, byteLength_append, byteLength_cons, utf8Size_of_lt]
  rw [show byteLength (tagOpen '#' "await") = 7 from rfl]
  omega

theorem reads_awaitBlock_then (hcontent : ReadsBelow content i size) {value : Bound}
    {children : List Item} (h : (Item.awaitThen e value children rejected).Printable i.parser)
    (hsize : (printAll children ++ rejected.print "catch").length < size)
    (hstart : byteLength before = start + 7) (parent : String) :
    Reads (awaitBlock content start) i before
      (' ' :: (e.text ++ ' ' :: ("then".toList ++ (value.print ++ '}' :: (printAll children ++
        (rejected.print "catch" ++ tagEnd "await")))))) rest
      ((Item.awaitThen e value children rejected).node parent start) := by
  obtain ⟨he, hvalue, hchildren, hrejected⟩ := h
  have htext : ' ' :: (e.text ++ ' ' :: ("then".toList ++ (value.print ++ '}' :: (printAll children ++
      (rejected.print "catch" ++ tagEnd "await"))))) =
      (' ' :: (e.text ++ [' '])) ++ ("then".toList ++ ((value.print ++ ['}']) ++ (printAll children ++
        (rejected.print "catch" ++ tagEnd "await")))) := by
    simp
  rw [htext]
  refine .of_script (' ' :: (e.text ++ [' '])) (fun prev => ?_) fun c hc hoffset hsource => ?_
  · simp only [List.append_assoc, List.cons_append, List.nil_append]
    cases value with
    | nothing => exact he.takeUntil_word (by decide) (by decide) (show _ from rfl) prev _
    | name word => exact he.takeUntil_word (by decide) (by decide) (show _ from rfl) prev _
    | pattern p => exact he.takeUntil_word (by decide) (by decide) (show _ from rfl) prev _
  rw [List.append_assoc] at hc
  simp only [List.append_assoc, List.cons_append] at hsource
  rw [peek?_skip_length hc, hoffset]
  refine .bind_still (he.expression_spaced (.inr rfl) hsource (by rw [hstart])) (.bind (.skip rfl) ?_)
  have hsecond : byteLength (before ++ (' ' :: (e.text ++ [' '])) ++ "then".toList) =
      start + 8 + byteLength e.text + 5 := by
    rw [byteLength_append, show byteLength "then".toList = 4 from rfl]
    simp (disch := decide) only [hstart, byteLength_append, byteLength_cons, byteLength_nil, utf8Size_of_lt]
    omega
  have hinner : byteLength (before ++ (' ' :: (e.text ++ [' '])) ++ "then".toList ++ (value.print ++ ['}'])) =
      start + 8 + byteLength e.text + 5 + byteLength value.print + 1 := by
    rw [byteLength_append, hsecond, byteLength_append]
    rfl
  have hthird : byteLength (before ++ (' ' :: (e.text ++ [' '])) ++ "then".toList ++ (value.print ++ ['}']) ++
      printAll children) =
      start + 8 + byteLength e.text + 5 + byteLength value.print + 1 + byteLength (printAll children) := by
    rw [byteLength_append, hinner]
  rw [List.length_append] at hsize
  refine .bind (.skip rfl) (.bind (reads_branchValue hvalue hsecond) (.of_here ?_))
  rw [hinner]
  refine .bind (reads_awaitSection (hcontent children hchildren (by omega))
    (ends_rejected rejected rest) hinner) (.bind_last (reads_awaitRejected hcontent hrejected (by omega) hthird rfl rfl) (.finish ?_))
  rw [byteLength_append, hthird]
  simp (disch := decide) only [Item.print, byteLength_append, byteLength_cons, utf8Size_of_lt]
  rw [show byteLength (tagOpen '#' "await") = 7 from rfl, show byteLength "then".toList = 4 from rfl]
  omega

end SvelteSyntax.Markup
