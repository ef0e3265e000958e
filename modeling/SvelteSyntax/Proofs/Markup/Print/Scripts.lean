import SvelteSyntax.Proofs.Markup.Print.Item

namespace SvelteSyntax.Markup

open Text Script

variable {i : Input} {before rest word text gap front : List Char} {e : Snippet} {d : Char}

theorem utf8Size_of_lt {c : Char} (h : c.toNat < 128) : c.utf8Size = 1 := by
  have hle : c.val ≤ 127 := by
    rw [UInt32.le_iff_toNat_le]
    exact Nat.lt_succ_iff.mp h
  simp [Char.utf8Size, hle]

namespace Balanced

theorem startsWith_append_congr {cs rest rest' : List Char} {d'} (hd : d ∉ word) (hd' : d' ∉ word) :
    startsWith word (cs ++ d :: rest) = startsWith word (cs ++ d' :: rest') := by
  induction cs generalizing word with
  | nil =>
    cases word with
    | nil => rfl
    | cons w word =>
      have hw : w ≠ d := by
        rintro rfl
        exact hd (List.mem_cons_self ..)
      have hw' : w ≠ d' := by
        rintro rfl
        exact hd' (List.mem_cons_self ..)
      simp [startsWith, beq_eq_false_iff_ne.mpr hw, beq_eq_false_iff_ne.mpr hw']
  | cons c cs ih =>
    cases word with
    | nil => rfl
    | cons w word =>
      simp only [List.cons_append, startsWith]
      rw [ih (fun h => hd (.tail _ h)) (fun h => hd' (.tail _ h))]

theorem local_atBraceOr (hword : ' ' ∉ word) (hd : d ∉ word) (hends : d = ' ' ∨ d = '}') :
    (atBraceOr word).Local d := by
  intro prev cs rest hne
  have hbrace : atAny ['}'] prev (cs ++ d :: rest) = atAny ['}'] prev (cs ++ [' ']) :=
    local_atAny _ d prev cs rest hne
  have hstarts : startsWith word (cs ++ d :: rest) = startsWith word (cs ++ [' ']) :=
    startsWith_append_congr hd hword
  have hafter : startsWith word (cs ++ [' ']) →
      ((cs ++ d :: rest).drop word.length).head?.any (fun c => isMarkupBlank c || ['{', '[', '}'].contains c) =
      ((cs ++ [' ']).drop word.length).head?.any (fun c => isMarkupBlank c || ['{', '[', '}'].contains c) := by
    intro hword'
    obtain ⟨tail, htail⟩ := startsWith_iff.mp hword'
    have hlength : word.length ≤ cs.length := by
      by_contra hlt
      have hlen := congrArg List.length htail
      simp only [List.length_append, List.length_singleton] at hlen
      have hmem : ' ' ∈ word := by
        have hw : word = (cs ++ [' ']).take word.length := by rw [htail, List.take_left]
        rw [hw, List.take_of_length_le (by simp; omega)]
        simp
      exact hword hmem
    rw [List.drop_append_of_le_length hlength, List.drop_append_of_le_length hlength]
    cases cs.drop word.length with
    | nil =>
      rcases hends with rfl | rfl <;> rfl
    | cons c cs => rfl
  unfold atBraceOr atKeyword
  rw [hbrace, hstarts]
  cases hs : startsWith word (cs ++ [' ']) with
  | false => simp
  | true => rw [hafter hs]

theorem takeUntil_blank {stop : Stop} (hblank : ∀ prev cs, stop prev (' ' :: cs) = false)
    (prev : Option Char) (cs : List Char) :
    takeUntil stop prev (' ' :: cs) = ' ' :: takeUntil stop (some ' ') cs := by
  rw [takeUntil, takeFrom, hblank, if_neg (by simp)]
  rfl

end Balanced

theorem trimmed_of_trimmed {gap' : List Char} (hne : text ≠ [])
    (hfirst : text.head?.all (!isMarkupBlank ·)) (hlast : text.getLast?.all (!isMarkupBlank ·))
    (hgap : ∀ d ∈ gap, isMarkupBlank d) (hgap' : ∀ d ∈ gap', isMarkupBlank d) (start : Nat) :
    trimmed start (gap ++ (text ++ gap')) = (start + byteLength gap, text) := by
  have hhead : (text ++ gap').head?.all (!isMarkupBlank ·) := by
    cases text with
    | nil => exact absurd rfl hne
    | cons c text => exact hfirst
  have htake : (gap ++ (text ++ gap')).takeWhile isMarkupBlank = gap :=
    takeWhile_append_of_head hgap hhead
  have hdrop : (gap ++ (text ++ gap')).dropWhile isMarkupBlank = text ++ gap' := by
    have hsplit := List.takeWhile_append_dropWhile (p := isMarkupBlank) (l := gap ++ (text ++ gap'))
    rw [htake] at hsplit
    exact List.append_cancel_left hsplit
  have hback : (text.reverse.head?).all (!isMarkupBlank ·) := by
    rw [List.head?_reverse]
    exact hlast
  have htake' : (gap'.reverse ++ text.reverse).takeWhile isMarkupBlank = gap'.reverse :=
    takeWhile_append_of_head (fun d hd => hgap' d (List.mem_reverse.mp hd)) hback
  have hdrop' : (gap'.reverse ++ text.reverse).dropWhile isMarkupBlank = text.reverse := by
    have hsplit := List.takeWhile_append_dropWhile (p := isMarkupBlank) (l := gap'.reverse ++ text.reverse)
    rw [htake'] at hsplit
    exact List.append_cancel_left hsplit
  rw [trimmed, htake, trim, hdrop, List.reverse_append, hdrop', List.reverse_reverse]

theorem Reads.modify {f} (h : ∀ p, Still p (f p)) :
    Reads (modify f) i before [] rest () := by
  intro p hp
  refine ⟨f p, gives_modify.mpr rfl, ?_, (h p).aside⟩
  rw [List.append_nil]
  exact hp.still (h p).still

theorem Reads.noteExpression (span : Span) : Reads (noteExpression span) i before [] rest () :=
  .modify fun _ => ⟨.nil _, rfl⟩

theorem Reads.declare (name : String) (offset : Nat) :
    Reads (declare name offset) i before [] rest () :=
  .modify fun _ => ⟨.nil _, rfl⟩

/-- A loop that only takes notes. -/
theorem Reads.forIn_unit {α : Type} {items : List α} {f : α → PUnit → Read (ForInStep PUnit)}
    (hf : ∀ a, Reads (f a ⟨⟩) i before [] rest (.yield ⟨⟩)) :
    Reads (forIn items ⟨⟩ f) i before [] rest ⟨⟩ := by
  induction items with
  | nil => exact .pure _
  | cons a items ih =>
    rw [List.forIn_cons]
    exact .bind_still (hf a) ih

theorem isMarkupBlank_of_gap (hgap : gap = [] ∨ gap = [' ']) :
    ∀ d ∈ gap, isMarkupBlank d := by
  rcases hgap with rfl | rfl
  · simp
  · simp only [List.mem_singleton, forall_eq]
    decide

namespace Snippet.Printable

variable {stop : Balanced.Stop} {assignable : Bool} {gap gap' after : List Char}

theorem trimmed (h : e.Printable i.parser stop assignable) (hgap : ∀ d ∈ gap, isMarkupBlank d)
    (hgap' : ∀ d ∈ gap', isMarkupBlank d) (start : Nat) :
    Markup.trimmed start (gap ++ (e.text ++ gap')) = (start + byteLength gap, e.text) :=
  trimmed_of_trimmed h.ne_nil h.first h.last hgap hgap' start

theorem byteLength_pos (h : e.Printable i.parser stop assignable) : 0 < byteLength e.text := by
  have hle := length_le_byteLength e.text
  have hlt := List.length_pos_iff.mpr h.ne_nil
  omega

theorem parseSpan (h : e.Printable i.parser stop assignable)
    (hsource : i.source = front ++ (e.text ++ after)) (before rest : List Char) :
    ∃ n, n.kind = e.kind ∧ Reads (parseSpan (spanOf (byteLength front) e.text) assignable) i before []
      rest n := by
  obtain ⟨parsed, hparsed, hkind⟩ := h.accepted front after
  refine ⟨parsed.expression, hkind, fun p hp => ⟨p, ?_, by rwa [List.append_nil], rfl⟩⟩
  have hpos := h.byteLength_pos
  have hne : (spanOf (byteLength front) e.text).start ≠ (spanOf (byteLength front) e.text).stop := by
    simp only [spanOf]
    omega
  rw [Markup.parseSpan, if_neg hne]
  simp only [gives_bind, gives_read]
  refine ⟨i, p, ⟨rfl, rfl⟩, ?_⟩
  rw [hsource]
  simp only [spanOf, hparsed]
  exact gives_pure.mpr ⟨rfl, rfl⟩

theorem expression (h : e.Printable i.parser stop false) (hgap : ∀ d ∈ gap, isMarkupBlank d)
    (hgap' : ∀ d ∈ gap', isMarkupBlank d) (hsource : i.source = front ++ (gap ++ (e.text ++ after))) :
    Reads (Markup.expression (byteLength front) (gap ++ (e.text ++ gap'))) i before [] rest
      (e.node (byteLength front + byteLength gap)) := by
  have hplace : i.source = (front ++ gap) ++ (e.text ++ after) := by
    rw [hsource, List.append_assoc]
  obtain ⟨n, hkind, hparse⟩ := h.parseSpan hplace before rest
  rw [byteLength_append] at hparse
  rw [Markup.expression, trimIn_eq, pure_bind, h.trimmed hgap hgap']
  refine .bind_still hparse (.bind_still (.noteExpression _) ?_)
  rw [hkind]
  exact .pure _

theorem patternAt (h : e.Printable i.parser stop true) (hsource : i.source = front ++ (e.text ++ after)) :
    Reads (Markup.patternAt (spanOf (byteLength front) e.text)) i before [] rest
      (e.node (byteLength front)) := by
  obtain ⟨n, hkind, hparse⟩ := h.parseSpan hsource before rest
  refine .bind_still hparse (.bind_still (.forIn_unit fun identifier => ?_) ?_)
  · split
    · exact .bind_still (.declare _ _) (.pure _)
    · exact .pure _
  · rw [hkind]
    exact .pure _

theorem pattern (h : e.Printable i.parser stop true) (hgap : ∀ d ∈ gap, isMarkupBlank d)
    (hgap' : ∀ d ∈ gap', isMarkupBlank d) (hsource : i.source = front ++ (gap ++ (e.text ++ after))) :
    Reads (Markup.pattern (byteLength front) (gap ++ (e.text ++ gap'))) i before [] rest
      (e.node (byteLength front + byteLength gap)) := by
  have hplace : i.source = (front ++ gap) ++ (e.text ++ after) := by
    rw [hsource, List.append_assoc]
  have hpattern : Reads _ i before [] rest _ := h.patternAt hplace
  rw [byteLength_append] at hpattern
  rw [Markup.pattern, trimIn_eq, pure_bind, h.trimmed hgap hgap']
  exact hpattern

theorem expression_spaced (h : e.Printable i.parser stop false) {start}
    (hgap : gap = [] ∨ gap = [' ']) (hsource : i.source = front ++ ' ' :: (e.text ++ after))
    (hstart : byteLength front + 1 = start) :
    Reads (Markup.expression (byteLength front) (' ' :: (e.text ++ gap))) i before [] rest
      (e.node start) := by
  subst hstart
  rw [← List.singleton_append]
  exact h.expression (isMarkupBlank_of_gap (.inr rfl)) (isMarkupBlank_of_gap hgap) hsource

theorem pattern_spaced (h : e.Printable i.parser stop true) {start} (hgap : gap = [] ∨ gap = [' '])
    (hsource : i.source = front ++ ' ' :: (e.text ++ after)) (hstart : byteLength front + 1 = start) :
    Reads (Markup.pattern (byteLength front) (' ' :: (e.text ++ gap))) i before [] rest
      (e.node start) := by
  subst hstart
  rw [← List.singleton_append]
  exact h.pattern (isMarkupBlank_of_gap (.inr rfl)) (isMarkupBlank_of_gap hgap) hsource

theorem takeUntil (h : e.Printable i.parser stop assignable) (hlocal : stop.Local d)
    (hd : d ∉ ['*', '/', '{']) (hstop : ∀ prev rest, stop prev (d :: rest)) (rest : List Char) :
    Balanced.takeUntil stop (some ' ') (e.text ++ d :: rest) = e.text := by
  rw [Balanced.takeUntil, h.closed.takeFrom_append h.nowhere hlocal hd, Balanced.takeFrom,
    if_pos ⟨rfl, hstop _ _⟩, List.append_nil]

theorem takeUntil_spaced (h : e.Printable i.parser stop assignable) (hlocal : stop.Local ' ')
    (hblank : ∀ prev cs, stop prev (' ' :: cs) = false) (hstop : stop (some ' ') rest)
    (hne : rest ≠ []) : Balanced.takeUntil stop (some ' ') (e.text ++ ' ' :: rest) = e.text ++ [' '] := by
  obtain ⟨d, rest, rfl⟩ := List.exists_cons_of_ne_nil hne
  have hstep : Balanced.step [.code 0] ' ' (some d) = [.code 0] := rfl
  rw [Balanced.takeUntil, h.closed.takeFrom_append h.nowhere hlocal (by decide),
    Balanced.takeFrom, if_neg (by simp [hblank]), List.head?_cons, hstep, Balanced.takeFrom,
    if_pos ⟨rfl, hstop⟩]

theorem takeUntil_mark {marks} (h : e.Printable i.parser (Balanced.atAny marks) assignable)
    (hblank : marks.contains ' ' = false) (hgap : gap = [] ∨ gap = [' ']) (hmark : marks.contains d)
    (hd : d ∉ ['*', '/', '{']) (prev : Option Char) (rest : List Char) :
    Balanced.takeUntil (Balanced.atAny marks) prev (' ' :: (e.text ++ (gap ++ d :: rest))) =
      ' ' :: (e.text ++ gap) := by
  rw [Balanced.takeUntil_blank (fun _ _ => hblank)]
  rcases hgap with rfl | rfl
  · have htake := h.takeUntil (Balanced.local_atAny marks d) hd (fun _ _ => hmark) rest
    rw [List.nil_append, htake, List.append_nil]
  · have hstop : Balanced.atAny marks (some ' ') (d :: rest) := hmark
    have htake := h.takeUntil_spaced (Balanced.local_atAny marks ' ') (fun _ _ => hblank) hstop (by simp)
    rw [List.singleton_append, htake]

theorem takeUntil_word (h : e.Printable i.parser (Balanced.atBraceOr word) assignable) (hne : word ≠ [])
    (hword : ' ' ∉ word) (hd : isMarkupBlank d || ['{', '[', '}'].contains d) (prev : Option Char)
    (rest : List Char) :
    Balanced.takeUntil (Balanced.atBraceOr word) prev (' ' :: (e.text ++ ' ' :: (word ++ d :: rest))) =
      ' ' :: (e.text ++ [' ']) := by
  have hblank : ∀ prev cs, Balanced.atBraceOr word prev (' ' :: cs) = false := by
    intro prev cs
    obtain ⟨w, word, rfl⟩ := List.exists_cons_of_ne_nil hne
    have hw : w ≠ ' ' := by
      rintro rfl
      exact hword (List.mem_cons_self ..)
    simp [Balanced.atBraceOr, Balanced.atAny, Balanced.atKeyword, startsWith, hw]
  have hstop : Balanced.atBraceOr word (some ' ') (word ++ d :: rest) := by
    rw [Balanced.atBraceOr, Balanced.atKeyword, startsWith_append_self, List.drop_left, List.head?_cons,
      Option.any_some, Option.any_some, hd]
    simp [isMarkupBlank]
  rw [Balanced.takeUntil_blank hblank,
    h.takeUntil_spaced (Balanced.local_atBraceOr hword hword (.inl rfl)) hblank hstop (by simp)]

end Snippet.Printable

theorem takeUntil_gap {marks} (hgap : gap = [] ∨ gap = [' ']) (hblank : marks.contains ' ' = false)
    (h : Balanced.takeUntil (Balanced.atAny marks) (some ' ') (text ++ d :: rest) = text)
    (prev : Option Char) :
    Balanced.takeUntil (Balanced.atAny marks) prev (gap ++ (text ++ d :: rest)) = gap ++ text := by
  rcases hgap with rfl | rfl
  · rw [Balanced.takeUntil_atAny_prev _ prev (some ' ')]
    exact h
  · rw [List.singleton_append, Balanced.takeUntil_blank (fun _ _ => hblank), h]
    rfl

theorem reads_expressionToBrace (h : e.Printable i.parser (Balanced.atAny ['}']) false)
    (hgap : gap = [] ∨ gap = [' ']) :
    Reads expressionToBrace i before (gap ++ (e.text ++ ['}'])) rest
      (e.node (byteLength before + byteLength gap)) := by
  have hsplit : gap ++ (e.text ++ ['}']) ++ rest = gap ++ (e.text ++ '}' :: rest) := by simp
  have htext := h.takeUntil (Balanced.local_atAny _ '}') (by decide) (fun _ _ => rfl) rest
  refine .of_script (gap ++ e.text) (fun prev => hsplit ▸ takeUntil_gap hgap rfl htext prev)
    fun c hc hoffset hsource => ?_
  have hlength : ¬(gap ++ e.text).length = c.rest.length := by
    rw [hc]
    simp only [List.length_append, List.length_singleton]
    omega
  rw [hsplit] at hsource
  have hexpression : ∀ rest, Reads (expression (byteLength before) (gap ++ (e.text ++ []))) i before []
      rest (e.node (byteLength before + byteLength gap)) := fun _ =>
    h.expression (isMarkupBlank_of_gap hgap) (by simp) hsource
  rw [List.append_nil] at hexpression
  rw [if_neg hlength, hoffset]
  refine .bind_still (hexpression _) (.bind_last (.skip ?_) (.pure _))
  simp only [List.length_append, List.length_singleton]
  omega

end SvelteSyntax.Markup
