import SvelteSyntax.Proofs.Markup.Balanced
import SvelteSyntax.Proofs.Markup.Lexer
import SvelteSyntax.Proofs.Text.Encoded

namespace SvelteSyntax.Markup

open Text

variable {word : List Char} {d : Char} {modes : Modes} {mode : Mode} {n₁ m₁ : Nat}

namespace Balanced

/-- What is open when script text is read: only the innermost construct may pass over a character,
and the quotes are ASCII. -/
structure Settles (frames : List Frame) : Prop where
  skip : .skip ∉ frames.tail
  quoted : ∀ q, .quoted q ∈ frames → isAscii q

variable {frames outer : List Frame} {stop : Stop} {c : Char} {next next' prev prev' : Option Char}

theorem Settles.code (depth : Nat) : Settles [.code depth] := ⟨by simp, by simp⟩

theorem Settles.tail {frame} (h : Settles (frame :: outer)) : Settles outer :=
  ⟨fun hmem => h.skip (List.mem_of_mem_tail hmem), fun q hq => h.quoted q (by simp [hq])⟩

theorem Settles.push {frame} (h : Settles outer) (hskip : .skip ∉ outer)
    (hquoted : ∀ q, frame = .quoted q → isAscii q) : Settles (frame :: outer) := by
  refine ⟨hskip, fun q hq => ?_⟩
  rcases List.mem_cons.mp hq with hq | hq
  · exact hquoted q hq.symm
  · exact h.quoted q hq

theorem Settles.stepCode {depth} (h : Settles (.code depth :: outer)) (c : Char)
    (next : Option Char) : Settles (stepCode depth outer c next) := by
  have hskip : .skip ∉ outer := h.skip
  unfold Balanced.stepCode
  split
  · exact h.push (by simp [hskip]) (by rintro q ⟨⟩; decide)
  · exact h.push (by simp [hskip]) (by rintro q ⟨⟩; decide)
  · exact h.push (by simp [hskip]) (by simp)
  · split
    · exact (h.push (by simp [hskip]) (by simp)).push (by simp [hskip]) (by simp)
    · exact h.push (by simp [hskip]) (by simp)
    · exact h
  all_goals exact h.tail.push hskip (by simp)

theorem Settles.step (h : Settles frames) (c : Char) (next : Option Char) :
    Settles (step frames c next) := by
  unfold Balanced.step
  split
  · exact h
  · exact h.tail
  · split
    · exact h.tail
    · exact h.stepCode c next
  · have hskip := h.skip
    split
    · exact h.push (by simpa using hskip) (by simp)
    split
    · exact h.tail
    · exact h
  · have hskip := h.skip
    split
    · exact h.push (by simpa using hskip) (by simp)
    split
    · exact h.tail
    split
    · exact (h.push (by simpa using hskip) (by simp)).push (by simpa using hskip) (by simp)
    · exact h
  · split
    · exact h.tail
    · exact h
  · split
    · exact h.tail.push h.skip (by simp)
    · exact h

/-- Of the next character only its being one of some ASCII characters counts. -/
theorem step_congr (h : AsciiEq next next') (frames : List Frame) (c : Char) :
    step frames c next' = step frames c next := by
  obtain rfl | ⟨d, d', rfl, rfl, hd, hd'⟩ := h
  · rfl
  · have hne (e : Char) (he : isAscii e) : d ≠ e ∧ d' ≠ e :=
      ⟨ne_of_isAscii hd he, ne_of_isAscii hd' he⟩
    have hstar := hne '*' rfl
    have hslash := hne '/' rfl
    have hbrace := hne '{' rfl
    unfold step stepCode
    split <;> simp_all

/-- What is open after a character that is not ASCII. -/
def afterOther : List Frame → List Frame
  | .skip :: outer => outer
  | frames => frames

theorem step_of_not_isAscii (h : Settles frames) (hc : isAscii c = false) (next : Option Char) :
    step frames c next = afterOther frames := by
  have hne (e : Char) (he : isAscii e) : c ≠ e := ne_of_isAscii hc he
  unfold step afterOther
  split
  case h_3 depth outer =>
    have hcode : stepCode depth outer c next = .code depth :: outer :=
      stepCode_of_meaningless (contains_eq_false (by decide) hc) depth outer next
    rw [hcode, if_neg fun hclose => hne '}' rfl hclose.2.2]
  case h_4 q outer =>
    rw [if_neg (hne _ rfl), if_neg (hne q (h.quoted q (by simp)))]
  case h_5 =>
    rw [if_neg (hne _ rfl), if_neg (hne _ rfl), if_neg fun hopen => hne '$' rfl hopen.1]
  case h_6 => rw [if_neg (hne _ rfl)]
  case h_7 => rw [if_neg fun hclose => hne '*' rfl hclose.1]
  all_goals rfl

theorem afterOther_afterOther (h : Settles frames) :
    afterOther (afterOther frames) = afterOther frames := by
  cases frames with
  | nil => rfl
  | cons frame outer =>
    cases frame with
    | skip =>
      cases outer with
      | nil => rfl
      | cons frame outer =>
        cases frame with
        | skip => exact absurd h.skip (by simp)
        | _ => rfl
    | _ => rfl

theorem Settles.afterOther (h : Settles frames) : Settles (afterOther frames) := by
  unfold Balanced.afterOther
  split
  · exact h.tail
  · exact h

/-- When to stop depends on ASCII characters only. -/
structure SeesAscii (stop : Stop) : Prop where
  encoded : ∀ {prev prev' : Option Char} (cs : List Char), AsciiEq prev prev' →
    stop prev' (encoded cs) = stop prev cs
  other : ∀ (prev : Option Char) {b : Char} (cs : List Char), isAscii b = false →
    stop prev (b :: cs) = false

theorem takeFrom_append_of_not_isAscii (hstop : SeesAscii stop) {bs}
    (hbs : ∀ b ∈ bs, isAscii b = false) (h : Settles frames) (hfix : afterOther frames = frames)
    (prev : Option Char) (cs : List Char) :
    takeFrom stop frames prev (bs ++ cs) =
      bs ++ takeFrom stop frames (bs.getLast?.or prev) cs := by
  induction bs generalizing prev with
  | nil => rfl
  | cons b bs ih =>
    have hb := hbs b (by simp)
    rw [List.cons_append, takeFrom, if_neg (by simp [hstop.other prev (bs ++ cs) hb]),
      step_of_not_isAscii h hb, hfix, ih fun d hd => hbs d (by simp [hd])]
    cases bs <;> simp [List.getLast?_cons]

theorem takeFrom_encoded (hstop : SeesAscii stop) (h : Settles frames) (hprev : AsciiEq prev prev')
    (cs : List Char) :
    takeFrom stop frames prev' (encoded cs) = encoded (takeFrom stop frames prev cs) := by
  induction cs generalizing frames prev prev' with
  | nil => rfl
  | cons c cs ih =>
    have hsame := hstop.encoded (c :: cs) hprev
    cases hc : isAscii c with
    | true =>
      rw [encoded_cons, bytesOf_of_isAscii hc, List.singleton_append] at hsame ⊢
      rw [takeFrom, takeFrom, hsame]
      split
      · rfl
      · rw [step_congr (head?_encoded cs), ih (h.step c cs.head?) (.inl rfl), encoded_cons,
          bytesOf_of_isAscii hc, List.singleton_append]
    | false =>
      obtain ⟨b, bs, hbytes, hb, hbs⟩ := exists_bytesOf hc
      have hlast : AsciiEq (some c) (bs.getLast?.or (some b)) := by
        have := getLast?_encoded [c]
        simpa [hbytes, List.getLast?_cons, Option.or_some] using this
      rw [encoded_cons, hbytes, List.cons_append, takeFrom, takeFrom,
        if_neg (by simp [hstop.other prev' _ hb]), if_neg (by simp [hstop.other prev cs hc]),
        step_of_not_isAscii h hb, step_of_not_isAscii h hc,
        takeFrom_append_of_not_isAscii hstop hbs h.afterOther (afterOther_afterOther h),
        ih h.afterOther hlast, encoded_cons, hbytes, List.cons_append]

theorem SeesAscii.atAny {marks : List Char} (h : marks.all isAscii) : SeesAscii (atAny marks) where
  encoded cs _ := (Uniform.contains h).any_eq (head?_encoded cs)
  other _ _ _ hb := contains_eq_false h hb

theorem SeesAscii.atKeyword (h : word.all isAscii) (hne : word ≠ []) :
    SeesAscii (atKeyword word) where
  encoded cs hprev := by
    have hbefore : Uniform fun c => isMarkupBlank c || [')', ']', '}', '"', '\'', '`'].contains c :=
      .or .isMarkupBlank (.contains (by decide))
    have hafter : Uniform fun c => isMarkupBlank c || ['{', '[', '}'].contains c :=
      .or .isMarkupBlank (.contains (by decide))
    simp only [Balanced.atKeyword, startsWith_encoded h]
    cases hstart : startsWith word cs with
    | false => rfl
    | true =>
      rw [hbefore.any_eq hprev, (Measures.startsWith hstart h).drop,
        hafter.any_eq (head?_encoded _)]
  other prev b cs hb := by
    simp [Balanced.atKeyword, startsWith_cons_of_not_isAscii h hne hb]

theorem SeesAscii.atBraceOr (h : word.all isAscii) (hne : word ≠ []) :
    SeesAscii (atBraceOr word) where
  encoded cs hprev := by
    rw [Balanced.atBraceOr, (SeesAscii.atAny (by decide)).encoded cs hprev,
      (SeesAscii.atKeyword h hne).encoded cs hprev, Balanced.atBraceOr]
  other prev b cs hb := by
    rw [Balanced.atBraceOr, (SeesAscii.atAny (by decide)).other prev cs hb,
      (SeesAscii.atKeyword h hne).other prev cs hb, Bool.or_false]

end Balanced

section

variable {marks cs close : List Char} {prev prev' : Option Char}

theorem head?_encoded_eq_some (hd : isAscii d) :
    (encoded cs).head? = some d ↔ cs.head? = some d :=
  (head?_encoded cs).eq_some_iff hd

theorem isOneOf_encoded (h : marks.all isAscii) (cs : List Char) :
    isOneOf marks (encoded cs).head? = isOneOf marks cs.head? :=
  (Uniform.contains h).any_eq (head?_encoded cs)

theorem uniform_blankOr (h : marks.all isAscii) :
    Uniform fun c => isMarkupBlank c || marks.contains c :=
  .or .isMarkupBlank (.contains h)

theorem isBlankOr_encoded (h : marks.all isAscii) (cs : List Char) :
    isBlankOr marks (encoded cs).head? = isBlankOr marks cs.head? :=
  (uniform_blankOr h).any_eq (head?_encoded cs)

theorem startsTag_encoded {name} (h : name.all isAscii) (cs : List Char) :
    startsTag name (encoded cs) = startsTag name cs := by
  have hafter : Uniform fun c => isMarkupBlank c || c == '>' :=
    .or .isMarkupBlank (.beq (by decide))
  unfold startsTag
  rw [startsWith_encoded h]
  cases hstart : startsWith name cs with
  | false => rfl
  | true => rw [(Measures.startsWith hstart h).drop, hafter.any_eq (head?_encoded _)]

theorem measures_runLength (h : marks.all isAscii) (cs : List Char) :
    Measures cs (runLength marks cs) (runLength marks (encoded cs)) :=
  .takeWhile (.and (.not .isMarkupBlank) (.not (.contains h))) cs

theorem runLength_encoded_eq_zero (h : marks.all isAscii) (cs : List Char) :
    runLength marks (encoded cs) = 0 ↔ runLength marks cs = 0 := by
  rw [runLength, takeWhile_encoded (.and (.not .isMarkupBlank) (.not (.contains h))),
    length_encoded, byteLength_eq_zero, runLength, List.length_eq_zero_iff]

theorem measures_blanks (cs : List Char) : Measures cs (blanks cs) (blanks (encoded cs)) :=
  .takeWhile .isMarkupBlank cs

theorem blanks_encoded_eq_zero (cs : List Char) : blanks (encoded cs) = 0 ↔ blanks cs = 0 := by
  rw [blanks, takeWhile_encoded .isMarkupBlank, length_encoded, byteLength_eq_zero, blanks,
    List.length_eq_zero_iff]

theorem measures_lengthThrough (h : close.all isAscii) (hne : close ≠ []) (cs : List Char) :
    Measures cs (lengthThrough close cs) (lengthThrough close (encoded cs)) := by
  unfold lengthThrough
  rw [splitAt?_encoded h hne]
  cases hsplit : splitAt? close cs with
  | none => exact .whole cs
  | some p =>
    obtain ⟨rfl, hstart, -⟩ := (splitAt?_eq_some_iff hne).mp hsplit
    obtain ⟨rest, hrest⟩ := startsWith_iff.mp hstart
    have hclose := encoded_of_isAscii fun c hc => List.all_eq_true.mp h c hc
    refine @Measures.of_append _ (p.1 ++ close) rest _ _ (by simp [hrest]) (by simp) ?_
    simp only [Option.map_some, encoded_append, List.length_append, hclose]

theorem measures_lengthUpTo (h : close.all isAscii) (hne : close ≠ []) (cs : List Char) :
    Measures cs (lengthUpTo close cs) (lengthUpTo close (encoded cs)) := by
  unfold lengthUpTo
  rw [splitAt?_encoded h hne]
  cases hsplit : splitAt? close cs with
  | none => exact .whole cs
  | some p =>
    obtain ⟨rfl, -⟩ := (splitAt?_eq_some_iff hne).mp hsplit
    exact .of_append rfl rfl rfl

variable {stop : Balanced.Stop}

theorem takeUntil_encoded (hstop : Balanced.SeesAscii stop) (hprev : AsciiEq prev prev')
    (cs : List Char) :
    Balanced.takeUntil stop prev' (encoded cs) = encoded (Balanced.takeUntil stop prev cs) :=
  Balanced.takeFrom_encoded hstop (.code 0) hprev cs

theorem measures_scriptLength (hstop : Balanced.SeesAscii stop) (hprev : AsciiEq prev prev')
    (cs : List Char) :
    Measures cs (scriptLength stop prev cs) (scriptLength stop prev' (encoded cs)) := by
  refine .of_append (Balanced.takeUntil_append_drop stop prev cs).symm rfl ?_
  rw [scriptLength, takeUntil_encoded hstop hprev]

theorem scriptLength_encoded_eq_length (hstop : Balanced.SeesAscii stop)
    (hprev : AsciiEq prev prev') (cs : List Char) :
    scriptLength stop prev' (encoded cs) = (encoded cs).length ↔
      scriptLength stop prev cs = cs.length := by
  have hcs := Balanced.takeUntil_append_drop stop prev cs
  have hlen := congrArg List.length hcs
  have hbytes := congrArg byteLength hcs
  rw [List.length_append] at hlen
  rw [byteLength_append] at hbytes
  rw [scriptLength, takeUntil_encoded hstop hprev, length_encoded, length_encoded, scriptLength]
  have hnil := @byteLength_eq_zero (cs.drop (Balanced.takeUntil stop prev cs).length)
  rw [← List.length_eq_zero_iff] at hnil
  omega

end

def Mode.asksAscii : Mode → Bool
  | .tag raw => raw.all (·.all isAscii)
  | .quotedValue quote => isAscii quote
  | _ => true

def Modes.AskAscii (modes : Modes) : Prop := ∀ mode ∈ modes, mode.asksAscii

def Move.lexemeLength (move : Move) : Nat := (move.lexeme.map (·.2)).getD 0

/-- The same move on the text and on its bytes. -/
structure Move.Encodes (cs : List Char) (move move' : Move) : Prop where
  before : Measures cs move.before move'.before
  kind : move'.lexeme.map (·.1) = move.lexeme.map (·.1)
  lexeme : Measures (cs.drop move.before) move.lexemeLength move'.lexemeLength
  after : Measures ((cs.drop move.before).drop move.lexemeLength) move.after move'.after
  change : move'.change = move.change
  asks : ∀ modes, Modes.AskAscii modes → Modes.AskAscii (move.change modes)

/-- The same on the text and on its bytes: a move, or a refusal of the same place. -/
inductive Outcome.Encodes (cs : List Char) : Outcome → Outcome → Prop
  | refused {n m} (h : Measures cs n m) : Encodes cs (.error n) (.error m)
  | moved {move move'} (h : move.Encodes cs move') : Encodes cs (.ok move) (.ok move')

theorem Modes.AskAscii.tail (h : modes.AskAscii) : Modes.AskAscii modes.tail :=
  fun mode hmode => h mode (List.mem_of_mem_tail hmode)

theorem Modes.AskAscii.cons (hmode : mode.asksAscii) (h : modes.AskAscii) :
    Modes.AskAscii (mode :: modes) := by
  intro m hm
  rcases List.mem_cons.mp hm with rfl | hm
  · exact hmode
  · exact h m hm

namespace Move.Encodes

variable {cs : List Char} {n m : Nat} {kind : LexemeKind} {mode inner : Mode}

theorem pass (h : Measures cs n m) : (Move.pass n).Encodes cs (.pass m) :=
  ⟨h, rfl, .zero _, .zero _, rfl, fun _ h => h⟩

theorem emit (h : Measures cs n m) : (Move.emit kind n).Encodes cs (.emit kind m) :=
  ⟨.zero _, rfl, h, .zero _, rfl, fun _ h => h⟩

theorem emitEnter (h : Measures cs n m) (hmode : mode.asksAscii) :
    (Move.emitEnter kind n mode).Encodes cs (.emitEnter kind m mode) :=
  ⟨.zero _, rfl, h, .zero _, rfl, fun _ h => h.cons hmode⟩

theorem enter (hmode : mode.asksAscii) : (Move.enter mode).Encodes cs (.enter mode) :=
  ⟨.zero _, rfl, .zero _, .zero _, rfl, fun _ h => h.cons hmode⟩

theorem leave (h : Measures cs n m) :
    ({ Move.leave with before := n } : Move).Encodes cs { Move.leave with before := m } :=
  ⟨h, rfl, .zero _, .zero _, rfl, fun _ h => h.tail⟩

theorem become (hmode : mode.asksAscii) (hinner : inner.asksAscii) :
    (Move.become mode inner).Encodes cs (.become mode inner) :=
  ⟨.zero _, rfl, .zero _, .zero _, rfl, fun _ h => (h.tail.cons hmode).cons hinner⟩

theorem emitLeave {n₂ m₂} (h₁ : Measures cs n₁ m₁) (h : Measures (cs.drop n₁) n m)
    (h₂ : Measures ((cs.drop n₁).drop n) n₂ m₂) :
    ({ Move.emitLeave kind n with before := n₁, after := n₂ } : Move).Encodes cs
      { Move.emitLeave kind m with before := m₁, after := m₂ } :=
  ⟨h₁, rfl, h, h₂, rfl, fun _ h => h.tail⟩

theorem emitLeave_zero (h : Measures cs n m) :
    (Move.emitLeave kind n).Encodes cs (.emitLeave kind m) :=
  emitLeave (.zero _) h (.zero _)

theorem passEmitLeave (h₁ : Measures cs n₁ m₁) (h : Measures (cs.drop n₁) n m) :
    ({ Move.emitLeave kind n with before := n₁ } : Move).Encodes cs
      { Move.emitLeave kind m with before := m₁ } :=
  emitLeave h₁ h (.zero _)

theorem doneIf {move move' : Move} (h : move.Encodes cs move') (leaves : Bool) :
    (if leaves then { move with change := List.tail } else move).Encodes cs
      (if leaves then { move' with change := List.tail } else move') := by
  cases leaves with
  | true => exact ⟨h.before, h.kind, h.lexeme, h.after, rfl, fun _ h => h.tail⟩
  | false => exact h

end Move.Encodes

section

variable {cs : List Char} {prev prev' : Option Char}

theorem skippingBlanks_encoded {next next' : Outcome} (h : Outcome.Encodes cs next next') :
    Outcome.Encodes cs (skippingBlanks cs next) (skippingBlanks (encoded cs) next') := by
  simp only [skippingBlanks, blanks_encoded_eq_zero]
  split
  · exact h
  · exact .moved (.pass (measures_blanks cs))

theorem closeMustache_encoded (cs : List Char) :
    Outcome.Encodes cs (closeMustache cs) (closeMustache (encoded cs)) := by
  simp (disch := decide) only [closeMustache, head?_encoded_eq_some]
  split
  · exact .moved (.emitLeave_zero (.one ‹_› (by decide)))
  · exact .refused (.zero _)

theorem inText_encoded (cs : List Char) :
    Outcome.Encodes cs (inText cs) (inText (encoded cs)) := by
  simp (disch := decide) only [inText, startsTag_encoded, startsWith_encoded,
    head?_encoded_eq_some]
  split
  · exact .moved (.pass (measures_lengthThrough (by decide) (by decide) cs))
  split
  · exact .moved (.pass (measures_lengthThrough (by decide) (by decide) cs))
  split
  · exact .moved (.pass (measures_lengthThrough (by decide) (by decide) cs))
  split
  · exact .moved (.emitEnter (.startsWith ‹_› (by decide)) rfl)
  split
  · exact .moved (.emitEnter (.one ‹_› (by decide)) rfl)
  split
  · exact .moved (.emitEnter (.one ‹_› (by decide)) rfl)
  · exact .moved (.pass (.takeWhile (.and (.bne (by decide)) (.bne (by decide))) cs))

theorem rawTextElements_encoded (name : List Char) :
    (if rawTextElements.contains (String.ofList (encoded name)) then some (encoded name) else none) =
      if rawTextElements.contains (String.ofList name) then some name else none := by
  have hraw (element : String) (he : element ∈ rawTextElements) :
      String.ofList (encoded name) = element ↔ String.ofList name = element := by
    have hascii : element.toList.all isAscii := by
      have hall : ∀ e ∈ rawTextElements, e.toList.all isAscii := by decide
      exact hall element he
    rw [← String.toList_inj, ← String.toList_inj, String.toList_ofList, String.toList_ofList]
    exact encoded_eq_iff hascii
  by_cases hmem : String.ofList name ∈ rawTextElements
  · have hname : encoded name = name := by
      have := (hraw _ hmem).mpr rfl
      rwa [String.ofList_inj] at this
    rw [hname]
  · have hmem' : String.ofList (encoded name) ∉ rawTextElements :=
      fun h => hmem ((hraw _ h).mp rfl ▸ h)
    simp [hmem, hmem']

theorem asksAscii_tag (name : List Char) :
    (Mode.tag (if rawTextElements.contains (String.ofList name) then some name else none)).asksAscii := by
  split
  · rename_i hmem
    have hall : ∀ e ∈ rawTextElements, e.toList.all isAscii := by decide
    have := hall _ (by simpa using hmem)
    simpa [Mode.asksAscii] using this
  · rfl

theorem inTag_encoded {raw} (hraw : (Mode.tag raw).asksAscii) (cs : List Char) :
    Outcome.Encodes cs (inTag raw cs) (inTag raw (encoded cs)) := by
  simp (disch := decide) only [inTag, head?_encoded_eq_some, startsWith_encoded, isBlankOr_encoded]
  split
  · rename_i hhead
    have hone : Measures cs 1 1 := .one hhead (by decide)
    refine .moved (.emitLeave (.zero _) hone ?_)
    cases raw with
    | none => exact .zero _
    | some name =>
      have hclose : ("</".toList ++ name).all isAscii := by simpa [Mode.asksAscii, isAscii] using hraw
      rw [← List.drop_one, ← List.drop_one, hone.drop]
      exact measures_lengthUpTo hclose (by simp) (cs.drop 1)
  split
  · exact .moved (.emitLeave_zero (.startsWith ‹_› (by decide)))
  split
  · exact .refused (.zero _)
  · have hrun := measures_runLength (show ['/', '>'].all isAscii by decide) cs
    rw [hrun, rawTextElements_encoded, Uniform.isAsciiUpper.any_eq (head?_encoded cs)]
    refine .moved ⟨.zero _, rfl, hrun, .zero _, rfl, fun modes h => ?_⟩
    exact (h.tail.cons (asksAscii_tag _)).cons rfl

theorem inAttributes_encoded (cs : List Char) :
    Outcome.Encodes cs (inAttributes cs) (inAttributes (encoded cs)) := by
  refine skippingBlanks_encoded ?_
  rw [isOneOf_encoded (by decide)]
  split
  · exact .moved (.leave (.zero _))
  · exact .moved (.enter rfl)

theorem inAttribute_encoded (cs : List Char) :
    Outcome.Encodes cs (inAttribute cs) (inAttribute (encoded cs)) := by
  simp (disch := decide) only [inAttribute, head?_encoded_eq_some, isBlankOr_encoded]
  split
  · exact .moved (.emitEnter (.one ‹_› (by decide)) rfl)
  split
  · exact .moved (.emitEnter (.one ‹_› (by decide)) rfl)
  split
  · exact .moved (.leave (.zero _))
  split
  · exact .refused (.zero _)
  · exact .moved (.enter rfl)

theorem inAttributeName_encoded (hprev : AsciiEq prev prev') (cs : List Char) :
    Outcome.Encodes cs (inAttributeName prev cs) (inAttributeName prev' (encoded cs)) := by
  simp (disch := decide) only [inAttributeName, head?_encoded_eq_some, isBlankOr_encoded,
    runLength_encoded_eq_zero, Uniform.isMarkupBlank.all_eq hprev]
  split
  · exact .moved (.leave (.zero _))
  split
  · rename_i hhead
    have hone : Measures cs 1 1 := .one hhead (by decide)
    have htail := hone.drop
    rw [List.drop_one, List.drop_one] at htail
    rw [htail]
    have hsame := isBlankOr_encoded (show ['>', '=', '/', '|'].all isAscii by decide) cs.tail
    cases hnext : cs.tail with
    | nil => simpa using .refused (.zero _)
    | cons d ds =>
      obtain ⟨b, bs, hbytes⟩ := List.exists_cons_of_ne_nil
        (show encoded (d :: ds) ≠ [] by simp [bytesOf_ne_nil])
      rw [hnext, hbytes, List.head?_cons, List.head?_cons] at hsame
      simp only [hbytes, hsame]
      split
      · exact .refused (.zero _)
      · exact .moved (.emitEnter hone rfl)
  split
  · exact .refused (.zero _)
  · exact .moved (.emit (measures_runLength (by decide) cs))

theorem inDirective_encoded (modifiers : Bool) (cs : List Char) :
    Outcome.Encodes cs (inDirective modifiers cs) (inDirective modifiers (encoded cs)) := by
  have hdrop := (measures_runLength (show
    ['{', '}', '\'', '"', '|', '=', '/', '>'].all isAscii by decide) cs).drop
  simp (disch := decide) only [inDirective, head?_encoded_eq_some, isBlankOr_encoded,
    runLength_encoded_eq_zero, hdrop]
  split
  · exact .moved (.leave (.zero _))
  split
  · have hone : Measures cs 1 1 := .one ‹_› (by decide)
    split
    · exact .moved (.emit hone)
    · exact .moved (.emitEnter hone rfl)
  split
  · exact .refused (.zero _)
  · exact .moved (.emit (measures_runLength (by decide) cs))

theorem inAttributeValue_encoded (hprev : AsciiEq prev prev') (cs : List Char) :
    Outcome.Encodes cs (inAttributeValue prev cs) (inAttributeValue prev' (encoded cs)) := by
  have hdrop := (measures_runLength (show
    ['{', '}', '\'', '"', '/', '>'].all isAscii by decide) cs).drop
  simp (disch := decide) only [inAttributeValue, head?_encoded_eq_some, isBlankOr_encoded,
    runLength_encoded_eq_zero, hdrop, ne_eq, hprev.eq_some_iff]
  split
  · exact .moved (.emitEnter (.one ‹_› (by decide)) rfl)
  split
  · exact .moved (.emitEnter (.one ‹_› (by decide)) rfl)
  split
  · exact .moved (.emitEnter (.one ‹_› (by decide)) rfl)
  split
  · exact .moved (.leave (.zero _))
  split
  · exact .refused (.zero _)
  · exact .moved (.emit (measures_runLength (by decide) cs))

theorem inQuotedValue_encoded {quote} (hquote : isAscii quote) (hprev : AsciiEq prev prev')
    (cs : List Char) :
    Outcome.Encodes cs (inQuotedValue quote prev cs) (inQuotedValue quote prev' (encoded cs)) := by
  simp (disch := first | exact hquote | decide) only [inQuotedValue, head?_encoded_eq_some,
    hprev.eq_some_iff]
  split
  · split
    · exact .refused (.zero _)
    · exact .moved (.emitLeave_zero (.one ‹_› hquote))
  split
  · exact .moved (.emitEnter (.one ‹_› (by decide)) rfl)
  split
  · exact .refused (.zero _)
  · exact .moved (.emit (.takeWhile (.and (.and (.bne hquote) (.bne (by decide))) (.bne (by decide))) cs))

theorem inClosingTag_encoded (cs : List Char) :
    Outcome.Encodes cs (inClosingTag cs) (inClosingTag (encoded cs)) := by
  simp (disch := decide) only [inClosingTag, head?_encoded_eq_some, runLength_encoded_eq_zero]
  split
  · exact .moved (.emitLeave_zero (.one ‹_› (by decide)))
  split
  · exact .refused (.zero _)
  · exact .moved (.emitEnter (measures_runLength (by decide) cs) rfl)

theorem find?_encoded {words : List (String × LexemeKind)}
    (h : words.all fun w => w.1.toList.all isAscii) (cs : List Char) :
    (words.find? fun w => startsWith w.1.toList (encoded cs)) =
      words.find? fun w => startsWith w.1.toList cs := by
  induction words with
  | nil => rfl
  | cons w words ih =>
    obtain ⟨hw, hwords⟩ := Bool.and_eq_true_iff.mp (List.all_cons ▸ h)
    rw [List.find?_cons, List.find?_cons, startsWith_encoded hw, ih hwords]

theorem inMustache_encoded (entered : Bool) (cs : List Char) :
    Outcome.Encodes cs (inMustache entered cs) (inMustache entered (encoded cs)) := by
  unfold inMustache
  split
  · exact .moved (.leave (.zero _))
  · refine skippingBlanks_encoded ?_
    split
    · rename_i hfind
      erw [find?_encoded (by decide), hfind]
      exact .moved (.become rfl rfl)
    · rename_i word kind hfind
      obtain ⟨hascii, hmode⟩ : word.toList.all isAscii ∧ (modeAfter kind).asksAscii := by
        have hall : ∀ w ∈ mustacheKeywords, w.1.toList.all isAscii ∧ (modeAfter w.2).asksAscii := by
          decide
        exact hall _ (List.mem_of_find?_eq_some hfind)
      have hword : Measures cs word.length word.length := by
        have hstart := List.find?_some hfind
        rw [← String.length_toList]
        exact .startsWith hstart hascii
      erw [find?_encoded (by decide), hfind]
      refine .moved ⟨.zero _, rfl, hword, .zero _, rfl, fun _ h => ?_⟩
      exact (h.tail.cons rfl).cons hmode

theorem exists_head?_drop_scriptLength {marks : List Char}
    (h : scriptLength (Balanced.atAny marks) prev cs ≠ cs.length) :
    ∃ d ∈ marks, (cs.drop (scriptLength (Balanced.atAny marks) prev cs)).head? = some d := by
  have hle := Balanced.length_takeUntil_le (Balanced.atAny marks) prev cs
  have hmarks := Balanced.head?_drop_takeUntil_atAny marks prev cs
  cases hdrop : cs.drop (scriptLength (Balanced.atAny marks) prev cs) with
  | nil =>
    rw [List.drop_eq_nil_iff] at hdrop
    exact absurd (Nat.le_antisymm hle hdrop) h
  | cons d ds =>
    rw [scriptLength] at hdrop
    rw [hdrop] at hmarks
    exact ⟨d, by simpa using hmarks, rfl⟩

theorem startsWith_drop_scriptLength
    (h : ¬(isOneOf ['}'] (cs.drop (scriptLength (Balanced.atBraceOr word) prev cs)).head? ||
      scriptLength (Balanced.atBraceOr word) prev cs = cs.length)) :
    startsWith word (cs.drop (scriptLength (Balanced.atBraceOr word) prev cs)) := by
  obtain ⟨rest, hrest, hstop⟩ := Balanced.takeUntil_append (Balanced.atBraceOr word) prev cs
  have hdrop : cs.drop (scriptLength (Balanced.atBraceOr word) prev cs) = rest := by
    have := congrArg (List.drop (scriptLength (Balanced.atBraceOr word) prev cs)) hrest
    rwa [scriptLength, List.drop_left] at this
  rw [hdrop, Bool.or_eq_true, decide_eq_true_eq, not_or] at h
  have hne : rest ≠ [] := by
    rintro rfl
    rw [List.append_nil] at hrest
    exact h.2 (congrArg List.length hrest).symm
  obtain ⟨prev', hprev'⟩ := hstop hne
  have hword : Balanced.atKeyword word prev' rest := by
    have hbrace : Balanced.atAny ['}'] prev' rest = false := Bool.eq_false_iff.mpr h.1
    simpa [Balanced.atBraceOr, hbrace] using hprev'
  rw [hdrop]
  simp only [Balanced.atKeyword, Bool.and_eq_true] at hword
  exact hword.1.1

theorem inExpression_encoded (hprev : AsciiEq prev prev') (cs : List Char) :
    Outcome.Encodes cs (inExpression prev cs) (inExpression prev' (encoded cs)) := by
  have hstop : Balanced.SeesAscii (Balanced.atAny ['}']) := .atAny (by decide)
  have hscript := measures_scriptLength hstop hprev cs
  have hall := scriptLength_encoded_eq_length hstop hprev cs
  have hle : scriptLength (Balanced.atAny ['}']) prev cs ≤ cs.length :=
    Balanced.length_takeUntil_le ..
  have hle' : scriptLength (Balanced.atAny ['}']) prev' (encoded cs) ≤ (encoded cs).length :=
    Balanced.length_takeUntil_le ..
  simp only [inExpression]
  by_cases hend : scriptLength (Balanced.atAny ['}']) prev cs = cs.length
  · rw [if_neg (by simp [hend]), if_neg (by simp [hall.mpr hend])]
    exact .moved (.pass hscript)
  · rw [if_pos (Nat.lt_of_le_of_ne hle hend), if_pos (Nat.lt_of_le_of_ne hle' (hall.not.mpr hend))]
    obtain ⟨d, hd, hhead⟩ := exists_head?_drop_scriptLength hend
    obtain rfl : d = '}' := by simpa using hd
    exact .moved (.passEmitLeave hscript (.one hhead (by decide)))

theorem inElse_encoded (cs : List Char) :
    Outcome.Encodes cs (inElse cs) (inElse (encoded cs)) := by
  refine skippingBlanks_encoded ?_
  rw [startsWith_encoded (by decide)]
  cases hstart : startsWith "if".toList cs with
  | false => exact closeMustache_encoded cs
  | true =>
    have htwo : Measures cs 2 2 := .startsWith hstart (by decide)
    rw [htwo.drop, isBlankOr_encoded (by decide)]
    split
    · exact .moved (.emitEnter htwo rfl)
    · exact closeMustache_encoded cs

theorem inElseCondition_encoded (hprev : AsciiEq prev prev') (cs : List Char) :
    Outcome.Encodes cs (inElseCondition prev cs) (inElseCondition prev' (encoded cs)) :=
  .moved (.leave (measures_scriptLength (.atAny (by decide)) hprev cs))

theorem inEach_encoded (phase : Phase) (cs : List Char) :
    Outcome.Encodes cs (inEach phase cs) (inEach phase (encoded cs)) := by
  cases phase with
  | start => exact .moved (.become rfl rfl)
  | middle => exact .moved (.become rfl rfl)
  | tail =>
    refine skippingBlanks_encoded ?_
    split
    · rename_i hhead
      rw [(head?_encoded_eq_some (by decide)).mpr hhead]
      exact .moved (.emitEnter (.one hhead (by decide)) rfl)
    · rename_i hhead
      rw [(head?_encoded_eq_some (by decide)).mpr hhead]
      exact .moved (.emitEnter (.one hhead (by decide)) rfl)
    · rename_i hhead
      rw [(head?_encoded_eq_some (by decide)).mpr hhead]
      exact .moved (.emitEnter (.one hhead (by decide)) rfl)
    · rename_i hcomma hopen hmark
      rw [← head?_encoded_eq_some (by decide)] at hcomma hopen hmark
      split
      · exact absurd ‹_› hcomma
      · exact absurd ‹_› hopen
      · exact absurd ‹_› hmark
      · exact closeMustache_encoded cs

theorem inEachExpression_encoded (hprev : AsciiEq prev prev') (cs : List Char) :
    Outcome.Encodes cs (inEachExpression prev cs) (inEachExpression prev' (encoded cs)) := by
  have hstop : Balanced.SeesAscii (Balanced.atBraceOr "as".toList) :=
    .atBraceOr (by decide) (by decide)
  have hscript := measures_scriptLength hstop hprev cs
  simp only [inEachExpression, hscript.drop, isOneOf_encoded (show ['}'].all isAscii by decide),
    scriptLength_encoded_eq_length hstop hprev]
  split
  · exact .refused hscript
  · rename_i hend
    have hword := startsWith_drop_scriptLength (by simpa using hend)
    exact .moved (.passEmitLeave hscript (.startsWith hword (by decide)))

theorem inEachContext_encoded (hprev : AsciiEq prev prev') (cs : List Char) :
    Outcome.Encodes cs (inEachContext prev cs) (inEachContext prev' (encoded cs)) :=
  .moved (.leave (measures_scriptLength (.atAny (by decide)) hprev cs))

theorem inEachIndex_encoded (cs : List Char) :
    Outcome.Encodes cs (inEachIndex cs) (inEachIndex (encoded cs)) := by
  refine skippingBlanks_encoded ?_
  simp (disch := decide) only [runLength_encoded_eq_zero]
  split
  · exact .refused (.zero _)
  · exact .moved (.emitLeave_zero (measures_runLength (by decide) cs))

theorem inEachGroupedKey_encoded (hprev : AsciiEq prev prev') (cs : List Char) :
    Outcome.Encodes cs (inEachGroupedKey prev cs) (inEachGroupedKey prev' (encoded cs)) := by
  have hstop : Balanced.SeesAscii (Balanced.atAny [')']) := .atAny (by decide)
  have hscript := measures_scriptLength hstop hprev cs
  simp only [inEachGroupedKey, scriptLength_encoded_eq_length hstop hprev]
  split
  · exact .refused hscript
  · rename_i hend
    obtain ⟨d, hd, hhead⟩ := exists_head?_drop_scriptLength hend
    obtain rfl : d = ')' := by simpa using hd
    exact .moved (.passEmitLeave hscript (.one hhead (by decide)))

theorem inEachNamedKey_encoded (cs : List Char) :
    Outcome.Encodes cs (inEachNamedKey cs) (inEachNamedKey (encoded cs)) := by
  simp (disch := decide) only [inEachNamedKey, runLength_encoded_eq_zero]
  split
  · exact .refused (.zero _)
  · exact .moved (.emitLeave_zero (measures_runLength (by decide) cs))

theorem inAwaitExpression_encoded (hprev : AsciiEq prev prev') (cs : List Char) :
    Outcome.Encodes cs (inAwaitExpression prev cs) (inAwaitExpression prev' (encoded cs)) := by
  have hstop : Balanced.SeesAscii (Balanced.atBraceOr "then".toList) :=
    .atBraceOr (by decide) (by decide)
  have hscript := measures_scriptLength hstop hprev cs
  simp only [inAwaitExpression, hscript.drop, isOneOf_encoded (show ['}'].all isAscii by decide),
    scriptLength_encoded_eq_length hstop hprev]
  split
  · exact .moved (.leave hscript)
  · rename_i hend
    have hword := startsWith_drop_scriptLength (by simpa using hend)
    refine .moved ⟨hscript, rfl, .startsWith hword (by decide), .zero _, rfl, fun _ h => ?_⟩
    exact h.tail.cons rfl

theorem measures_bracketed (hhead : cs.head? = some d) (hd : isAscii d) :
    Measures cs (scriptLength (Balanced.atAny ['}', ']']) cs.head? cs.tail + 2)
      (scriptLength (Balanced.atAny ['}', ']']) (encoded cs).head? (encoded cs).tail + 2) := by
  obtain ⟨cs, rfl⟩ := List.head?_eq_some_iff.mp hhead
  have hstop : Balanced.SeesAscii (Balanced.atAny ['}', ']']) := .atAny (by decide)
  have hscript := measures_scriptLength hstop (.inl (Eq.refl (some d))) cs
  have hall := scriptLength_encoded_eq_length hstop (.inl (Eq.refl (some d))) cs
  have hbytes : encoded (d :: cs) = d :: encoded cs := by
    rw [encoded_cons, bytesOf_of_isAscii hd, List.singleton_append]
  rw [hbytes, List.head?_cons, List.tail_cons, List.head?_cons, List.tail_cons]
  by_cases hend : scriptLength (Balanced.atAny ['}', ']']) (some d) cs = cs.length
  · refine .of_length_le ?_ ?_
    · rw [hend, List.length_cons]
      omega
    · rw [hall.mpr hend, hbytes, List.length_cons]
      omega
  · obtain ⟨e, he, hclose⟩ := exists_head?_drop_scriptLength hend
    have hascii : isAscii e := List.all_eq_true.mp (show ['}', ']'].all isAscii by decide) e he
    have := (Measures.one hhead hd).add (hscript.add (.one hclose hascii))
    rwa [Nat.add_comm, Nat.add_comm 1] at this

theorem inBlockValue_encoded (kind : LexemeKind) (compact : Bool) (cs : List Char) :
    Outcome.Encodes cs (inBlockValue kind compact cs) (inBlockValue kind compact (encoded cs)) := by
  refine skippingBlanks_encoded ?_
  split
  · rename_i hhead
    rw [(head?_encoded_eq_some (by decide)).mpr hhead]
    cases compact with
    | true => exact .moved (.leave (.zero _))
    | false => exact closeMustache_encoded cs
  · rename_i hhead
    have hpass := measures_bracketed hhead (by decide)
    rw [(head?_encoded_eq_some (by decide)).mpr hhead] at hpass ⊢
    exact .moved (.doneIf (.pass hpass) compact)
  · rename_i hhead
    have hpass := measures_bracketed hhead (by decide)
    rw [(head?_encoded_eq_some (by decide)).mpr hhead] at hpass ⊢
    exact .moved (.doneIf (.pass hpass) compact)
  · rename_i hclose hbrace hbracket
    rw [← head?_encoded_eq_some (by decide)] at hclose hbrace hbracket
    simp only
    exact .moved (.doneIf (.emit (measures_runLength (by decide) cs)) compact)

theorem inDebug_encoded (hprev : AsciiEq prev prev') (cs : List Char) :
    Outcome.Encodes cs (inDebug prev cs) (inDebug prev' (encoded cs)) := by
  have hstop : Balanced.SeesAscii (Balanced.atAny [',', '}']) := .atAny (by decide)
  have hscript := measures_scriptLength hstop hprev cs
  simp only [inDebug, hscript.drop]
  split
  · rename_i hhead
    rw [List.head?_eq_none_iff] at hhead
    rw [hhead]
    exact .moved (.pass hscript)
  · rename_i hhead
    rw [(head?_encoded_eq_some (by decide)).mpr hhead]
    exact .moved ⟨hscript, rfl, .one hhead (by decide), .zero _, rfl, fun _ h => h⟩
  · rename_i d hcomma hhead
    obtain rfl : d = '}' := by
      have hmark := Balanced.head?_drop_takeUntil_atAny [',', '}'] prev cs
      rw [scriptLength] at hhead
      rw [hhead] at hmark
      rcases (show d = ',' ∨ d = '}' by simpa using hmark) with h | h
      · exact absurd h hcomma
      · exact h
    rw [(head?_encoded_eq_some (by decide)).mpr hhead]
    exact .moved (.passEmitLeave hscript (.one hhead (by decide)))

theorem move_encoded (hmode : mode.asksAscii) (hprev : AsciiEq prev prev') (cs : List Char) :
    Outcome.Encodes cs (mode.move prev cs) (mode.move prev' (encoded cs)) := by
  match mode, hmode with
  | .text, _ => exact inText_encoded cs
  | .tag raw, hmode => exact inTag_encoded hmode cs
  | .attributes, _ => exact inAttributes_encoded cs
  | .attribute, _ => exact inAttribute_encoded cs
  | .attributeName, _ => exact inAttributeName_encoded hprev cs
  | .directiveName, _ => exact inDirective_encoded false cs
  | .directiveModifiers, _ => exact inDirective_encoded true cs
  | .attributeValue, _ => exact inAttributeValue_encoded hprev cs
  | .quotedValue quote, hmode => exact inQuotedValue_encoded hmode hprev cs
  | .closingTag, _ => exact inClosingTag_encoded cs
  | .closingTagEnd, _ =>
    refine skippingBlanks_encoded ?_
    simp (disch := decide) only [head?_encoded_eq_some]
    split
    · exact .moved (.leave (.zero _))
    · exact .refused (.zero _)
  | .mustache entered, _ => exact inMustache_encoded entered cs
  | .expression, _ => exact inExpression_encoded hprev cs
  | .elseBranch, _ => exact inElse_encoded cs
  | .elseCondition, _ => exact inElseCondition_encoded hprev cs
  | .each phase, _ => exact inEach_encoded phase cs
  | .eachExpression, _ => exact inEachExpression_encoded hprev cs
  | .eachContext, _ => exact inEachContext_encoded hprev cs
  | .eachIndex, _ => exact inEachIndex_encoded cs
  | .eachGroupedKey, _ => exact inEachGroupedKey_encoded hprev cs
  | .eachNamedKey, _ => exact inEachNamedKey_encoded cs
  | .await .start, _ => exact .moved (.become rfl rfl)
  | .await .middle, _ | .await .tail, _ | .blockEnd, _ =>
    exact skippingBlanks_encoded (closeMustache_encoded cs)
  | .awaitExpression, _ => exact inAwaitExpression_encoded hprev cs
  | .blockValue kind compact, _ => exact inBlockValue_encoded kind compact cs
  | .debug, _ => exact inDebug_encoded hprev cs

end

end SvelteSyntax.Markup
