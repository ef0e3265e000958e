import SvelteSyntax.Proofs.Markup.Rules.Siblings

namespace SvelteSyntax.Markup

open Text Script Run

variable {α β γ : Type} {i : Input} {p p' : Progress} {before text text' rest : List Char}
  {word : String} {d : Char}

/-- The state stands between the two parts of the source. -/
structure At (i : Input) (before rest : List Char) (p : Progress) : Prop where
  source : i.source = before ++ rest
  rest : p.cursor.rest = rest
  offset : p.cursor.offset = byteLength before

theorem At.still (h : At i before rest p) (hcursor : p'.cursor = p.cursor) : At i before rest p' :=
  ⟨h.source, hcursor ▸ h.rest, hcursor ▸ h.offset⟩

theorem At.skip (h : At i before (text ++ rest) p) :
    At i (before ++ text) rest (p.goTo (p.cursor.skip text.length)) where
  source := by rw [h.source, List.append_assoc]
  rest := Cursor.rest_skip_length h.rest
  offset := by rw [Progress.cursor_goTo, Cursor.offset_skip_length h.rest, h.offset, byteLength_append]

def Reads (rule : Read α) (i : Input) (before text rest : List Char) (a : α) : Prop :=
  ∀ p, At i before (text ++ rest) p →
    ∃ p', Gives rule i p a p' ∧ At i (before ++ text) rest p' ∧ p'.aside = p.aside

namespace Reads

theorem pure (a : α) : Reads (pure a) i before [] rest a := by
  intro p hp
  refine ⟨p, gives_pure.mpr ⟨rfl, rfl⟩, ?_, rfl⟩
  rw [List.append_nil]
  exact hp

theorem bind {rule : Read α} {f : α → Read β} {a : α} {b : β}
    (h : Reads rule i before text (text' ++ rest) a) (h' : Reads (f a) i (before ++ text) text' rest b) :
    Reads (rule >>= f) i before (text ++ text') rest b := by
  intro p hp
  rw [List.append_assoc] at hp
  obtain ⟨q, hrule, hq, haside⟩ := h p hp
  obtain ⟨p', hnext, hp', haside'⟩ := h' q hq
  refine ⟨p', gives_bind.mpr ⟨a, q, hrule, hnext⟩, ?_, haside'.trans haside⟩
  rw [← List.append_assoc]
  exact hp'

theorem bind_char {rule : Read α} {f : α → Read β} {a : α} {b : β}
    (h : Reads rule i before [d] (text' ++ rest) a) (h' : Reads (f a) i (before ++ [d]) text' rest b) :
    Reads (rule >>= f) i before (d :: text') rest b :=
  .bind h h'

theorem bind_last {rule : Read α} {f : α → Read β} {a : α} {b : β}
    (h : Reads rule i before text rest a) (h' : Reads (f a) i (before ++ text) [] rest b) :
    Reads (rule >>= f) i before text rest b := by
  have hboth : Reads (rule >>= f) i before (text ++ []) rest b := .bind h h'
  rwa [List.append_nil] at hboth

theorem bind_still {rule : Read α} {f : α → Read β} {a : α} {b : β}
    (h : Reads rule i before [] (text ++ rest) a) (h' : Reads (f a) i before text rest b) :
    Reads (rule >>= f) i before text rest b := by
  have hboth : Reads (rule >>= f) i before ([] ++ text) rest b := by
    refine .bind h ?_
    rwa [List.append_nil]
  exact hboth

theorem map {rule : Read α} {a : α} (f : α → β) (h : Reads rule i before text rest a) :
    Reads (f <$> rule) i before text rest (f a) := by
  intro p hp
  obtain ⟨p', hrule, hp', haside⟩ := h p hp
  exact ⟨p', gives_map.mpr ⟨a, hrule, rfl⟩, hp', haside⟩

theorem of_source {rule : Read α} {a : α}
    (h : i.source = before ++ (text ++ rest) → Reads rule i before text rest a) :
    Reads rule i before text rest a :=
  fun p hp => h hp.source p hp

theorem of_cursor {f : Cursor → Read α} {a : α}
    (h : ∀ c, c.rest = text ++ rest → c.offset = byteLength before →
      Reads (f c) i before text rest a) : Reads (cursor >>= f) i before text rest a := by
  intro p hp
  obtain ⟨p', hrule, hp', haside⟩ := h p.cursor hp.rest hp.offset p hp
  exact ⟨p', gives_bind.mpr ⟨_, _, gives_cursor.mpr ⟨rfl, rfl⟩, hrule⟩, hp', haside⟩

theorem of_next {f : Next → Read α} {a : α}
    (h : ∀ c, c.rest = text ++ rest → c.offset = byteLength before →
      Reads (f (nextAt c)) i before text rest a) : Reads (next >>= f) i before text rest a := by
  rw [next_eq, bind_assoc]
  refine of_cursor fun c hc hoffset => ?_
  rw [pure_bind]
  exact h c hc hoffset

theorem of_here {f : Nat → Read α} {a : α} (h : Reads (f (byteLength before)) i before text rest a) :
    Reads (here >>= f) i before text rest a := by
  intro p hp
  obtain ⟨p', hrule, hp', haside⟩ := h p hp
  exact ⟨p', gives_bind.mpr ⟨_, _, gives_here.mpr ⟨hp.offset.symm, rfl⟩, hrule⟩, hp', haside⟩

theorem of_peek {f : Option Char → Read α} {a : α}
    (h : Reads (f (text ++ rest).head?) i before text rest a) :
    Reads (peek? >>= f) i before text rest a := by
  intro p hp
  obtain ⟨p', hrule, hp', haside⟩ := h p hp
  refine ⟨p', gives_bind.mpr ⟨_, _, gives_peek?.mpr ⟨?_, rfl⟩, hrule⟩, hp', haside⟩
  rw [hp.rest]

theorem of_atText {f : Bool → Read α} {a : α}
    (h : Reads (f (startsWith word.toList (text ++ rest))) i before text rest a) :
    Reads (atText word >>= f) i before text rest a := by
  intro p hp
  obtain ⟨p', hrule, hp', haside⟩ := h p hp
  refine ⟨p', gives_bind.mpr ⟨_, _, gives_atText.mpr ⟨?_, rfl⟩, hrule⟩, hp', haside⟩
  rw [hp.rest]

theorem of_goTo {rule : Read α} {a : α}
    (h : ∀ p, p.cursor.rest = text ++ rest → Gives rule i p a (p.goTo (p.cursor.skip text.length))) :
    Reads rule i before text rest a :=
  fun p hp => ⟨_, h p hp.rest, hp.skip, rfl⟩

theorem skip {n} (h : n = text.length) : Reads (skip n) i before text rest () :=
  of_goTo fun p _ => gives_skip.mpr (by rw [h])

theorem expect (word : String) : Reads (expect word) i before word.toList rest () := by
  refine of_goTo fun p hp => gives_expect.mpr ⟨?_, by rw [String.length_toList]⟩
  rw [hp]
  exact startsWith_append_self ..

theorem expect_char (h : word.toList = [d]) :
    Reads (Markup.expect word) i before [d] rest () :=
  h ▸ Reads.expect word

theorem eat (word : String) : Reads (eat word) i before word.toList rest true := by
  refine of_goTo fun p hp => gives_eat.mpr (.inl ⟨rfl, ?_, by rw [String.length_toList]⟩)
  rw [hp]
  exact startsWith_append_self ..

theorem eat_not (h : startsWith word.toList rest = false) :
    Reads (Markup.eat word) i before [] rest false := by
  intro p hp
  refine ⟨p, gives_eat.mpr (.inr ⟨rfl, by rw [hp.rest]; exact h, rfl⟩), ?_, rfl⟩
  rw [List.append_nil]
  exact hp

theorem readWhile {f} (htext : ∀ d ∈ text, f d) (hrest : rest.head?.all (!f ·)) :
    Reads (readWhile f) i before text rest text := by
  refine of_goTo fun p hp => gives_readWhile.mpr ⟨?_, rfl⟩
  rw [hp, takeWhile_append_of_head htext hrest]

theorem skipBlanks (htext : ∀ d ∈ text, isMarkupBlank d) (hrest : rest.head?.all (!isMarkupBlank ·)) :
    Reads skipBlanks i before text rest () := by
  refine of_goTo fun p hp => gives_skipBlanks.mpr ?_
  rw [hp, blanks, takeWhile_append_of_head htext hrest]

theorem skipNoBlanks (hrest : rest.head?.all (!isMarkupBlank ·)) :
    Reads Markup.skipBlanks i before [] rest () :=
  skipBlanks (by simp) hrest

theorem readUpTo {close} (h : splitAt? close.toList (text ++ rest) = some (text, rest)) :
    Reads (readUpTo? close) i before text rest (some text) := by
  refine of_goTo fun p hp => gives_readUpTo?.mpr (.inl ⟨text, rest, rfl, ?_, rfl⟩)
  rw [hp]
  exact h

theorem scriptUpTo {stop} (h : ∀ prev, Balanced.takeUntil stop prev rest = text) :
    Reads (scriptUpTo stop) i before [] rest text := by
  intro p hp
  refine ⟨p, gives_scriptUpTo.mpr ⟨?_, rfl⟩, ?_, rfl⟩
  · rw [hp.rest]
    exact (h _).symm
  · rw [List.append_nil]
    exact hp

theorem of_script {stop} {f : Cursor → List Char → Read α} {a : α} (script : List Char)
    (hscript : ∀ prev, Balanced.takeUntil stop prev (text ++ rest) = script)
    (h : ∀ c, c.rest = text ++ rest → c.offset = byteLength before →
      i.source = before ++ (text ++ rest) → Reads (f c script) i before text rest a) :
    Reads (cursor >>= fun c => Markup.scriptUpTo stop >>= f c) i before text rest a :=
  .of_source fun hsource => .of_cursor fun c hc hoffset =>
    .bind_still (.scriptUpTo hscript) (h c hc hoffset hsource)

theorem finish {kind start stop fields} (hstop : byteLength before = stop) :
    Reads (finish kind start fields) i before [] rest { kind, start, stop, fields } := by
  intro p hp
  refine ⟨p, gives_finish.mpr ⟨?_, rfl⟩, ?_, rfl⟩
  · rw [hp.offset, hstop]
  · rw [List.append_nil]
    exact hp

end Reads

def laidOut {γ : Type} (print : γ → List Char) (value : Nat → γ → α) : Nat → List γ → List α
  | _, [] => []
  | offset, c :: cs => value offset c :: laidOut print value (offset + byteLength (print c)) cs

theorem Reads.collect {print : γ → List Char} {value : Nat → γ → α} {item : Read (Option α)}
    {cs : List γ} (hround : ∀ c ∈ cs, ∀ before tail,
      Reads item i before (print c) tail (some (value (byteLength before) c)))
    (hlast : ∀ before, Reads item i before [] rest none) {fuel} (hfuel : cs.length < fuel) :
    Reads (collect item fuel) i before (cs.flatMap print) rest
      (laidOut print value (byteLength before) cs) := by
  induction cs generalizing before fuel with
  | nil =>
    obtain ⟨fuel, rfl⟩ := Nat.exists_eq_add_one.mpr hfuel
    exact .bind_still (hlast before) (.pure _)
  | cons c cs ih =>
    obtain ⟨fuel, rfl⟩ : ∃ n, fuel = n + 1 := Nat.exists_eq_add_one.mpr (Nat.zero_lt_of_lt hfuel)
    rw [List.flatMap_cons, Markup.collect]
    refine .bind (hround c (by simp) _ _) ?_
    have hmore := @ih (before ++ print c) (fun d hd => hround d (by simp [hd])) fuel
      (by simpa using hfuel)
    rw [byteLength_append] at hmore
    exact .bind_last hmore (.pure _)

theorem length_le_length_flatMap {print : γ → List Char} {cs : List γ} (hpos : ∀ c ∈ cs, print c ≠ []) :
    cs.length ≤ (cs.flatMap print).length := by
  induction cs with
  | nil => simp
  | cons c cs ih =>
    have hc : 0 < (print c).length := List.length_pos_iff.mpr (hpos c (by simp))
    have hcs := ih fun d hd => hpos d (by simp [hd])
    simp only [List.length_cons, List.flatMap_cons, List.length_append]
    omega

theorem Reads.many {print : γ → List Char} {value : Nat → γ → α} {item : Read (Option α)} {cs : List γ}
    (hpos : ∀ c ∈ cs, print c ≠ []) (hround : ∀ c ∈ cs, ∀ before tail,
      Reads item i before (print c) tail (some (value (byteLength before) c)))
    (hlast : ∀ before, Reads item i before [] rest none) :
    Reads (many item) i before (cs.flatMap print) rest
      (laidOut print value (byteLength before) cs) := by
  refine .of_cursor fun c hc _ => Reads.collect hround hlast ?_
  have hle := length_le_length_flatMap hpos
  rw [hc, List.length_append]
  omega

end SvelteSyntax.Markup
