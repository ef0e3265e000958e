import SvelteSyntax.Proofs.Script.Lengths

namespace SvelteSyntax.Script

open Text

theorem pairwise_punctuators : punctuators.Pairwise fun mark later => ¬mark <+: later := by decide

theorem not_mem_punctuators : ∀ mark ∈ punctuators, ' ' ∉ mark := by decide

variable {mark cs : List Char} {p : Prop} {α : Type} {fuel : Nat}

theorem prefix_of_startsWith {other after : List Char} (hother : ' ' ∉ other)
    (hafter : after = [] ∨ ∃ more, after = ' ' :: more) (h : startsWith other (mark ++ after)) :
    other <+: mark := by
  obtain ⟨rest, hrest⟩ := startsWith_iff.mp h
  by_cases hle : other.length ≤ mark.length
  · exact List.prefix_of_prefix_length_le ⟨rest, hrest.symm⟩ ⟨after, rfl⟩ hle
  · obtain ⟨tail, rfl⟩ := List.prefix_of_prefix_length_le ⟨after, rfl⟩ ⟨rest, hrest.symm⟩
      (Nat.le_of_not_le hle)
    rw [List.append_assoc, List.append_cancel_left_eq] at hrest
    cases tail with
    | nil => simp at hle
    | cons c tail =>
      rcases hafter with rfl | ⟨more, rfl⟩
      · cases hrest
      · obtain ⟨rfl, -⟩ := List.cons.inj hrest
        exact absurd (by simp) hother

theorem punctuator?_of_mem {after : List Char} (hmark : mark ∈ punctuators)
    (hafter : after = [] ∨ ∃ more, after = ' ' :: more) : punctuator? (mark ++ after) = some mark := by
  obtain ⟨before, later, hsplit⟩ := List.append_of_mem hmark
  have hpairwise := pairwise_punctuators
  rw [hsplit, List.pairwise_append] at hpairwise
  refine List.find?_eq_some_iff_append.mpr ⟨?_, before, later, hsplit, fun other hother => ?_⟩
  · rw [startsWith_iff.mpr ⟨after, rfl⟩, Bool.true_and, Bool.not_eq_true', Bool.and_eq_false_iff]
    by_cases hdot : mark = ['?', '.']
    · subst hdot
      refine .inr ?_
      rcases hafter with rfl | ⟨more, rfl⟩
      · rfl
      · rfl
    · exact .inl (by simpa using hdot)
  · have hno : startsWith other (mark ++ after) = false := by
      by_contra h
      have hmem : other ∈ punctuators := by
        rw [hsplit]
        exact List.mem_append_left _ hother
      have hprefix := prefix_of_startsWith (not_mem_punctuators other hmem) hafter
        (by simpa using h)
      exact hpairwise.2.2 other hother mark (List.mem_cons_self ..) hprefix
    simp [hno]

section Pieces

variable {s s' : Surroundings} {kind kind' : TokenKind} {c : Char} {t after after' : List Char}

section Token

variable {n n' : Nat} {cs cs' text : List Char} {braces : List Bool}
  (h : Except.ok (tokenChunk s kind n cs braces) = (.ok (.token kind' text, s') :
    Except ScriptError (Chunk × Surroundings)))
include h

theorem take_of_tokenChunk : cs.take n = text := by
  obtain ⟨htoken, -⟩ := Prod.mk.inj (Except.ok.inj h)
  exact (Chunk.token.inj htoken).2

theorem tokenChunk_again (hagain : cs'.take n' = text) :
    Except.ok (tokenChunk s kind n' cs' braces) = (.ok (.token kind' text, s') :
      Except ScriptError (Chunk × Surroundings)) := by
  rw [← h, tokenChunk, tokenChunk, take_of_tokenChunk h, hagain]

end Token

theorem startsWith_of_spaced {b} (hb : b ≠ ' ') (hafter : Spaced after after')
    (h : startsWith ['/', b] (c :: (t ++ after')) = true) :
    startsWith ['/', b] (c :: (t ++ after)) = true := by
  cases t with
  | nil =>
    rcases hafter.stops with rfl | ⟨more, rfl⟩
    · simp [startsWith] at h
    · simp [startsWith, hb] at h
  | cons d t => simpa [startsWith] using h

theorem head_of_spaced {p : Char → Bool} (hp : p ' ' = false) (hafter : Spaced after after')
    (h : (t ++ after').head?.any p = true) : (t ++ after).head?.any p = true := by
  cases t with
  | nil =>
    rcases hafter.stops with rfl | ⟨more, rfl⟩
    · simp at h
    · simp [hp] at h
  | cons d t => simpa using h

theorem length_of_take {n : Nat} (hle : n ≤ (t ++ after).length)
    (h : (c :: (t ++ after)).take (n + 1) = c :: t) : (t ++ after).take n = t ∧ n = t.length := by
  rw [List.take_succ_cons, List.cons.injEq] at h
  have hlength := congrArg List.length h.2
  rw [List.length_take, Nat.min_eq_left hle] at hlength
  exact ⟨h.2, hlength⟩

theorem stringChunk_spaced {quote} (after' : List Char)
    (h : stringChunk s quote (c :: (t ++ after)) = .ok (.token kind (c :: t), s')) :
    stringChunk s quote (c :: (t ++ after')) = .ok (.token kind (c :: t), s') := by
  unfold stringChunk at h ⊢
  rw [List.drop_succ_cons, List.drop_zero] at h ⊢
  split at h
  · next n hclosed =>
    obtain ⟨-, hle, hagain⟩ := stringExtent_closed hclosed
    obtain ⟨htake, rfl⟩ := length_of_take hle (take_of_tokenChunk h)
    rw [htake] at hagain
    rw [hagain after']
    exact tokenChunk_again h (by simp)
  · cases h

theorem templateChunk_spaced {braces : List Bool} (after' : List Char)
    (h : templateChunk s (c :: (t ++ after)) braces = .ok (.token kind (c :: t), s')) :
    templateChunk s (c :: (t ++ after')) braces = .ok (.token kind (c :: t), s') := by
  unfold templateChunk at h ⊢
  rw [List.drop_succ_cons, List.drop_zero] at h ⊢
  split at h
  · next n more hclosed =>
    obtain ⟨-, hle, hagain⟩ := templateExtent_closed hclosed
    obtain ⟨htake, rfl⟩ := length_of_take hle (take_of_tokenChunk h)
    rw [htake] at hagain
    rw [hagain after']
    exact tokenChunk_again h (by simp)
  · cases h

theorem regexChunk_spaced (hafter : Spaced after after')
    (h : regexChunk s (c :: (t ++ after)) = .ok (.token kind (c :: t), s')) :
    regexChunk s (c :: (t ++ after')) = .ok (.token kind (c :: t), s') := by
  unfold regexChunk at h ⊢
  rw [List.drop_succ_cons, List.drop_zero] at h ⊢
  split at h
  · next n hclosed =>
    obtain ⟨-, hle, hagain⟩ := regexExtent_closed hclosed
    have htake := take_of_tokenChunk h
    rw [List.drop_succ_cons, Nat.add_right_comm] at htake
    have hflags := stays_wordLength.le ((t ++ after).drop n)
    rw [List.length_drop] at hflags
    obtain ⟨-, hlength⟩ := length_of_take (by omega) htake
    have hn : n ≤ t.length := by omega
    rw [List.drop_append_of_le_length hn] at hlength
    have hword : wordLength (t.drop n ++ after') = wordLength (t.drop n ++ after) :=
      stays_wordLength.spaced (t.drop n) after after' hafter (by rw [List.length_drop]; omega)
    have hregex : regexExtent false (t ++ after') = .closed n := by
      have hagain := hagain (t.drop n ++ after')
      rwa [List.take_append_of_le_length hn, ← List.append_assoc, List.take_append_drop] at hagain
    rw [hregex]
    refine tokenChunk_again h ?_
    rw [List.drop_succ_cons, List.drop_append_of_le_length hn, hword, Nat.add_right_comm, hlength]
    simp
  · cases h

def Surroundings.bracesAfter (s : Surroundings) (mark : List Char) : List Bool :=
  if mark = ['\x7b'] then false :: s.braces else if mark = ['\x7d'] then s.braces.tail else s.braces

theorem punctuatorChunk_eq (h : punctuator? cs = some mark) :
    punctuatorChunk s cs = .ok (tokenChunk s .punctuator mark.length cs (s.bracesAfter mark)) := by
  rw [punctuatorChunk, h]
  split
  · next he =>
    cases he
    rfl
  · next he =>
    cases he
    rfl
  · next hopen hclose he =>
    cases he
    have hopen : mark ≠ ['\x7b'] := fun he => hopen (by rw [he])
    have hclose : mark ≠ ['\x7d'] := fun he => hclose (by rw [he])
    rw [Surroundings.bracesAfter, if_neg hopen, if_neg hclose]
  · next he => cases he

theorem punctuatorChunk_spaced (hafter : Spaced after after')
    (h : punctuatorChunk s (c :: (t ++ after)) = .ok (.token kind (c :: t), s')) :
    punctuatorChunk s (c :: (t ++ after')) = .ok (.token kind (c :: t), s') := by
  cases hmark : punctuator? (c :: (t ++ after)) with
  | none =>
    rw [punctuatorChunk, hmark] at h
    cases h
  | some mark =>
    have hfound := List.find?_some hmark
    rw [Bool.and_eq_true] at hfound
    obtain ⟨rest, hrest⟩ := startsWith_iff.mp hfound.1
    rw [punctuatorChunk_eq hmark] at h
    have hsame : mark = c :: t := by rw [← take_of_tokenChunk h, hrest, List.take_left]
    have hagain : punctuator? (c :: (t ++ after')) = some mark := by
      rw [← List.cons_append, ← hsame]
      exact punctuator?_of_mem (List.mem_of_find?_eq_some hmark) hafter.stops
    rw [punctuatorChunk_eq hagain]
    refine tokenChunk_again h ?_
    rw [hsame, ← List.cons_append, List.take_left]

theorem head_of_ne_nil (ht : t ≠ []) (p : Char → Bool) :
    (t ++ after').head?.any p = (t ++ after).head?.any p := by
  cases t with
  | nil => exact absurd rfl ht
  | cons d t => rfl

theorem two_le_numberLength {d} (hd : isAsciiDigit d) (rest : List Char) :
    2 ≤ numberLength ('.' :: d :: rest) := by
  have hrun := runLength_pos rest (p := isNumberChar) (c := d) (by simp [isNumberChar, hd])
  have hmagnitude : 2 ≤ magnitudeLength ('.' :: d :: rest) := by
    have hwhole : runLength isNumberChar ('.' :: d :: rest) = 0 := by
      simp [runLength, isNumberChar, isAsciiDigit]
    rw [magnitudeLength_of_decimal (by simp), decimalLength, hwhole, List.drop_zero, fractionLength]
    omega
  dsimp only [numberLength]
  split <;> omega

theorem ne_nil_of_numberLength (hc : c = '.') (hhead : (t ++ after).head?.any isAsciiDigit = true)
    (hlength : (c :: (t ++ after)).take (numberLength (c :: (t ++ after))) = c :: t) : t ≠ [] := by
  rintro rfl
  subst hc
  cases after with
  | nil => simp at hhead
  | cons d rest =>
    have htwo := two_le_numberLength (d := d) (by simpa using hhead) rest
    have hlength := congrArg List.length hlength
    rw [List.length_take, Nat.min_eq_left (stays_numberLength.le _)] at hlength
    simp only [List.nil_append, List.length_singleton] at hlength
    omega

theorem privateIdentifier_spaced (hafter : Spaced after after')
    (hhead : (t ++ after).head?.any startsWord = true)
    (htake : (c :: (t ++ after)).take (1 + wordLength (t ++ after)) = c :: t) :
    t ≠ [] ∧ (c :: (t ++ after')).take (1 + wordLength (t ++ after')) = c :: t := by
  rw [Nat.add_comm] at htake
  obtain ⟨htake, hlength⟩ := length_of_take (stays_wordLength.le _) htake
  have hagain := stays_wordLength.length_eq hafter htake
  refine ⟨?_, by rw [hagain, Nat.add_comm]; simp⟩
  rintro rfl
  cases after with
  | nil => simp at hhead
  | cons d rest =>
    have hpos := wordLength_pos rest (c := d) (by simpa using hhead)
    rw [List.nil_append] at hlength
    exact absurd hlength (Nat.ne_of_gt hpos)

theorem of_ite_eq {C : Prop} [Decidable p] {x y r : α} (hx : x = r → C) (hy : y = r → C) :
    (if p then x else y) = r → C := by
  split
  · exact hx
  · exact hy

theorem ite_spaced {q} [Decidable p] [Decidable q] {x x' y y' r : α} (hno : ¬p → ¬q)
    (hyes : p → x = r → q ∧ x' = r) (hrest : ¬p → y = r → y' = r) :
    (if p then x else y) = r → (if q then x' else y') = r := by
  by_cases hp : p
  · rw [if_pos hp]
    intro h
    obtain ⟨hq, h⟩ := hyes hp h
    rwa [if_pos hq]
  · rw [if_neg hp, if_neg (hno hp)]
    exact hrest hp

theorem nextChunk_spaced (hafter : Spaced after after') :
    nextChunk s c (t ++ after) = .ok (.token kind (c :: t), s') →
      nextChunk s c (t ++ after') = .ok (.token kind (c :: t), s') := by
  have hcomment : ∀ b ≠ ' ', ¬startsWith ['/', b] (c :: (t ++ after)) = true →
      ¬startsWith ['/', b] (c :: (t ++ after')) = true :=
    fun b hb hno hs => hno (startsWith_of_spaced hb hafter hs)
  refine ite_spaced id (fun _ h => by cases h) fun _ => ?_
  refine ite_spaced (hcomment '/' (by decide)) (fun _ h => by cases h) fun _ => ?_
  refine ite_spaced (hcomment '*' (by decide)) (fun _ h => ?_) fun _ => ?_
  · split at h <;> cases h
  refine ite_spaced ?_ (fun hprivate h => ?_) fun _ => ?_
  · rw [Bool.and_eq_true, Bool.and_eq_true]
    exact mt (And.imp_right (head_of_spaced (by decide) hafter))
  · rw [Bool.and_eq_true] at hprivate
    obtain ⟨ht, hagain⟩ := privateIdentifier_spaced hafter hprivate.2 (take_of_tokenChunk h)
    rw [Bool.and_eq_true, head_of_ne_nil ht]
    exact ⟨hprivate, tokenChunk_again h hagain⟩
  refine ite_spaced id (fun hword h => ⟨hword, ?_⟩) fun _ => ?_
  · have htake := take_of_tokenChunk h
    have hlength : wordLength (c :: t ++ after') = (c :: t).length :=
      stays_wordLength.length_eq hafter htake
    have hagain : (c :: (t ++ after')).take (wordLength (c :: (t ++ after'))) = c :: t := by
      rw [← List.cons_append, hlength, List.take_left]
    dsimp only at h ⊢
    rw [htake] at h
    rw [hagain]
    exact tokenChunk_again h hagain
  refine ite_spaced ?_ (fun hnumber h => ?_) fun _ => ?_
  · rw [Bool.or_eq_true, Bool.or_eq_true, Bool.and_eq_true, Bool.and_eq_true]
    exact mt (Or.imp_right (And.imp_right (head_of_spaced (by decide) hafter)))
  · have htake := take_of_tokenChunk h
    have hlength : numberLength (c :: t ++ after') = (c :: t).length :=
      stays_numberLength.length_eq hafter htake
    refine ⟨?_, tokenChunk_again h (by rw [← List.cons_append, hlength, List.take_left])⟩
    rw [Bool.or_eq_true, Bool.and_eq_true, beq_iff_eq] at hnumber ⊢
    refine hnumber.imp_right fun hdot => ⟨hdot.1, ?_⟩
    rw [head_of_ne_nil (ne_nil_of_numberLength hdot.1 hdot.2 htake)]
    exact hdot.2
  refine ite_spaced id (fun hquote h => ⟨hquote, stringChunk_spaced after' h⟩) fun _ => ?_
  refine ite_spaced id (fun htick h => ⟨htick, templateChunk_spaced after' h⟩) fun _ => ?_
  refine ite_spaced id (fun hbrace h => ⟨hbrace, templateChunk_spaced after' h⟩) fun _ => ?_
  exact ite_spaced id (fun hslash h => ⟨hslash, regexChunk_spaced hafter h⟩)
    fun _ => punctuatorChunk_spaced hafter

end Pieces

inductive Chunked : Surroundings → List Char → List Chunk → Prop
  | nil {s} (h : s.braces.any id = false) : Chunked s [] []
  | cons {s s' c rest after chunk pieces} (hnext : nextChunk s c rest = .ok (chunk, s'))
      (hchars : c :: rest = chunk.chars ++ after) (h : Chunked s' after pieces) :
      Chunked s (c :: rest) (chunk :: pieces)

section Chunked

open Run

variable {s s' : Surroundings} {c : Char} {cs rest : List Char} {chunk : Chunk} {pieces : List Chunk}

theorem leads_of_nextChunk (h : nextChunk s c rest = .ok (chunk, s')) : chunk.Leads (c :: rest) := by
  have hcuts := cuts_nextChunk s c rest
  rwa [h] at hcuts

theorem chunked_of_chunksWithin (hfuel : cs.length ≤ fuel) (h : chunksWithin fuel s cs = .ok pieces) :
    Chunked s cs pieces := by
  induction fuel generalizing s cs pieces with
  | zero =>
    obtain rfl := List.length_eq_zero_iff.mp (Nat.le_zero.mp hfuel)
    rw [chunksWithin] at h
    split at h
    · cases h
    · next hbraces =>
      cases h
      exact .nil (by simpa using hbraces)
  | succ fuel ih =>
    cases cs with
    | nil =>
      rw [chunksWithin] at h
      split at h
      · cases h
      · next hbraces =>
        cases h
        exact .nil (by simpa using hbraces)
    | cons c rest =>
      rw [chunksWithin] at h
      obtain ⟨⟨chunk, s'⟩, hnext, h⟩ := bind_eq_ok.mp h
      obtain ⟨more, hmore, h⟩ := bind_eq_ok.mp h
      cases h
      obtain ⟨after, hafter⟩ := (leads_of_nextChunk hnext).opens
      have hpos := List.length_pos_iff.mpr (leads_of_nextChunk hnext).ne_nil
      have hlength := congrArg List.length hafter
      rw [List.length_append] at hlength
      refine .cons hnext hafter (ih (by omega) ?_)
      rw [hafter, List.drop_left] at hmore
      exact mapError_eq_ok.mp hmore

theorem chunksWithin_of_chunked (hfuel : cs.length ≤ fuel) (h : Chunked s cs pieces) :
    chunksWithin fuel s cs = .ok pieces := by
  induction h generalizing fuel with
  | nil h =>
    rw [chunksWithin, h]
    rfl
  | @cons s s' c rest after chunk pieces hnext hchars h ih =>
    obtain ⟨fuel, rfl⟩ := Nat.exists_eq_add_one.mpr (Nat.lt_of_lt_of_le (Nat.succ_pos _) hfuel)
    have hpos := List.length_pos_iff.mpr (leads_of_nextChunk hnext).ne_nil
    have hlength := congrArg List.length hchars
    rw [List.length_append] at hlength
    rw [chunksWithin]
    refine bind_eq_ok.mpr ⟨(chunk, s'), hnext, bind_eq_ok.mpr ⟨pieces, ?_, rfl⟩⟩
    rw [hchars, List.drop_left]
    exact mapError_eq_ok.mpr (ih (by omega))

theorem surroundings_of_nextChunk :
    nextChunk s c rest = .ok (chunk, s') → s' = s ∨ ∃ kind text, chunk = .token kind text := by
  have htoken : ∀ kind n cs braces, Except.ok (tokenChunk s kind n cs braces) =
      (.ok (chunk, s') : Except ScriptError (Chunk × Surroundings)) →
      s' = s ∨ ∃ kind text, chunk = .token kind text := by
    intro kind n cs braces h
    cases h
    exact .inr ⟨kind, _, rfl⟩
  have htemplate : ∀ cs braces, templateChunk s cs braces = .ok (chunk, s') →
      s' = s ∨ ∃ kind text, chunk = .token kind text := by
    intro cs braces h
    unfold templateChunk at h
    split at h
    · exact htoken _ _ _ _ h
    · cases h
  refine of_ite_eq (fun h => by cases h; exact .inl rfl) ?_
  refine of_ite_eq (fun h => by cases h; exact .inl rfl) ?_
  refine of_ite_eq (fun h => ?_) ?_
  · split at h
    · cases h
      exact .inl rfl
    · cases h
  refine of_ite_eq (htoken _ _ _ _) ?_
  refine of_ite_eq (htoken _ _ _ _) ?_
  refine of_ite_eq (htoken _ _ _ _) ?_
  refine of_ite_eq (fun h => ?_) ?_
  · unfold stringChunk at h
    split at h
    · exact htoken _ _ _ _ h
    · cases h
  refine of_ite_eq (htemplate _ _) (of_ite_eq (htemplate _ _) ?_)
  refine of_ite_eq (fun h => ?_) fun h => ?_
  · unfold regexChunk at h
    split at h
    · exact htoken _ _ _ _ h
    · cases h
  · unfold punctuatorChunk at h
    split at h
    · exact htoken _ _ _ _ h
    · exact htoken _ _ _ _ h
    · exact htoken _ _ _ _ h
    · cases h

theorem chunked_nil (h : Chunked s [] pieces) : pieces = [] := by
  cases h
  rfl

theorem nextChunk_space (s : Surroundings) (rest : List Char) :
    nextChunk s ' ' rest = .ok (.blank ' ', s) := by
  have hblank : (isBlank ' ' || ' ' == '\uFEFF') = true := by decide
  rw [nextChunk, if_pos hblank]

end Chunked

def Chunk.lexeme? : Chunk → Option (TokenKind × List Char)
  | .token kind text => some (kind, text)
  | _ => none

/-- The pieces of the text that has single spaces between its tokens. -/
def respaced (lexemes : List (TokenKind × List Char)) : List Chunk :=
  (lexemes.map fun l => Chunk.token l.1 l.2).intersperse (.blank ' ')

theorem respaced_cons (l next : TokenKind × List Char) (lexemes : List (TokenKind × List Char)) :
    respaced (l :: next :: lexemes) = .token l.1 l.2 :: .blank ' ' :: respaced (next :: lexemes) := rfl

theorem chunked_respaced {s : Surroundings} {pieces : List Chunk} (h : Chunked s cs pieces) :
    Chunked s (joined (respaced (pieces.filterMap Chunk.lexeme?)))
      (respaced (pieces.filterMap Chunk.lexeme?)) := by
  induction h with
  | nil h => exact .nil h
  | @cons s s' c rest after chunk pieces hnext hchars h ih =>
    cases chunk with
    | blank b =>
      rcases surroundings_of_nextChunk hnext with rfl | ⟨_, _, he⟩
      · exact ih
      · cases he
    | comment kind body =>
      rcases surroundings_of_nextChunk hnext with rfl | ⟨_, _, he⟩
      · exact ih
      · cases he
    | token kind text =>
      obtain ⟨t, rfl⟩ : ∃ t, text = c :: t := by
        cases text with
        | nil => exact absurd rfl (leads_of_nextChunk hnext).ne_nil
        | cons d t =>
          obtain ⟨rfl, -⟩ := List.cons.inj hchars
          exact ⟨t, rfl⟩
      obtain rfl : rest = t ++ after := (List.cons.inj hchars).2
      have hfirst : (Chunk.token kind (c :: t) :: pieces).filterMap Chunk.lexeme? =
          (kind, c :: t) :: pieces.filterMap Chunk.lexeme? := rfl
      rw [hfirst]
      cases hlexemes : pieces.filterMap Chunk.lexeme? with
      | nil =>
        rw [hlexemes] at ih
        exact .cons (nextChunk_spaced ⟨.inl rfl, fun _ => rfl⟩ hnext) rfl ih
      | cons next lexemes =>
        rw [hlexemes] at ih
        have hspaced : Spaced after (' ' :: joined (respaced (next :: lexemes))) := by
          refine ⟨.inr ⟨_, rfl⟩, ?_⟩
          rintro rfl
          rw [chunked_nil h] at hlexemes
          cases hlexemes
        rw [respaced_cons, joined_cons, joined_cons]
        exact .cons (nextChunk_spaced hspaced hnext) rfl (.cons (nextChunk_space s' _) rfl ih)

theorem filterMap_respaced (lexemes : List (TokenKind × List Char)) :
    (respaced lexemes).filterMap Chunk.lexeme? = lexemes := by
  induction lexemes with
  | nil => rfl
  | cons l lexemes ih =>
    cases lexemes with
    | nil => rfl
    | cons next lexemes =>
      rw [respaced_cons]
      exact congrArg (l :: ·) ih

theorem joined_respaced (lexemes : List (TokenKind × List Char)) :
    joined (respaced lexemes) = [' '].intercalate (lexemes.map (·.2)) := by
  induction lexemes with
  | nil => rfl
  | cons l lexemes ih =>
    cases lexemes with
    | nil => rfl
    | cons next lexemes =>
      rw [respaced_cons, joined_cons, joined_cons, ih]
      simp [List.intercalate, Chunk.chars]

section Streams

variable {base : Nat} {pieces : List Chunk}

theorem lexemes_streamsFrom (base : Nat) (pieces : List Chunk) :
    (streamsFrom base pieces).tokens.map (fun t => (t.kind, t.value)) =
      (pieces.filterMap Chunk.lexeme?).map fun l => (l.1, String.ofList l.2) := by
  induction pieces generalizing base with
  | nil => rfl
  | cons chunk pieces ih =>
    cases chunk with
    | blank c => exact ih _
    | comment kind body => exact ih _
    | token kind text => exact congrArg ((kind, String.ofList text) :: ·) (ih _)

theorem values_streamsFrom (base : Nat) (pieces : List Chunk) :
    (streamsFrom base pieces).tokens.map (·.value.toList) =
      (pieces.filterMap Chunk.lexeme?).map (·.2) := by
  have h := congrArg (List.map fun l => l.2.toList) (lexemes_streamsFrom base pieces)
  simpa [List.map_map, Function.comp_def] using h

theorem comments_respaced (base : Nat) (lexemes : List (TokenKind × List Char)) :
    (streamsFrom base (respaced lexemes)).comments = [] := by
  induction lexemes generalizing base with
  | nil => rfl
  | cons l lexemes ih =>
    cases lexemes with
    | nil => rfl
    | cons next lexemes => exact ih _

theorem tokenize_eq_ok {streams} :
    tokenize base cs = .ok streams ↔ ∃ pieces, Chunked {} cs pieces ∧ streams = streamsFrom base pieces := by
  unfold tokenize
  constructor
  · intro h
    split at h
    · next pieces hpieces =>
      cases h
      exact ⟨pieces, chunked_of_chunksWithin (Nat.le_refl _) hpieces, rfl⟩
    · cases h
  · rintro ⟨pieces, hchunked, rfl⟩
    rw [chunks, chunksWithin_of_chunked (Nat.le_refl _) hchunked]

end Streams

end SvelteSyntax.Script

namespace SvelteSyntax

/-- The kinds and the texts of the tokens. -/
def Streams.lexemes (s : Streams) : List (TokenKind × String) := s.tokens.map fun t => (t.kind, t.value)

/-- The texts of the tokens with single spaces between them. -/
def Streams.spaced (s : Streams) : List Char := [' '].intercalate (s.tokens.map (·.value.toList))

namespace Script

/-- The tokens of a text are found again in the text that has single spaces between them and nothing
else; so what a token is does not depend on the blanks and the comments around it. -/
theorem tokenize_spaced :
    (∀ (base base' : Nat) (text : List Char) (streams : Streams), tokenize base text = .ok streams →
      ∃ again, tokenize base' streams.spaced = .ok again ∧ again.comments = [] ∧
        again.lexemes = streams.lexemes) ∧
    ∀ (base base' : Nat) (text text' : List Char) (streams streams' : Streams),
      tokenize base text = .ok streams → tokenize base' text' = .ok streams' →
      streams.tokens.map (·.value) = streams'.tokens.map (·.value) →
      streams.lexemes = streams'.lexemes := by
  have hagain : ∀ (base base' : Nat) (text : List Char) (streams : Streams),
      tokenize base text = .ok streams → ∃ again, tokenize base' streams.spaced = .ok again ∧
        again.comments = [] ∧ again.lexemes = streams.lexemes := by
    intro base base' text streams h
    obtain ⟨pieces, hchunked, rfl⟩ := tokenize_eq_ok.mp h
    have hspaced := chunked_respaced hchunked
    rw [joined_respaced, ← values_streamsFrom base] at hspaced
    refine ⟨_, tokenize_eq_ok.mpr ⟨_, hspaced, rfl⟩, comments_respaced .., ?_⟩
    rw [Streams.lexemes, lexemes_streamsFrom, filterMap_respaced, ← lexemes_streamsFrom base,
      Streams.lexemes]
  refine ⟨hagain, fun base base' text text' streams streams' h h' hvalues => ?_⟩
  obtain ⟨again, hok, -, hlexemes⟩ := hagain base 0 text streams h
  obtain ⟨again', hok', -, hlexemes'⟩ := hagain base' 0 text' streams' h'
  have hspaced : streams.spaced = streams'.spaced := by
    have hlists := congrArg (List.map String.toList) hvalues
    rw [List.map_map, List.map_map] at hlists
    exact congrArg (List.intercalate [' ']) hlists
  rw [hspaced, hok'] at hok
  cases hok
  rw [← hlexemes, hlexemes']

/-- A regular expression, a division, a number after a question mark, a template and a comment. -/
theorem tokenize_spaced_slashes :
    let text := "a=/[ /]/g/c?.5:`\x24\x7bd\x7d` // e".toList
    ∃ streams again, tokenize 0 text = .ok streams ∧
      streams.spaced = "a = /[ /]/g / c ? .5 : `\x24\x7b d \x7d`".toList ∧
      tokenize 0 streams.spaced = .ok again ∧ again.comments = [] ∧ again.lexemes = streams.lexemes := by
  intro text
  have hrun : ((tokenize 0 text).toOption.map Streams.spaced) =
      some "a = /[ /]/g / c ? .5 : `\x24\x7b d \x7d`".toList := by
    decide +kernel
  obtain ⟨streams, hok, hspaced⟩ := Option.map_eq_some_iff.mp hrun
  have hok := Run.toOption_eq_some.mp hok
  obtain ⟨again, hagain⟩ := tokenize_spaced.1 0 0 text streams hok
  exact ⟨streams, again, hok, hspaced, hagain⟩

end Script

end SvelteSyntax
