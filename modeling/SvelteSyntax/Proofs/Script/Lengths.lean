import SvelteSyntax.Proofs.Script.Tiles

namespace SvelteSyntax.Script

open Text

/-- A text after a token, and what follows the token when it is written with single spaces. -/
structure Spaced (after after' : List Char) : Prop where
  stops : after' = [] ∨ ∃ more, after' = ' ' :: more
  last : after = [] → after' = []

/-- A length that is read off the text from its start on, and for which a space is an end. -/
structure Stays (f : List Char → Nat) : Prop where
  le : ∀ cs, f cs ≤ cs.length
  spaced : ∀ text after after', Spaced after after' → f (text ++ after) ≤ text.length →
    f (text ++ after') = f (text ++ after)

namespace Stays

variable {f g : List Char → Nat} {text after after' : List Char}

theorem length_eq (h : Stays f) (hafter : Spaced after after')
    (htake : (text ++ after).take (f (text ++ after)) = text) : f (text ++ after') = text.length := by
  have hlength := congrArg List.length htake
  rw [List.length_take, Nat.min_eq_left (h.le _)] at hlength
  rw [h.spaced text after after' hafter (Nat.le_of_eq hlength), hlength]

theorem comp (hf : Stays f) (hg : Stays g) : Stays fun cs => f cs + g (cs.drop (f cs)) where
  le cs := by
    have hfle := hf.le cs
    have hgle := hg.le (cs.drop (f cs))
    rw [List.length_drop] at hgle
    omega
  spaced text after after' hafter hle := by
    have hfirst : f (text ++ after) ≤ text.length := by omega
    have hsame := hf.spaced text after after' hafter hfirst
    rw [List.drop_append_of_le_length hfirst] at hle
    rw [hsame, List.drop_append_of_le_length hfirst, List.drop_append_of_le_length hfirst,
      hg.spaced _ after after' hafter]
    rw [List.length_drop]
    omega

end Stays

theorem stays_runLength {p} (hp : p ' ' = false) : Stays (runLength p) where
  le cs := (List.takeWhile_sublist p).length_le
  spaced text after after' hafter hle := by
    induction text with
    | nil =>
      have hnone : runLength p after = 0 := Nat.le_zero.mp hle
      rw [List.nil_append, List.nil_append, hnone]
      rcases hafter.stops with rfl | ⟨more, rfl⟩
      · rfl
      · simp [runLength, hp]
    | cons c text ih =>
      by_cases hc : p c
      · simp only [runLength, List.cons_append, List.takeWhile_cons, hc, if_true, List.length_cons] at *
        rw [ih (by omega)]
      · simp [runLength, hc]

theorem stays_fractionLength : Stays fractionLength where
  le cs := by
    unfold fractionLength
    split
    · next rest =>
      have hle := (List.takeWhile_sublist isNumberChar (l := rest)).length_le
      rw [runLength, List.length_cons]
      omega
    · exact Nat.zero_le _
  spaced text after after' hafter hle := by
    cases text with
    | nil =>
      have hnone : fractionLength after = 0 := Nat.le_zero.mp hle
      rw [List.nil_append, List.nil_append, hnone]
      rcases hafter.stops with rfl | ⟨more, rfl⟩
      · rfl
      · rfl
    | cons c text =>
      by_cases hc : c = '.'
      · subst hc
        simp only [List.cons_append, fractionLength, List.length_cons] at hle ⊢
        rw [(stays_runLength (by decide)).spaced text after after' hafter (by omega)]
      · simp [fractionLength, hc]

theorem stays_exponentLength : Stays exponentLength where
  le cs := by
    have hrun : ∀ cs, runLength isNumberChar cs ≤ cs.length := (stays_runLength (by decide)).le
    unfold exponentLength
    split
    · next c rest =>
      split
      · split
        · next sign digits =>
          have hdigits := hrun digits
          have hrest := hrun (sign :: digits)
          simp only [List.length_cons] at *
          split <;> omega
        · simp
      · exact Nat.zero_le _
    · exact Nat.zero_le _
  spaced text after after' hafter hle := by
    have hrun : Stays (runLength isNumberChar) := stays_runLength (by decide)
    cases text with
    | nil =>
      have hnone : exponentLength after = 0 := Nat.le_zero.mp hle
      rw [List.nil_append, List.nil_append, hnone]
      rcases hafter.stops with rfl | ⟨more, rfl⟩
      · rfl
      · simp [exponentLength]
    | cons c text =>
      by_cases hc : (c == 'e' || c == 'E') = true
      · cases text with
        | nil =>
          have hone : exponentLength (c :: after) = 1 := by
            have hpos : 1 ≤ exponentLength (c :: after) := by
              simp only [exponentLength, hc, if_true]
              split
              · split <;> omega
              · exact Nat.le_refl 1
            exact Nat.le_antisymm hle hpos
          rw [List.cons_append, List.cons_append, List.nil_append, List.nil_append, hone]
          rcases hafter.stops with rfl | ⟨more, rfl⟩
          · simp [exponentLength, hc]
          · have hblank : runLength isNumberChar (' ' :: more) = 0 := by
              simp [runLength, isNumberChar, isAsciiDigit]
            simp [exponentLength, hc, hblank]
        | cons sign digits =>
          simp only [List.cons_append, exponentLength, hc, if_true, List.length_cons] at hle ⊢
          split
          · next hsign =>
            rw [if_pos hsign] at hle
            rw [hrun.spaced digits after after' hafter (by omega)]
          · next hsign =>
            rw [if_neg hsign] at hle
            rw [← List.cons_append, hrun.spaced (sign :: digits) after after' hafter, List.cons_append]
            simp only [List.cons_append, List.length_cons]
            omega
      · simp [exponentLength, hc]

/-- The length of a number in decimal digits, without a final `n`. -/
def decimalLength (cs : List Char) : Nat :=
  let whole := runLength isNumberChar cs
  let fraction := whole + fractionLength (cs.drop whole)
  fraction + exponentLength (cs.drop fraction)

theorem stays_decimalLength : Stays decimalLength :=
  ((stays_runLength (by decide)).comp stays_fractionLength).comp stays_exponentLength

theorem magnitudeLength_of_radix {r} (h : isRadixLetter r) (rest : List Char) :
    magnitudeLength ('0' :: r :: rest) = 2 + runLength (fun c => isHexDigit c || c == '_') rest := by
  simp [magnitudeLength, h]

variable {cs : List Char} {c quote : Char} {n : Nat}

theorem magnitudeLength_of_decimal (h : ∀ r rest, cs = '0' :: r :: rest → isRadixLetter r = false) :
    magnitudeLength cs = decimalLength cs := by
  dsimp only [magnitudeLength]
  split
  · next r rest => rw [if_neg (by simp [h r rest rfl]), decimalLength]
  · rfl

theorem stays_magnitudeLength : Stays magnitudeLength where
  le cs := by
    by_cases hradix : ∃ r rest, cs = '0' :: r :: rest ∧ isRadixLetter r = true
    · obtain ⟨r, rest, rfl, hr⟩ := hradix
      have hle := (stays_runLength (p := fun c => isHexDigit c || c == '_') (by decide)).le rest
      rw [magnitudeLength_of_radix hr, List.length_cons, List.length_cons]
      omega
    · rw [magnitudeLength_of_decimal fun r rest hcs => by
        by_contra hr
        exact hradix ⟨r, rest, hcs, by simpa using hr⟩]
      exact stays_decimalLength.le cs
  spaced text after after' hafter hle := by
    by_cases hradix : ∃ r rest, text = '0' :: r :: rest ∧ isRadixLetter r = true
    · obtain ⟨r, rest, rfl, hr⟩ := hradix
      simp only [List.cons_append, magnitudeLength_of_radix hr, List.length_cons] at hle ⊢
      rw [(stays_runLength (by decide)).spaced rest after after' hafter (by omega)]
    · have hdecimal : ∀ r rest, text = '0' :: r :: rest → isRadixLetter r = false := by
        intro r rest htext
        by_contra hr
        exact hradix ⟨r, rest, htext, by simpa using hr⟩
      have hspaced : ∀ r rest, text ++ after' = '0' :: r :: rest → isRadixLetter r = false := by
        intro r rest hcs
        rcases text with - | ⟨c, - | ⟨d, text⟩⟩
        · rcases hafter.stops with rfl | ⟨more, rfl⟩ <;> cases hcs
        · obtain ⟨rfl, hafter'⟩ := List.cons.inj hcs
          rcases hafter.stops with rfl | ⟨more, rfl⟩
          · cases hafter'
          · obtain ⟨rfl, -⟩ := List.cons.inj hafter'
            decide
        · obtain ⟨rfl, hrest⟩ := List.cons.inj hcs
          obtain ⟨rfl, -⟩ := List.cons.inj hrest
          exact hdecimal d text rfl
      have hbefore : ∀ r rest, text ++ after = '0' :: r :: rest → isRadixLetter r = false := by
        intro r rest hcs
        by_contra hr
        rw [hcs, magnitudeLength_of_radix (by simpa using hr)] at hle
        rcases text with - | ⟨c, - | ⟨d, text⟩⟩
        · exact absurd hle (by simp)
        · exact absurd hle (by simp; omega)
        · obtain ⟨rfl, hrest⟩ := List.cons.inj hcs
          obtain ⟨rfl, -⟩ := List.cons.inj hrest
          exact hr (hdecimal d text rfl)
      rw [magnitudeLength_of_decimal hbefore] at hle ⊢
      rw [magnitudeLength_of_decimal hspaced]
      exact stays_decimalLength.spaced text after after' hafter hle

/-- The length of the mark of a large integer. -/
def suffixLength (cs : List Char) : Nat := if cs.head? = some 'n' then 1 else 0

theorem stays_suffixLength : Stays suffixLength where
  le cs := by cases cs <;> simp [suffixLength]; split <;> omega
  spaced text after after' hafter hle := by
    cases text with
    | nil =>
      have hnone : suffixLength after = 0 := Nat.le_zero.mp hle
      rw [List.nil_append, List.nil_append, hnone]
      rcases hafter.stops with rfl | ⟨more, rfl⟩
      · rfl
      · simp [suffixLength]
    | cons c text => rfl

theorem stays_numberLength : Stays numberLength := by
  have hcomp := stays_magnitudeLength.comp stays_suffixLength
  have hsame : numberLength = fun cs => magnitudeLength cs + suffixLength (cs.drop (magnitudeLength cs)) := by
    funext cs
    dsimp only [numberLength]
    split
    · next rest hdrop => simp [hdrop, suffixLength]
    · next hother =>
      cases hdrop : cs.drop (magnitudeLength cs) with
      | nil => simp [suffixLength]
      | cons c rest =>
        have hc : c ≠ 'n' := by
          rintro rfl
          exact hother rest hdrop
        simp [suffixLength, hc]
  rw [hsame]
  exact hcomp

/-- A word that stops at a character stops at a space too; only an escape with an open brace would go on. -/
theorem step_space_of_stops {s : WordState} (h : s.step c = none) : s.step ' ' = none := by
  have hplain : WordState.plainStep ' ' = none := by decide
  have hhex : isHexDigit ' ' = false := by decide
  cases s with
  | plain => exact hplain
  | backslash => simpa [WordState.step] using hplain
  | escape => simpa [WordState.step, hhex] using hplain
  | braced => cases h
  | digits left => cases left <;> simpa [WordState.step, hhex] using hplain

theorem stays_acceptedLength (s : WordState) : Stays (acceptedLength WordState.step s) where
  le cs := by
    induction cs generalizing s with
    | nil => exact Nat.le_refl 0
    | cons c cs ih =>
      rw [acceptedLength]
      split
      · next s' _ => exact Nat.succ_le_succ (ih s')
      · exact Nat.zero_le _
  spaced text after after' hafter hle := by
    induction text generalizing s with
    | nil =>
      have hnone : acceptedLength WordState.step s after = 0 := Nat.le_zero.mp hle
      rw [List.nil_append, List.nil_append, hnone]
      rcases hafter.stops with rfl | ⟨more, rfl⟩
      · rfl
      · cases after with
        | nil => cases hafter.last rfl
        | cons c after =>
          have hstops : s.step c = none := by
            rw [acceptedLength] at hnone
            split at hnone
            · cases hnone
            · assumption
          rw [acceptedLength, step_space_of_stops hstops]
    | cons c text ih =>
      simp only [List.cons_append, acceptedLength] at hle ⊢
      split
      · next s' hs' =>
        rw [hs'] at hle
        rw [ih s' (Nat.le_of_succ_le_succ hle)]
      · rfl

theorem stays_wordLength : Stays wordLength := stays_acceptedLength .plain

theorem Extent.add_eq_closed {m : Nat} {e : Extent} (h : e.add m = .closed n) :
    ∃ k, e = .closed k ∧ n = k + m := by
  cases e with
  | closed k =>
    cases h
    exact ⟨k, rfl, rfl⟩
  | _ => cases h

theorem head_of_take_append {k} {after ds : List Char} {d} (hpos : 0 < k) (hle : k ≤ cs.length)
    (h : cs.take k ++ after = d :: ds) : ∃ ds, cs = d :: ds := by
  obtain ⟨k, rfl⟩ := Nat.exists_eq_add_one.mpr hpos
  cases cs with
  | nil => exact absurd hle (by simp)
  | cons e cs =>
    obtain ⟨rfl, -⟩ := List.cons.inj h
    exact ⟨cs, rfl⟩

theorem ne_backslash (hlast : c = '\\' → cs = [] → False)
    (hescape : ∀ d ds, c = '\\' → cs = d :: ds → False) : c ≠ '\\' := by
  intro hc
  cases cs with
  | nil => exact hlast hc rfl
  | cons d ds => exact hescape d ds hc rfl

theorem stringExtent_of_ne (hc : c ≠ '\\') (cs : List Char) :
    stringExtent quote (c :: cs) = if c == quote then .closed 1
      else if c == '\n' || c == '\r' then .open 0 else (stringExtent quote cs).add 1 := by
  rw [stringExtent] <;> simp [hc]

/-- A string that is closed is closed whatever follows it. -/
theorem stringExtent_closed (h : stringExtent quote cs = .closed n) :
    0 < n ∧ n ≤ cs.length ∧ ∀ after, stringExtent quote (cs.take n ++ after) = .closed n := by
  fun_induction stringExtent quote cs generalizing n with
  | case1 => cases h
  | case2 => cases h
  | case3 cs ih =>
    obtain ⟨k, hk, rfl⟩ := Extent.add_eq_closed h
    obtain ⟨hpos, hle, hafter⟩ := ih hk
    refine ⟨by omega, by simpa using hle, fun after => ?_⟩
    simp [stringExtent, hafter, Extent.add]
  | case4 c cs hline ih =>
    obtain ⟨k, hk, rfl⟩ := Extent.add_eq_closed h
    obtain ⟨hpos, hle, hafter⟩ := ih hk
    refine ⟨by omega, by simpa using hle, fun after => ?_⟩
    -- An escaped end of a line takes one character or two, and the second one is in the string.
    have hsame : ∀ ds, c = '\r' → cs.take k ++ after = '\n' :: ds → False := by
      intro ds hc hds
      obtain ⟨ds, rfl⟩ := head_of_take_append hpos hle hds
      exact hline ds hc rfl
    rw [List.take_succ_cons, List.take_succ_cons, List.cons_append, List.cons_append,
      stringExtent, hafter]
    · rfl
    · exact hsame
  | case5 c cs hlast _ hescape hquote =>
    cases h
    refine ⟨Nat.one_pos, by simp, fun after => ?_⟩
    rw [List.take_succ_cons, List.cons_append, stringExtent_of_ne (ne_backslash hlast hescape),
      if_pos hquote]
  | case6 => cases h
  | case7 c cs hlast _ hescape hquote hline ih =>
    obtain ⟨k, hk, rfl⟩ := Extent.add_eq_closed h
    obtain ⟨hpos, hle, hafter⟩ := ih hk
    refine ⟨by omega, by simpa using hle, fun after => ?_⟩
    rw [List.take_succ_cons, List.cons_append, stringExtent_of_ne (ne_backslash hlast hescape),
      if_neg hquote, if_neg hline, hafter]
    rfl

/-- A part of a template that ends, ends there whatever follows it. -/
theorem templateExtent_closed {more} (h : templateExtent cs = some (n, more)) :
    0 < n ∧ n ≤ cs.length ∧ ∀ after, templateExtent (cs.take n ++ after) = some (n, more) := by
  fun_induction templateExtent cs generalizing n with
  | case1 => cases h
  | case2 => cases h
  | case3 c cs ih =>
    obtain ⟨⟨k, m⟩, hk, he⟩ := Option.map_eq_some_iff.mp h
    cases he
    obtain ⟨hpos, hle, hafter⟩ := ih hk
    refine ⟨by omega, by simpa using hle, fun after => ?_⟩
    simp [templateExtent, hafter]
  | case4 =>
    cases h
    exact ⟨by simp, by simp, fun after => by simp [templateExtent]⟩
  | case5 =>
    cases h
    exact ⟨by simp, by simp, fun after => by simp [templateExtent]⟩
  | case6 c cs hlast hescape hclose hopen ih =>
    obtain ⟨⟨k, m⟩, hk, he⟩ := Option.map_eq_some_iff.mp h
    cases he
    obtain ⟨hpos, hle, hafter⟩ := ih hk
    refine ⟨by omega, by simpa using hle, fun after => ?_⟩
    have hopen : ∀ tail, c = '$' → cs.take k ++ after = '\x7b' :: tail → False := by
      intro tail hc htail
      obtain ⟨ds, rfl⟩ := head_of_take_append hpos hle htail
      exact hopen ds hc rfl
    have hne := ne_backslash hlast hescape
    rw [List.take_succ_cons, List.cons_append, templateExtent, hafter]
    · rfl
    · exact fun hc => absurd hc hne
    · exact fun _ _ hc => absurd hc hne
    · exact hclose
    · exact hopen

/-- A regular expression that is closed is closed whatever follows it. -/
theorem regexExtent_closed {inClass : Bool} (h : regexExtent inClass cs = .closed n) :
    0 < n ∧ n ≤ cs.length ∧ ∀ after, regexExtent inClass (cs.take n ++ after) = .closed n := by
  fun_induction regexExtent inClass cs generalizing n with
  | case1 => cases h
  | case2 => cases h
  | case3 inClass c cs ih =>
    obtain ⟨k, hk, rfl⟩ := Extent.add_eq_closed h
    obtain ⟨hpos, hle, hafter⟩ := ih hk
    refine ⟨by omega, by simpa using hle, fun after => ?_⟩
    simp [regexExtent, hafter, Extent.add]
  | case4 => cases h
  | case5 inClass c cs hlast hescape hline hslash =>
    cases h
    refine ⟨Nat.one_pos, by simp, fun after => ?_⟩
    have hne := ne_backslash hlast hescape
    rw [List.take_succ_cons, List.cons_append, regexExtent, if_neg hline, if_pos hslash]
    · exact fun hc => absurd hc hne
    · exact fun _ _ hc => absurd hc hne
  | case6 inClass c cs hlast hescape hline hslash ih =>
    obtain ⟨k, hk, rfl⟩ := Extent.add_eq_closed h
    obtain ⟨hpos, hle, hafter⟩ := ih hk
    refine ⟨by omega, by simpa using hle, fun after => ?_⟩
    have hne := ne_backslash hlast hescape
    rw [List.take_succ_cons, List.cons_append, regexExtent, if_neg hline, if_neg hslash, hafter]
    · rfl
    · exact fun hc => absurd hc hne
    · exact fun _ _ hc => absurd hc hne

end SvelteSyntax.Script
