import Mathlib.Data.List.Perm.Basic
import Mathlib.Data.List.Sort
import SvelteSyntax.Proofs.Markup.Lexer
import SvelteSyntax.Proofs.Text.Position
import SvelteSyntax.Proofs.Text.Scan
import SvelteSyntax.Script.Token

namespace SvelteSyntax

open Text

/-- A comment with the marks around it. -/
def Comment.chars (c : Comment) : List Char :=
  match c.kind with
  | .line => "//".toList ++ c.value.toList
  | .block => "/*".toList ++ c.value.toList ++ "*/".toList

def Streams.places (s : Streams) : List (Nat × Nat) :=
  (s.tokens.map (fun t => (t.start, t.stop)) ++ s.comments.map (fun c => (c.start, c.stop))).mergeSort
    fun p q => p.1 ≤ q.1

variable {cs : List Char} {offset : Nat} {chunk : Chunk} {x : Nat × Chunk} {p : Nat × Nat}

namespace Script

open Run

/-- A piece that is not empty, and blank if the streams leave it out. -/
structure Chunk.Solid (chunk : Chunk) : Prop where
  ne_nil : chunk.chars ≠ []
  blank : ∀ c, chunk = .blank c → isBlank c ∨ c = '\uFEFF'

/-- A piece at the start of a text. -/
structure Chunk.Leads (chunk : Chunk) (cs : List Char) : Prop extends chunk.Solid where
  opens : ∃ after, cs = chunk.chars ++ after

/-- A piece at the start of the text, or an error between two of its characters. -/
def Cuts (cs : List Char) : Except ScriptError (Chunk × Surroundings) → Prop
  | .ok (chunk, _) => chunk.Leads cs
  | .error e => Border cs e.offset

theorem cuts_errorAfter (message : String) (n : Nat) (cs : List Char) :
    Cuts cs (.error (errorAfter message n cs)) :=
  ⟨cs.take n, cs.drop n, (List.take_append_drop n cs).symm, rfl⟩

theorem cuts_tokenChunk (s : Surroundings) (kind : TokenKind) {n} (braces : List Bool) (hn : 0 < n)
    (hcs : cs ≠ []) :
    Cuts cs (.ok (tokenChunk s kind n cs braces)) where
  ne_nil := by
    have hn := Nat.ne_of_gt hn
    simp [Chunk.chars, hn, hcs]
  blank c h := by cases h
  opens := ⟨cs.drop n, (List.take_append_drop n cs).symm⟩

section Cuts

variable (s : Surroundings) (c : Char) (rest : List Char)

theorem cuts_templateChunk (braces : List Bool) :
    Cuts (c :: rest) (templateChunk s (c :: rest) braces) := by
  unfold templateChunk
  split
  · exact cuts_tokenChunk s _ _ (Nat.succ_pos _) (by simp)
  · exact cuts_errorAfter ..

theorem cuts_regexChunk : Cuts (c :: rest) (regexChunk s (c :: rest)) := by
  unfold regexChunk
  split
  · exact cuts_tokenChunk s _ _ (by omega) (by simp)
  · exact cuts_errorAfter ..

theorem cuts_stringChunk (quote : Char) : Cuts (c :: rest) (stringChunk s quote (c :: rest)) := by
  unfold stringChunk
  split
  · exact cuts_tokenChunk s _ _ (Nat.succ_pos _) (by simp)
  · exact cuts_errorAfter ..

theorem length_pos_of_mem_punctuators : ∀ mark ∈ punctuators, 0 < mark.length := by decide

theorem cuts_punctuatorChunk : Cuts (c :: rest) (punctuatorChunk s (c :: rest)) := by
  unfold punctuatorChunk
  split
  · exact cuts_tokenChunk s _ _ Nat.one_pos (by simp)
  · exact cuts_tokenChunk s _ _ Nat.one_pos (by simp)
  · next mark _ _ hmark =>
    have hmem := List.mem_of_find?_eq_some hmark
    exact cuts_tokenChunk s _ _ (length_pos_of_mem_punctuators mark hmem) (by simp)
  · exact cuts_errorAfter ..

variable {c}

theorem wordLength_pos (hc : startsWord c) : 0 < wordLength (c :: rest) := by
  have hstep : ∃ next, WordState.step .plain c = some next := by
    by_cases hslash : c = '\\' <;> simp [WordState.step, WordState.plainStep, continuesWord, hc, hslash]
  obtain ⟨next, hnext⟩ := hstep
  simp [wordLength, acceptedLength, hnext]

theorem runLength_pos {p : Char → Bool} (hc : p c) : 0 < runLength p (c :: rest) := by
  simp [runLength, hc]

theorem magnitudeLength_pos (h : isAsciiDigit c ∨ c = '.') : 0 < magnitudeLength (c :: rest) := by
  have hdecimal : 0 < runLength isNumberChar (c :: rest) +
      fractionLength ((c :: rest).drop (runLength isNumberChar (c :: rest))) := by
    rcases h with hc | rfl
    · have := runLength_pos rest (p := isNumberChar) (c := c) (by simp [isNumberChar, hc])
      omega
    · rw [show runLength isNumberChar ('.' :: rest) = 0 by simp [runLength, isNumberChar, isAsciiDigit]]
      rw [List.drop_zero, fractionLength]
      omega
  dsimp only [magnitudeLength]
  split
  · split <;> omega
  · omega

theorem numberLength_pos (h : isAsciiDigit c ∨ c = '.') : 0 < numberLength (c :: rest) := by
  have := magnitudeLength_pos rest h
  dsimp only [numberLength]
  split <;> omega

variable (c)

theorem cuts_nextChunk : Cuts (c :: rest) (nextChunk s c rest) := by
  have hne : c :: rest ≠ [] := by simp
  dsimp only [nextChunk]
  split_ifs with hblank hline hblock hprivate hword hnumber
  · refine ⟨⟨by simp [Chunk.chars], ?_⟩, rest, rfl⟩
    rintro _ ⟨⟩
    simpa using hblank
  · obtain ⟨after, hafter⟩ := startsWith_iff.mp hline
    rw [hafter]
    refine ⟨⟨by simp [Chunk.chars], by simp⟩, after.dropWhile (!isLineTerminator ·), ?_⟩
    simp [Chunk.chars, List.takeWhile_append_dropWhile]
  · obtain ⟨after, hafter⟩ := startsWith_iff.mp hblock
    rw [hafter]
    split
    · next body tail hsplit =>
      obtain ⟨hbody, htail, -⟩ := (splitAt?_eq_some_iff (by simp)).mp hsplit
      obtain ⟨tail, rfl⟩ := startsWith_iff.mp htail
      refine ⟨⟨by simp [Chunk.chars], by simp⟩, tail, ?_⟩
      simpa [Chunk.chars] using hbody
    · exact cuts_errorAfter ..
  · exact cuts_tokenChunk s _ _ (by omega) hne
  · exact cuts_tokenChunk s _ _ (wordLength_pos rest hword) hne
  · refine cuts_tokenChunk s _ _ (numberLength_pos rest ?_) hne
    rw [Bool.or_eq_true, Bool.and_eq_true, beq_iff_eq] at hnumber
    exact hnumber.imp_right And.left
  · exact cuts_stringChunk s c rest c
  · exact cuts_templateChunk s c rest _
  · exact cuts_templateChunk s c rest _
  · exact cuts_regexChunk s c rest
  · exact cuts_punctuatorChunk s c rest

end Cuts

/-- The text that the pieces make up. -/
def joined (pieces : List Chunk) : List Char := pieces.flatMap Chunk.chars

@[simp] theorem joined_cons (chunk : Chunk) (rest : List Chunk) :
    joined (chunk :: rest) = chunk.chars ++ joined rest := List.flatMap_cons

@[simp] theorem joined_append (xs ys : List Chunk) : joined (xs ++ ys) = joined xs ++ joined ys :=
  List.flatMap_append

theorem border_append (before : List Char) (h : Border cs offset) :
    Border (before ++ cs) (offset + byteLength before) := by
  obtain ⟨part, after, rfl, rfl⟩ := h
  exact ⟨before ++ part, after, by simp, by rw [byteLength_append, Nat.add_comm]⟩

/-- Pieces that make up the text, or an error between two of its characters. -/
def Divides (cs : List Char) : Except ScriptError (List Chunk) → Prop
  | .ok pieces => joined pieces = cs ∧ ∀ chunk ∈ pieces, chunk.Solid
  | .error e => Border cs e.offset

theorem divides_nil (fuel : Nat) (s : Surroundings) : Divides [] (chunksWithin fuel s []) := by
  rw [chunksWithin]
  split
  · exact ⟨[], [], rfl, rfl⟩
  · simp [Divides, joined]

theorem Divides.cons {after} {x : Except ScriptError (List Chunk)} (hchunk : chunk.Solid)
    (h : Divides after x) :
    Divides (chunk.chars ++ after)
      (x.mapError (·.shift (byteLength chunk.chars)) >>= fun more => .ok (chunk :: more)) := by
  cases x with
  | error e => exact border_append chunk.chars h
  | ok more =>
    refine ⟨?_, List.forall_mem_cons.mpr ⟨hchunk, h.2⟩⟩
    rw [joined_cons, h.1]

theorem divides_chunksWithin {fuel} {s : Surroundings} (hfuel : cs.length ≤ fuel) :
    Divides cs (chunksWithin fuel s cs) := by
  induction fuel generalizing s cs with
  | zero =>
    obtain rfl := List.length_eq_zero_iff.mp (Nat.le_zero.mp hfuel)
    exact divides_nil 0 s
  | succ fuel ih =>
    cases cs with
    | nil => exact divides_nil (fuel + 1) s
    | cons c rest =>
      have hcuts := cuts_nextChunk s c rest
      rw [chunksWithin]
      cases hnext : nextChunk s c rest with
      | error e =>
        rw [hnext] at hcuts
        exact hcuts
      | ok next =>
        obtain ⟨chunk, s'⟩ := next
        rw [hnext] at hcuts
        obtain ⟨after, hafter⟩ := hcuts.opens
        change Divides (c :: rest)
          ((chunksWithin fuel s' ((c :: rest).drop chunk.chars.length)).mapError _ >>= _)
        rw [hafter, List.drop_left]
        refine .cons hcuts.toSolid (ih ?_)
        have hlength := congrArg List.length hafter
        have hpos := List.length_pos_iff.mpr hcuts.ne_nil
        rw [List.length_append] at hlength
        omega

theorem divides_chunks (cs : List Char) : Divides cs (chunks cs) :=
  divides_chunksWithin (Nat.le_refl _)

/-- The pieces with the offsets where they start. -/
def placed (offset : Nat) : List Chunk → List (Nat × Chunk)
  | [] => []
  | chunk :: rest => (offset, chunk) :: placed (offset + byteLength chunk.chars) rest

theorem mem_placed {pieces : List Chunk} :
    x ∈ placed offset pieces ↔
      ∃ xs ys, pieces = xs ++ x.2 :: ys ∧ x.1 = offset + byteLength (joined xs) := by
  induction pieces generalizing offset with
  | nil => simp [placed]
  | cons chunk rest ih =>
    rw [placed, List.mem_cons, ih]
    constructor
    · rintro (rfl | ⟨xs, ys, rfl, hx⟩)
      · exact ⟨[], rest, rfl, rfl⟩
      · exact ⟨chunk :: xs, ys, rfl, by simp [hx, Nat.add_assoc]⟩
    · rintro ⟨xs, ys, hpieces, hx⟩
      cases xs with
      | nil =>
        obtain ⟨rfl, rfl⟩ := List.cons.inj hpieces
        exact .inl (Prod.ext hx rfl)
      | cons first xs =>
        obtain ⟨rfl, rfl⟩ := List.cons.inj hpieces
        exact .inr ⟨xs, ys, rfl, by simp [joined, hx, Nat.add_assoc]⟩

/-- What a piece at an offset adds to the streams. -/
def Chunk.token? (offset : Nat) : Chunk → Option Token
  | .token kind text =>
    some ⟨kind, String.ofList text, offset, offset + byteLength text, none⟩
  | _ => none

@[inherit_doc Chunk.token?]
def Chunk.comment? (offset : Nat) : Chunk → Option Comment
  | .comment kind body =>
    some ⟨kind, String.ofList body, offset, offset + byteLength (Chunk.comment kind body).chars, none⟩
  | _ => none

/-- The place of a piece, unless the streams leave it out. -/
def Chunk.place? (offset : Nat) : Chunk → Option (Nat × Nat)
  | .blank _ => none
  | chunk => some (offset, offset + byteLength chunk.chars)

theorem tokens_streamsFrom (offset : Nat) (pieces : List Chunk) :
    (streamsFrom offset pieces).tokens = (placed offset pieces).filterMap fun x => x.2.token? x.1 := by
  induction pieces generalizing offset with
  | nil => rfl
  | cons chunk rest ih =>
    cases chunk <;> simp [streamsFrom, placed, ih, Chunk.token?, Chunk.chars]

theorem comments_streamsFrom (offset : Nat) (pieces : List Chunk) :
    (streamsFrom offset pieces).comments = (placed offset pieces).filterMap fun x => x.2.comment? x.1 := by
  induction pieces generalizing offset with
  | nil => rfl
  | cons chunk rest ih => cases chunk <;> simp [streamsFrom, placed, ih, Chunk.comment?]

theorem places_streamsFrom_perm (offset : Nat) (pieces : List Chunk) :
    (streamsFrom offset pieces).places.Perm ((placed offset pieces).filterMap fun x => x.2.place? x.1) := by
  refine (List.mergeSort_perm ..).trans ?_
  induction pieces generalizing offset with
  | nil => exact .nil
  | cons chunk rest ih =>
    cases chunk with
    | blank c => simpa [streamsFrom, placed, Chunk.place?] using ih _
    | token kind text => simpa [streamsFrom, placed, Chunk.place?] using ih _
    | comment kind body =>
      simp only [streamsFrom, placed, Chunk.place?, List.map_cons, List.filterMap_cons]
      exact List.perm_middle.trans (.cons _ (ih _))

theorem place?_eq_some (h : chunk.place? offset = some p) :
    p = (offset, offset + byteLength chunk.chars) := by
  cases chunk with
  | blank c => cases h
  | comment kind body => exact (Option.some.inj h).symm
  | token kind text => exact (Option.some.inj h).symm

theorem place?_eq_none (h : chunk.place? offset = none) :
    ∃ c, chunk = .blank c := by
  cases chunk with
  | blank c => exact ⟨c, rfl⟩
  | comment kind body => cases h
  | token kind text => cases h

theorem pairwise_placed (offset : Nat) (pieces : List Chunk) :
    ((placed offset pieces).filterMap fun x => x.2.place? x.1).Pairwise fun p q => p.2 ≤ q.1 := by
  induction pieces generalizing offset with
  | nil => exact .nil
  | cons chunk rest ih =>
    rw [placed, List.filterMap_cons]
    split
    · exact ih _
    · next p hp =>
      refine List.pairwise_cons.mpr ⟨fun q hq => ?_, ih _⟩
      obtain ⟨x, hx, hplace⟩ := List.mem_filterMap.mp hq
      obtain ⟨xs, ys, -, hstart⟩ := mem_placed.mp hx
      rw [place?_eq_some hp, place?_eq_some hplace, hstart]
      exact Nat.le_add_right ..

/-- The streams account for every byte of a text that starts at `base`. -/
structure Tiles (base : Nat) (text : List Char) (streams : Streams) : Prop where
  /-- No place is empty. -/
  filled : ∀ p ∈ streams.places, p.1 < p.2
  /-- Each place ends before the next one starts. -/
  apart : streams.places.Pairwise fun p q => p.2 ≤ q.1
  token : ∀ t ∈ streams.tokens, base ≤ t.start ∧
    slice? (t.start - base) (t.stop - base) text = some t.value.toList
  comment : ∀ c ∈ streams.comments, base ≤ c.start ∧
    slice? (c.start - base) (c.stop - base) text = some c.chars
  /-- A byte that is in no place is one of a blank character. -/
  blank : ∀ before c after offset, text = before ++ c :: after → byteLength before ≤ offset →
    offset < byteLength (before ++ [c]) →
    (∀ p ∈ streams.places, base + offset < p.1 ∨ p.2 ≤ base + offset) → isBlank c ∨ c = '\uFEFF'

/-- Places that do not overlap, sorted by their starts. -/
theorem pairwise_of_perm {places sorted : List (Nat × Nat)} (hfilled : ∀ p ∈ places, p.1 < p.2)
    (hapart : places.Pairwise fun p q => p.2 ≤ q.1) (hperm : sorted.Perm places)
    (hsorted : sorted.Pairwise fun p q => p.1 ≤ q.1) :
    sorted.Pairwise fun p q => p.2 ≤ q.1 := by
  have hdisjoint : sorted.Pairwise fun p q => p.2 ≤ q.1 ∨ q.2 ≤ p.1 :=
    (hperm.pairwise_iff fun h => h.symm).mpr (hapart.imp .inl)
  refine (hsorted.and hdisjoint).imp_of_mem fun hp hq h => ?_
  have := hfilled _ (hperm.mem_iff.mp hq)
  omega

section Pieces

variable {pieces : List Chunk} (base : Nat)

theorem slice?_of_mem_placed (hx : x ∈ placed base pieces) :
    base ≤ x.1 ∧ slice? (x.1 - base) (x.1 + byteLength x.2.chars - base) (joined pieces) =
      some x.2.chars := by
  obtain ⟨xs, ys, rfl, hstart⟩ := mem_placed.mp hx
  have hoffset : x.1 - base = byteLength (joined xs) := by omega
  have hstop : x.1 + byteLength x.2.chars - base =
      byteLength (joined xs) + byteLength x.2.chars := by omega
  refine ⟨by omega, ?_⟩
  rw [hoffset, hstop, joined_append, joined_cons, ← List.append_assoc]
  exact slice?_append ..

theorem exists_placed {before after} {c : Char} (h : joined pieces = before ++ c :: after) :
    ∃ x ∈ placed base pieces, c ∈ x.2.chars ∧ x.1 ≤ base + byteLength before ∧
      base + byteLength (before ++ [c]) ≤ x.1 + byteLength x.2.chars := by
  induction pieces generalizing base before with
  | nil => simp [joined] at h
  | cons chunk rest ih =>
    rw [joined_cons] at h
    by_cases hlength : chunk.chars.length ≤ before.length
    · obtain ⟨before, rfl⟩ := List.prefix_of_prefix_length_le ⟨_, h⟩ ⟨_, rfl⟩ hlength
      rw [List.append_assoc, List.append_cancel_left_eq] at h
      obtain ⟨x, hx, hc, hstart, hstop⟩ := ih (base + byteLength chunk.chars) h
      refine ⟨x, List.mem_cons_of_mem _ hx, hc, ?_, ?_⟩
      all_goals
        simp only [byteLength_append] at *
        omega
    · have hfits : (before ++ [c]).length ≤ chunk.chars.length := by simp; omega
      obtain ⟨tail, htail⟩ := List.prefix_of_prefix_length_le ⟨after, by simp⟩ ⟨_, h⟩ hfits
      refine ⟨(base, chunk), List.mem_cons_self .., by simp [← htail], Nat.le_add_right .., ?_⟩
      rw [← htail, byteLength_append _ tail]
      omega

theorem mem_places :
    p ∈ (streamsFrom base pieces).places ↔ ∃ x ∈ placed base pieces, x.2.place? x.1 = some p :=
  (places_streamsFrom_perm base pieces).mem_iff.trans List.mem_filterMap

theorem slice?_of_mem_tokens {t} (ht : t ∈ (streamsFrom base pieces).tokens) :
    base ≤ t.start ∧
      slice? (t.start - base) (t.stop - base) (joined pieces) = some t.value.toList := by
  rw [tokens_streamsFrom, List.mem_filterMap] at ht
  obtain ⟨⟨start, chunk⟩, hx, ht⟩ := ht
  cases chunk with
  | blank c => cases ht
  | comment kind body => cases ht
  | token kind text =>
    cases ht
    simpa [Chunk.chars] using slice?_of_mem_placed base hx

theorem slice?_of_mem_comments {c : Comment} (hc : c ∈ (streamsFrom base pieces).comments) :
    base ≤ c.start ∧ slice? (c.start - base) (c.stop - base) (joined pieces) = some c.chars := by
  rw [comments_streamsFrom, List.mem_filterMap] at hc
  obtain ⟨⟨start, chunk⟩, hx, hc⟩ := hc
  cases chunk with
  | blank d => cases hc
  | token kind text => cases hc
  | comment kind body =>
    cases hc
    cases kind <;> simpa [Comment.chars, Chunk.chars] using slice?_of_mem_placed base hx

variable (hsolid : ∀ chunk ∈ pieces, chunk.Solid)
include hsolid

theorem solid_of_mem_placed (hx : x ∈ placed base pieces) : x.2.Solid := by
  obtain ⟨xs, ys, rfl, -⟩ := mem_placed.mp hx
  exact hsolid x.2 (by simp)

theorem lt_of_mem_places (hp : p ∈ (streamsFrom base pieces).places) :
    p.1 < p.2 := by
  obtain ⟨x, hx, hplace⟩ := (mem_places base).mp hp
  have hpos := List.length_pos_iff.mpr (solid_of_mem_placed base hsolid hx).ne_nil
  have hlength := length_le_byteLength x.2.chars
  rw [place?_eq_some hplace]
  omega

theorem pairwise_places :
    (streamsFrom base pieces).places.Pairwise fun p q => p.2 ≤ q.1 := by
  have hperm := places_streamsFrom_perm base pieces
  refine pairwise_of_perm (fun p hp => ?_) (pairwise_placed base pieces) hperm ?_
  · exact lt_of_mem_places base hsolid (hperm.mem_iff.mpr hp)
  · refine (List.pairwise_mergeSort ?_ ?_ _).imp of_decide_eq_true
    · intro p q r hpq hqr
      simp only [decide_eq_true_eq] at *
      exact Nat.le_trans hpq hqr
    · intro p q
      simpa using Nat.le_total p.1 q.1

theorem tiles_streamsFrom : Tiles base (joined pieces) (streamsFrom base pieces) where
  filled _ hp := lt_of_mem_places base hsolid hp
  apart := pairwise_places base hsolid
  token _ ht := slice?_of_mem_tokens base ht
  comment _ hc := slice?_of_mem_comments base hc
  blank before c after offset htext hle hlt huncovered := by
    obtain ⟨⟨start, chunk⟩, hx, hc, hstart, hstop⟩ := exists_placed base htext
    cases hplace : chunk.place? start with
    | none =>
      obtain ⟨d, rfl⟩ := place?_eq_none hplace
      obtain rfl := List.mem_singleton.mp hc
      exact (solid_of_mem_placed base hsolid hx).blank c rfl
    | some p =>
      have hp := huncovered p ((mem_places base).mpr ⟨_, hx, hplace⟩)
      rw [place?_eq_some hplace] at hp
      dsimp only at *
      omega

end Pieces

/-- The tokens and comments of a text tile it, and a text is refused between two of its characters
only. -/
theorem tokenize_tiles (base : Nat) (text : List Char) :
    (∀ streams, tokenize base text = .ok streams → Tiles base text streams) ∧
    ∀ e, tokenize base text = .error e → base ≤ e.offset ∧ Border text (e.offset - base) := by
  have hdivides := divides_chunks text
  unfold tokenize
  cases hchunks : chunks text with
  | ok pieces =>
    rw [hchunks] at hdivides
    obtain ⟨rfl, hsolid⟩ := hdivides
    refine ⟨?_, by simp⟩
    rintro _ ⟨⟩
    exact tiles_streamsFrom base hsolid
  | error e =>
    rw [hchunks] at hdivides
    refine ⟨by simp, ?_⟩
    rintro _ ⟨⟩
    refine ⟨Nat.le_add_left .., ?_⟩
    rwa [ScriptError.shift, Nat.add_sub_cancel]

end Script

end SvelteSyntax
