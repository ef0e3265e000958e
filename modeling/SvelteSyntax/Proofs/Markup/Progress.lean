import SvelteSyntax.Proofs.Markup.Balanced
import SvelteSyntax.Proofs.Markup.Regions

namespace SvelteSyntax.Markup

open Text Run

/-- The moves that a construct may still make without passing over a character. -/
def Mode.weight : Mode → Nat
  | .mustache false | .each .start => 5
  | .mustache true | .each .middle | .await .start => 3
  | _ => 1

def Modes.weight : Modes → Nat
  | [] => 0
  | mode :: outer => mode.weight + weight outer

/-- The moves down to a name that the next character makes necessary. -/
def Mode.eagerness : Mode → Option Char → Nat
  | .attributes, head => if isBlankOr ['/', '>'] head then 0 else 4
  | .attribute, head => if isBlankOr ['/', '>', '=', '{', '}'] head then 0 else 2
  | _, _ => 0

/-- A bound on the moves that follow before the end of the text. -/
def movesDue (modes : Modes) (cs : List Char) : Nat :=
  movesPerChar * cs.length + modes.weight + (Modes.top modes).eagerness cs.head?

/-- The characters that a move passes over. -/
def Move.length (move : Move) : Nat :=
  move.before + (move.lexeme.map (·.2)).getD 0 + move.after

theorem Mode.eagerness_le (mode : Mode) (head : Option Char) : mode.eagerness head ≤ 4 := by
  unfold Mode.eagerness
  split
  · split <;> omega
  · split <;> omega
  · omega

theorem Mode.weight_pos (mode : Mode) : 0 < mode.weight := by
  unfold Mode.weight
  split <;> omega

theorem Mode.weight_le (mode : Mode) : mode.weight ≤ 5 := by
  unfold Mode.weight
  split <;> omega

variable {inner : Mode} {n before : Nat} {cs source : List Char} {move : Move} {kind : LexemeKind}
  {c : Char} {ls : List Lexeme} {r : Reading}

theorem Mode.eagerness_lt_weight {outer : Mode} (h : inner.nestsIn outer)
    (hout : (inner.nestsIn .attributes || inner.nestsIn .attribute) = false) (head : Option Char) :
    outer.eagerness head < inner.weight := by
  have := inner.weight_pos
  cases outer <;> simp_all [Mode.eagerness]

@[simp] theorem Modes.weight_cons (mode : Mode) (outer : Modes) :
    Modes.weight (mode :: outer) = mode.weight + Modes.weight outer := rfl

theorem movesDue_lt {modes modes' : Modes} (hcs : cs ≠ []) (hn : 0 < n)
    (hw : modes'.weight ≤ modes.weight + 11) :
    movesDue modes' (cs.drop n) < movesDue modes cs := by
  have hlen : 0 < cs.length := List.length_pos_iff.mpr hcs
  have he := (Modes.top modes').eagerness_le (cs.drop n).head?
  simp only [movesDue, movesPerChar, List.length_drop]
  omega

def Move.Fills (move : Move) (cs : List Char) : Prop :=
  ∀ kind n, move.lexeme = some (kind, n) → 0 < n ∧ move.before < cs.length

/-- What a move does to the open constructs and to the moves that are due, and that it makes no
empty lexeme. -/
structure Move.Pays (move : Move) (modes : Modes) (cs : List Char) : Prop where
  path : Modes.Path (move.change modes)
  due : movesDue (move.change modes) (cs.drop move.length) < movesDue modes cs
  fills : move.Fills cs

theorem Move.Fills.of_none (h : move.lexeme = none) (cs : List Char) :
    move.Fills cs := by
  simp [Move.Fills, h]

theorem Move.Fills.of_some (h : move.lexeme = some (kind, n)) (hn : 0 < n)
    (hbefore : move.before < cs.length) :
    move.Fills cs := by
  rintro kind' m hm
  rw [h] at hm
  cases hm
  exact ⟨hn, hbefore⟩

namespace Move.Pays

variable {move : Move} {mode : Mode} {modes outer : Modes} {cs : List Char}

theorem advance (hcs : cs ≠ []) (hpath : Modes.Path (move.change modes)) (hn : 0 < move.length)
    (hfills : move.Fills cs) (hw : Modes.weight (move.change modes) ≤ modes.weight + 11) :
    move.Pays modes cs :=
  ⟨hpath, movesDue_lt hcs hn hw, hfills⟩

theorem pass (hcs : cs ≠ []) (hp : Modes.Path modes) (hn : 0 < n) :
    (Move.pass n).Pays modes cs :=
  advance hcs hp (by simpa [Move.pass, Move.length] using hn) (.of_none rfl cs) (by simp [Move.pass])

theorem emit (hcs : cs ≠ []) (hp : Modes.Path modes) (hn : 0 < n) :
    (Move.emit kind n).Pays modes cs :=
  advance hcs hp (by simpa [Move.emit, Move.length] using hn)
    (.of_some rfl hn (List.length_pos_iff.mpr hcs)) (by simp [Move.emit])

theorem emitEnter (hcs : cs ≠ []) (hp : Modes.Path modes) (hin : inner.nestsIn (Modes.top modes))
    (hn : 0 < n) :
    (Move.emitEnter kind n inner).Pays modes cs := by
  refine advance hcs ⟨hin, hp⟩ (by simpa [Move.emitEnter, Move.emit, Move.length] using hn)
    (.of_some rfl hn (List.length_pos_iff.mpr hcs)) ?_
  have := inner.weight_le
  simp only [Move.emitEnter, Modes.weight_cons]
  omega

theorem tail (hcs : cs ≠ []) (hp : Modes.Path (mode :: outer)) (hn : 0 < move.length)
    (hfills : move.Fills cs) :
    ({ move with change := List.tail } : Move).Pays (mode :: outer) cs := by
  refine advance hcs hp.2 hn hfills ?_
  simp only [List.tail_cons, Modes.weight_cons]
  omega

theorem doneIf {leaves : Bool} (hcs : cs ≠ []) (hp : Modes.Path (mode :: outer))
    (hn : 0 < move.length) (hfills : move.Fills cs) (hid : move.change = id) :
    (if leaves then { move with change := List.tail } else move).Pays (mode :: outer) cs := by
  cases leaves with
  | true => exact tail hcs hp hn hfills
  | false => exact advance hcs (hid ▸ hp) hn hfills (hid ▸ Nat.le_add_right ..)

theorem passEmitLeave {after} (hcs : cs ≠ []) (hp : Modes.Path (mode :: outer)) (hn : 0 < n)
    (hbefore : before < cs.length) :
    ({ Move.emitLeave kind n with before, after } : Move).Pays (mode :: outer) cs := by
  refine @tail { Move.emit kind n with before, after } _ _ _ hcs hp ?_ (.of_some rfl hn hbefore)
  simp only [Move.emit, Move.length, Option.map_some, Option.getD_some]
  omega

theorem emitLeave {after} (hcs : cs ≠ []) (hp : Modes.Path (mode :: outer)) (hn : 0 < n) :
    ({ Move.emitLeave kind n with after } : Move).Pays (mode :: outer) cs :=
  passEmitLeave hcs hp hn (List.length_pos_iff.mpr hcs)

theorem leave (hcs : cs ≠ []) (hp : Modes.Path (mode :: outer))
    (he : (Modes.top outer).eagerness cs.head? < mode.weight) :
    ({ Move.leave with before } : Move).Pays (mode :: outer) cs := by
  cases before with
  | zero =>
    refine ⟨hp.2, ?_, .of_none rfl cs⟩
    simp only [Move.leave, Move.length, movesDue, List.tail_cons, Modes.weight_cons,
      Option.map_none, Option.getD_none, Nat.add_zero, List.drop_zero]
    omega
  | succ n =>
    refine advance hcs hp.2 (by simp [Move.leave, Move.length]) (.of_none rfl cs) ?_
    simp only [Move.leave, List.tail_cons, Modes.weight_cons]
    omega

theorem become {mode'} (hp : Modes.Path (mode :: outer)) (hin : inner.nestsIn mode')
    (hout : mode'.nestsIn (Modes.top outer))
    (hw : mode'.weight + inner.weight + inner.eagerness cs.head? < mode.weight) :
    (Move.become mode' inner).Pays (mode :: outer) cs := by
  refine ⟨⟨hin, hout, hp.2⟩, ?_, .of_none rfl cs⟩
  simp only [Move.become, Move.length, movesDue, List.tail_cons, Modes.weight_cons,
    Option.map_none, Option.getD_none, Nat.add_zero, List.drop_zero, Modes.top, List.head?_cons,
    Option.getD_some]
  omega

end Move.Pays

theorem skippingBlanks_eq_ok {next} (h : skippingBlanks cs next = .ok move) :
    (0 < blanks cs ∧ move = .pass (blanks cs)) ∨ (blanks cs = 0 ∧ next = .ok move) := by
  unfold skippingBlanks at h
  split at h
  · exact .inr ⟨‹_›, h⟩
  · cases h
    exact .inl ⟨by omega, rfl⟩

theorem closeMustache_eq_ok (h : closeMustache cs = .ok move) :
    cs.head? = some '}' ∧ move = .emitLeave .mustacheEnd 1 := by
  unfold closeMustache at h
  split at h
  · cases h
    exact ⟨‹_›, rfl⟩
  · cases h

theorem unless_refused {p : Prop} [Decidable p] {next : Outcome}
    (h : (if p then .error n else next) = .ok move) : ¬p ∧ next = .ok move := by
  split at h
  · cases h
  · exact ⟨‹_›, h⟩

theorem head?_isSome (hcs : cs ≠ []) : ∃ c, cs.head? = some c := by
  cases cs with
  | nil => exact absurd rfl hcs
  | cons c cs => exact ⟨c, rfl⟩

theorem scriptLength_lt {stop} {prev : Option Char} (h : scriptLength stop prev cs ≠ cs.length) :
    scriptLength stop prev cs < cs.length :=
  Nat.lt_of_le_of_ne (Balanced.length_takeUntil_le stop prev cs) h

theorem lt_length_of_head? (h : (cs.drop n).head? = some c) : n < cs.length := by
  by_contra hle
  rw [List.drop_eq_nil_iff.mpr (by omega)] at h
  cases h

theorem lengthThrough_pos {close} (hcs : cs ≠ []) (hclose : close ≠ []) :
    0 < lengthThrough close cs := by
  have hlen := List.length_pos_iff.mpr hclose
  unfold lengthThrough
  split
  · omega
  · exact List.length_pos_iff.mpr hcs

theorem length_takeWhile_pos {p} (hc : cs.head? = some c) (hp : p c) :
    0 < (cs.takeWhile p).length := by
  obtain ⟨cs, rfl⟩ := List.head?_eq_some_iff.mp hc
  simp [hp]

theorem not_blank_of_blanks (hb : blanks cs = 0) (hc : cs.head? = some c) : isMarkupBlank c = false := by
  by_contra hblank
  have := length_takeWhile_pos hc (p := isMarkupBlank) (by simpa using hblank)
  simp only [blanks] at hb
  omega

theorem runLength_pos (marks : List Char) (hc : cs.head? = some c)
    (hm : isBlankOr marks (some c) = false) : 0 < runLength marks cs := by
  refine length_takeWhile_pos hc ?_
  simpa [isBlankOr] using hm

def Modes.Named (modes : Modes) : Prop := ∀ mode ∈ modes, mode.isNamed

/-- The lexeme of a move, if it makes one, leads from the regions that were open to those that
are. -/
structure Move.Keeps (move : Move) (modes : Modes) : Prop where
  regions (region : Region) :
    region.afterAll (region.isOpen modes) (move.lexeme.map (·.1)).toList =
      some (region.isOpen (move.change modes))
  named : modes.Named → Modes.Named (move.change modes)

section

variable {mode inner : Mode} {modes rest : Modes}

theorem Modes.Named.cons (hinner : inner.isNamed) (h : modes.Named) :
    Modes.Named (inner :: modes) :=
  List.forall_mem_cons.mpr ⟨hinner, h⟩

theorem Modes.Named.tail (h : Modes.Named modes) : Modes.Named modes.tail :=
  fun mode hmode => h mode (List.mem_of_mem_tail hmode)

end

namespace Move.Keeps

variable {move : Move} {mode inner : Mode} {modes rest : Modes} {kind : LexemeKind} {n : Nat}

theorem silent (hlexeme : move.lexeme = none)
    (h : ∀ region : Region, region.isOpen (move.change modes) = region.isOpen modes)
    (hnamed : modes.Named → Modes.Named (move.change modes)) : move.Keeps modes := by
  refine ⟨fun region => ?_, hnamed⟩
  rw [hlexeme, h]
  rfl

theorem speaking (hlexeme : move.lexeme = some (kind, n))
    (h : ∀ region : Region,
      region.after (region.isOpen modes) kind = some (region.isOpen (move.change modes)))
    (hnamed : modes.Named → Modes.Named (move.change modes)) : move.Keeps modes := by
  refine ⟨fun region => ?_, hnamed⟩
  rw [hlexeme, ← h]
  simp [Region.afterAll]

theorem fitting (hlexeme : move.lexeme = some (kind, n)) (hfits : Fits kind modes)
    (h : ∀ region : Region, region.isOpen (move.change modes) = region.isOpen modes)
    (hnamed : modes.Named → Modes.Named (move.change modes)) : move.Keeps modes :=
  .speaking hlexeme (fun region => by rw [hfits region, h]) hnamed

theorem pass (n : Nat) (modes : Modes) : (Move.pass n).Keeps modes :=
  .silent rfl (fun _ => rfl) id

theorem emit (hfits : Fits kind modes) :
    ({ Move.emit kind n with before } : Move).Keeps modes :=
  .fitting rfl hfits (fun _ => rfl) id

theorem leave (hp : Modes.Path (mode :: rest)) (hinner : mode.isInner) :
    ({ Move.leave with before } : Move).Keeps (mode :: rest) :=
  .silent rfl (fun region => (isOpen_cons_of_isInner hp.1 hinner region).symm) Modes.Named.tail

theorem emitLeave (hfits : Fits kind (mode :: rest)) (hp : Modes.Path (mode :: rest))
    (hinner : mode.isInner) :
    ({ Move.emitLeave kind n with before } : Move).Keeps (mode :: rest) :=
  .fitting rfl hfits (fun region => (isOpen_cons_of_isInner hp.1 hinner region).symm)
    Modes.Named.tail

theorem enter (hin : inner.nestsIn (Modes.top modes)) (hinner : inner.isInner)
    (hnamed : inner.isNamed) : (Move.enter inner).Keeps modes :=
  .silent rfl (isOpen_cons_of_isInner hin hinner) (.cons hnamed)

theorem emitEnter (hfits : Fits kind modes) (hin : inner.nestsIn (Modes.top modes))
    (hinner : inner.isInner) (hnamed : inner.isNamed) :
    (Move.emitEnter kind n inner).Keeps modes :=
  .fitting rfl hfits (isOpen_cons_of_isInner hin hinner) (.cons hnamed)

theorem become {next}
    (h : ∀ region : Region, region.isOpen (inner :: next :: rest) = region.isOpen (mode :: rest))
    (hinner : inner.isNamed) (hnext : next.isNamed) :
    (Move.become next inner).Keeps (mode :: rest) :=
  .silent rfl h fun hn => .cons hinner (.cons hnext hn.tail)

theorem openBraces (hbraces : (Modes.top modes).inBraces = false)
    (hclosing : (Modes.top modes).isClosing = false) :
    (Move.emitEnter .mustacheStart n (.mustache false)).Keeps modes := by
  refine .speaking rfl (fun region => ?_) (.cons rfl)
  cases region with
  | braces =>
    change Region.braces.after (Modes.top modes).inBraces _ = _
    rw [hbraces]
    rfl
  | openTag => exact Region.after_of_free (by decide) _
  | closeTag =>
    change Region.closeTag.after (Modes.top modes).isClosing _ = _
    rw [hclosing]
    rfl

theorem closeBraces (hp : Modes.Path (mode :: rest)) (hmode : mode.nestsIn (.mustache true)) :
    ({ Move.emitLeave .mustacheEnd n with before } : Move).Keeps (mode :: rest) := by
  have htop := (Mode.nested hp.1).mustache hmode
  obtain ⟨hbraces, hclosing, htag⟩ := (Mode.nested hmode).inBraces rfl
  refine .speaking rfl (fun region => ?_) Modes.Named.tail
  cases region with
  | braces =>
    change Region.braces.after mode.inBraces _ = some (Modes.top rest).inBraces
    rw [hbraces, htop]
    rfl
  | openTag =>
    change Region.openTag.after (mode.isTag || _) _ = _
    rw [htag]
    exact Region.after_of_free (by decide) _
  | closeTag =>
    change Region.closeTag.after mode.isClosing _ = some (Modes.top rest).isClosing
    rw [hclosing, htop]
    rfl

end Move.Keeps

def Move.Sound (move : Move) (modes : Modes) (cs : List Char) : Prop :=
  move.Pays modes cs ∧ (modes.Named → move.Keeps modes)

section

variable {mode : Mode} {modes outer : Modes} {prev : Option Char} {cs : List Char} {move : Move}

theorem Move.Sound.pass (hcs : cs ≠ []) (hp : Modes.Path modes) (hn : 0 < n) :
    (Move.pass n).Sound modes cs :=
  ⟨.pass hcs hp hn, fun _ => .pass _ _⟩

theorem Move.Sound.emitEnter (hcs : cs ≠ []) (hp : Modes.Path modes)
    (hin : inner.nestsIn (Modes.top modes)) (hinner : inner.isInner) (hnamed : inner.isNamed)
    (hfits : Fits kind modes) (hn : 0 < n) :
    (Move.emitEnter kind n inner).Sound modes cs :=
  ⟨.emitEnter hcs hp hin hn, fun _ => .emitEnter hfits hin hinner hnamed⟩

theorem sound_openBraces (hcs : cs ≠ []) (hp : Modes.Path modes)
    (hin : (Mode.mustache false).nestsIn (Modes.top modes))
    (hbraces : (Modes.top modes).inBraces = false) (hclosing : (Modes.top modes).isClosing = false) :
    (Move.emitEnter .mustacheStart 1 (.mustache false)).Sound modes cs :=
  ⟨.emitEnter hcs hp hin (by omega), fun _ => .openBraces hbraces hclosing⟩

theorem sound_closeMustache (hp : Modes.Path (mode :: outer)) (hcs : cs ≠ [])
    (hmode : mode.nestsIn (.mustache true)) (h : closeMustache cs = .ok move) :
    move.Sound (mode :: outer) cs := by
  obtain ⟨-, rfl⟩ := closeMustache_eq_ok h
  exact ⟨.emitLeave hcs hp (by omega), fun _ => .closeBraces hp hmode⟩

theorem sound_lastPart (hp : Modes.Path (mode :: outer)) (hcs : cs ≠ []) (hinner : mode.isInner)
    (hfits : Fits kind (mode :: outer)) (hn : 0 < n) (hbefore : before < cs.length) :
    ({ Move.emitLeave kind n with before } : Move).Sound (mode :: outer) cs :=
  ⟨.passEmitLeave hcs hp hn hbefore, fun _ => .emitLeave hfits hp hinner⟩

theorem sound_leave (hp : Modes.Path (mode :: outer)) (hcs : cs ≠ []) (hinner : mode.isInner)
    (hout : (mode.nestsIn .attributes || mode.nestsIn .attribute) = false) :
    ({ Move.leave with before } : Move).Sound (mode :: outer) cs :=
  ⟨.leave hcs hp (Mode.eagerness_lt_weight hp.1 hout _), fun _ => .leave hp hinner⟩

theorem sound_inText (hcs : cs ≠ []) (h : inText cs = .ok move) : move.Sound [] cs := by
  obtain ⟨c, hc⟩ := head?_isSome hcs
  have hp : Modes.Path [] := trivial
  unfold inText at h
  split at h
  · cases h
    exact .pass hcs hp (lengthThrough_pos hcs (by decide))
  split at h
  · cases h
    exact .pass hcs hp (lengthThrough_pos hcs (by decide))
  split at h
  · cases h
    exact .pass hcs hp (lengthThrough_pos hcs (by decide))
  split at h
  · cases h
    exact ⟨.emitEnter hcs hp rfl (by omega),
      fun _ => .speaking rfl (fun region => by cases region <;> rfl) (.cons rfl)⟩
  split at h
  · cases h
    exact ⟨.emitEnter hcs hp rfl (by omega),
      fun _ => .speaking rfl (fun region => by cases region <;> rfl) (.cons rfl)⟩
  split at h
  · cases h
    exact sound_openBraces hcs hp rfl rfl rfl
  · rename_i hlt hbrace
    cases h
    refine .pass hcs hp (length_takeWhile_pos hc ?_)
    simp_all

theorem sound_inTag {raw} (hp : Modes.Path (.tag raw :: outer)) (hcs : cs ≠ [])
    (h : inTag raw cs = .ok move) : move.Sound (.tag raw :: outer) cs := by
  obtain ⟨c, hc⟩ := head?_isSome hcs
  obtain rfl := eq_nil_of_nestsIn_text hp (.inl rfl)
  unfold inTag at h
  split at h
  · cases h
    exact ⟨.emitLeave hcs hp (by omega),
      fun _ => .speaking rfl (fun region => by cases region <;> rfl) Modes.Named.tail⟩
  split at h
  · cases h
    exact ⟨.emitLeave hcs hp (by omega),
      fun _ => .speaking rfl (fun region => by cases region <;> rfl) Modes.Named.tail⟩
  split at h
  · cases h
  · rename_i hgt hself hblank
    cases h
    have hn := runLength_pos ['/', '>'] hc (by simp_all [isBlankOr])
    refine ⟨.advance hcs ⟨rfl, hp⟩ ?_ (.of_some rfl hn (List.length_pos_iff.mpr hcs)) ?_, fun _ =>
      .fitting rfl ?_ (fun region => by cases region <;> rfl) fun hn => .cons rfl (.cons rfl hn.tail)⟩
    · simp only [Move.length, Move.emit, Option.map_some, Option.getD_some]
      omega
    · simp only [List.tail_cons, Modes.weight_cons, Mode.weight]
      omega
    · split
      · exact fits_of_inTag rfl hp rfl
      · exact fits_tagName _

theorem sound_inAttributes (hp : Modes.Path (.attributes :: outer)) (hcs : cs ≠ [])
    (h : inAttributes cs = .ok move) : move.Sound (.attributes :: outer) cs := by
  rcases skippingBlanks_eq_ok h with ⟨hb, rfl⟩ | ⟨hb, h⟩
  · exact .pass hcs hp hb
  cases h
  split
  · exact sound_leave hp hcs rfl rfl
  · rename_i hmark
    refine ⟨⟨⟨rfl, hp⟩, ?_, .of_none rfl cs⟩, fun _ => .enter rfl rfl rfl⟩
    have he : isBlankOr ['/', '>'] cs.head? = false := by
      obtain ⟨c, hc⟩ := head?_isSome hcs
      have := not_blank_of_blanks hb hc
      simp_all [isOneOf, isBlankOr]
    have := (Mode.attribute).eagerness_le cs.head?
    simp only [Move.enter, Move.length, movesDue, Modes.weight_cons, Modes.top, List.head?_cons,
      Option.getD_some, Mode.eagerness, he, Mode.weight, Option.map_none, Option.getD_none,
      Nat.add_zero, List.drop_zero, Bool.false_eq_true, ↓reduceIte]
    split <;> omega

theorem sound_inAttribute (hp : Modes.Path (.attribute :: outer)) (hcs : cs ≠ [])
    (h : inAttribute cs = .ok move) : move.Sound (.attribute :: outer) cs := by
  unfold inAttribute at h
  split at h
  · cases h
    exact sound_openBraces hcs hp rfl rfl rfl
  split at h
  · cases h
    exact .emitEnter hcs hp rfl rfl rfl (fits_of_inTag rfl hp rfl) (by omega)
  split at h
  · rename_i hmark
    cases h
    refine ⟨.leave hcs hp ?_, fun _ => .leave hp rfl⟩
    have hout := hp.1
    revert hout
    cases Modes.top outer <;> simp [Mode.nestsIn, Mode.eagerness, Mode.weight, hmark]
  split at h
  · cases h
  · rename_i hbrace hequal hmark hclose
    cases h
    refine ⟨⟨⟨rfl, hp⟩, ?_, .of_none rfl cs⟩, fun _ => .enter rfl rfl rfl⟩
    have he : isBlankOr ['/', '>', '=', '{', '}'] cs.head? = false := by
      obtain ⟨c, hc⟩ := head?_isSome hcs
      simp_all [isBlankOr]
    simp only [Move.enter, Move.length, movesDue, Modes.weight_cons, Modes.top, List.head?_cons,
      Option.getD_some, Mode.eagerness, he, Mode.weight, Option.map_none, Option.getD_none,
      Nat.add_zero, List.drop_zero, Bool.false_eq_true, ↓reduceIte]
    omega

theorem sound_leavePart (marks : List Char) (hp : Modes.Path (mode :: outer)) (hcs : cs ≠ [])
    (hmode : mode = .attributeName ∨ mode = .attributeValue)
    (hmarks : ∀ d ∈ marks, d ∈ ['/', '>', '=']) (h : isBlankOr marks cs.head?) :
    Move.leave.Sound (mode :: outer) cs := by
  refine ⟨.leave hcs hp ?_, fun _ => .leave hp (by rcases hmode with rfl | rfl <;> rfl)⟩
  have hmark : isBlankOr ['/', '>', '=', '{', '}'] cs.head? := by
    obtain ⟨c, hc⟩ := head?_isSome hcs
    simp_all [isBlankOr]
    grind
  have hout := hp.1
  revert hout
  rcases hmode with rfl | rfl <;> cases Modes.top outer <;>
    simp [Mode.nestsIn, Mode.eagerness, Mode.weight, hmark]

theorem sound_inAttributeName (hp : Modes.Path (.attributeName :: outer)) (hcs : cs ≠ [])
    (h : inAttributeName prev cs = .ok move) : move.Sound (.attributeName :: outer) cs := by
  unfold inAttributeName at h
  split at h
  · cases h
    exact sound_leavePart ['=', '/', '>'] hp hcs (.inl rfl) (by simp) ‹_›
  split at h
  · obtain ⟨-, h⟩ := unless_refused h
    cases h
    exact .emitEnter hcs hp rfl rfl rfl (fits_of_inTag rfl hp rfl) (by omega)
  · obtain ⟨hn, h⟩ := unless_refused h
    cases h
    exact ⟨.emit hcs hp (by omega), fun _ => .emit (fits_of_inTag rfl hp rfl)⟩

theorem sound_inDirective {modifiers : Bool} (hp : Modes.Path (mode :: outer))
    (hmode : mode = if modifiers then .directiveModifiers else .directiveName) (hcs : cs ≠ [])
    (h : inDirective modifiers cs = .ok move) : move.Sound (mode :: outer) cs := by
  have htag : mode.inTag := by cases modifiers <;> cases hmode <;> rfl
  subst hmode
  unfold inDirective at h
  split at h
  · cases h
    exact sound_leave hp hcs (by cases modifiers <;> rfl) (by cases modifiers <;> rfl)
  split at h
  · cases modifiers with
    | true =>
      cases h
      exact ⟨.emit hcs hp (by omega), fun _ => .emit (fits_of_inTag rfl hp htag)⟩
    | false =>
      cases h
      exact .emitEnter hcs hp rfl rfl rfl (fits_of_inTag rfl hp htag) (by omega)
  · obtain ⟨hn, h⟩ := unless_refused h
    cases h
    refine ⟨.emit hcs hp ?_, fun _ => .emit (fits_of_inTag (by cases modifiers <;> rfl) hp htag)⟩
    simp only [Bool.or_eq_true, decide_eq_true_eq, not_or] at hn
    omega

theorem sound_inAttributeValue (hp : Modes.Path (.attributeValue :: outer)) (hcs : cs ≠ [])
    (h : inAttributeValue prev cs = .ok move) : move.Sound (.attributeValue :: outer) cs := by
  unfold inAttributeValue at h
  split at h
  · cases h
    exact sound_openBraces hcs hp rfl rfl rfl
  split at h
  · cases h
    exact .emitEnter hcs hp rfl rfl rfl (fits_of_inTag rfl hp rfl) (by omega)
  split at h
  · cases h
    exact .emitEnter hcs hp rfl rfl rfl (fits_of_inTag rfl hp rfl) (by omega)
  split at h
  · cases h
    exact sound_leavePart ['/', '>'] hp hcs (.inr rfl) (by simp) ‹_›
  · obtain ⟨hn, h⟩ := unless_refused h
    cases h
    refine ⟨.emit hcs hp ?_, fun _ => .emit (fits_of_inTag rfl hp rfl)⟩
    simp only [Bool.or_eq_true, decide_eq_true_eq, not_or] at hn
    omega

theorem sound_inQuotedValue {quote : Char} (hp : Modes.Path (.quotedValue quote :: outer))
    (hcs : cs ≠ []) (h : inQuotedValue quote prev cs = .ok move) :
    move.Sound (.quotedValue quote :: outer) cs := by
  obtain ⟨c, hc⟩ := head?_isSome hcs
  unfold inQuotedValue at h
  split at h
  · obtain ⟨-, h⟩ := unless_refused h
    cases h
    exact sound_lastPart hp hcs rfl (fits_of_inTag (by split <;> rfl) hp rfl) (by omega)
      (List.length_pos_iff.mpr hcs)
  split at h
  · cases h
    exact sound_openBraces hcs hp rfl rfl rfl
  · obtain ⟨hclose, h⟩ := unless_refused h
    cases h
    refine ⟨.emit hcs hp (length_takeWhile_pos hc ?_), fun _ => .emit (fits_of_inTag rfl hp rfl)⟩
    simp_all

theorem sound_inClosingTag (hp : Modes.Path (.closingTag :: outer)) (hcs : cs ≠ [])
    (h : inClosingTag cs = .ok move) : move.Sound (.closingTag :: outer) cs := by
  obtain rfl := eq_nil_of_nestsIn_text hp (.inr rfl)
  unfold inClosingTag at h
  split at h
  · cases h
    exact ⟨.emitLeave hcs hp (by omega),
      fun _ => .speaking rfl (fun region => by cases region <;> rfl) Modes.Named.tail⟩
  · obtain ⟨hn, h⟩ := unless_refused h
    cases h
    exact .emitEnter hcs hp rfl rfl rfl (fits_tagName _) (by omega)

theorem sound_inClosingTagEnd (hp : Modes.Path (.closingTagEnd :: outer)) (hcs : cs ≠ [])
    (h : Mode.closingTagEnd.move prev cs = .ok move) : move.Sound (.closingTagEnd :: outer) cs := by
  rcases skippingBlanks_eq_ok h with ⟨hb, rfl⟩ | ⟨-, h⟩
  · exact .pass hcs hp hb
  split at h
  · cases h
    exact sound_leave hp hcs rfl rfl
  · cases h

theorem of_mem_mustacheKeywords {word} (h : (word, kind) ∈ mustacheKeywords) :
    0 < word.length ∧ Region.braces.holds kind ∧ (modeAfter kind).nestsIn (.mustache true) ∧
      (modeAfter kind).isNamed := by
  have hall : ∀ w ∈ mustacheKeywords, 0 < w.1.length ∧ Region.braces.holds w.2 ∧
      (modeAfter w.2).nestsIn (.mustache true) ∧ (modeAfter w.2).isNamed := by decide
  exact hall _ h

theorem sound_inMustache {entered} (hp : Modes.Path (.mustache entered :: outer)) (hcs : cs ≠ [])
    (h : inMustache entered cs = .ok move) :
    move.Sound (.mustache entered :: outer) cs := by
  unfold inMustache at h
  cases entered with
  | true =>
    cases h
    refine ⟨.leave hcs hp ?_, fun _ => .leave hp rfl⟩
    have hout := hp.1
    revert hout
    cases Modes.top outer <;> simp [Mode.nestsIn, Mode.eagerness, Mode.weight]
    split <;> omega
  | false =>
    rcases skippingBlanks_eq_ok h with ⟨hb, rfl⟩ | ⟨-, h⟩
    · exact .pass hcs hp hb
    split at h
    · cases h
      exact ⟨.become hp rfl hp.1 (by simp [Mode.weight, Mode.eagerness]),
        fun _ => .become (isOpen_mustache rfl) rfl rfl⟩
    · rename_i word kind hfind
      cases h
      obtain ⟨hword, hholds, hin, hnamed⟩ := of_mem_mustacheKeywords (List.mem_of_find?_eq_some hfind)
      refine ⟨.advance hcs ⟨hin, hp.1, hp.2⟩ ?_ (.of_some rfl hword (List.length_pos_iff.mpr hcs)) ?_,
        fun _ => .fitting rfl (fits_of_inBraces hholds rfl) (isOpen_mustache hin)
          fun hn => .cons hnamed (.cons rfl hn.tail)⟩
      · simpa [Move.length, Move.become] using hword
      · have h₁ := (modeAfter kind).weight_le
        have h₂ := (Mode.mustache true).weight_le
        simp only [Move.become, List.tail_cons, Modes.weight_cons]
        omega

theorem sound_inExpression (hp : Modes.Path (.expression :: outer)) (hcs : cs ≠ [])
    (h : inExpression prev cs = .ok move) : move.Sound (.expression :: outer) cs := by
  have hlen := List.length_pos_iff.mpr hcs
  unfold inExpression at h
  simp only at h
  split at h
  · cases h
    exact ⟨.passEmitLeave hcs hp (by omega) ‹_›, fun _ => .closeBraces hp rfl⟩
  · cases h
    exact .pass hcs hp (by omega)

theorem sound_inElse (hp : Modes.Path (.elseBranch :: outer)) (hcs : cs ≠ [])
    (h : inElse cs = .ok move) : move.Sound (.elseBranch :: outer) cs := by
  rcases skippingBlanks_eq_ok h with ⟨hb, rfl⟩ | ⟨-, h⟩
  · exact .pass hcs hp hb
  split at h
  · cases h
    exact .emitEnter hcs hp rfl rfl rfl (fits_of_inBraces rfl rfl) (by omega)
  · exact sound_closeMustache hp hcs rfl h

theorem sound_inEach {phase} (hp : Modes.Path (.each phase :: outer)) (hcs : cs ≠ [])
    (h : inEach phase cs = .ok move) : move.Sound (.each phase :: outer) cs := by
  cases phase with
  | start =>
    cases h
    exact ⟨.become hp rfl hp.1 (by simp [Mode.weight, Mode.eagerness]),
      fun _ => .become (fun region => by cases region <;> rfl) rfl rfl⟩
  | middle =>
    cases h
    exact ⟨.become hp rfl hp.1 (by simp [Mode.weight, Mode.eagerness]),
      fun _ => .become (fun region => by cases region <;> rfl) rfl rfl⟩
  | tail =>
    rcases skippingBlanks_eq_ok h with ⟨hb, rfl⟩ | ⟨-, h⟩
    · exact .pass hcs hp hb
    split at h
    · cases h
      exact .emitEnter hcs hp rfl rfl rfl (fits_of_inBraces rfl rfl) (by omega)
    · cases h
      exact .emitEnter hcs hp rfl rfl rfl (fits_of_inBraces rfl rfl) (by omega)
    · cases h
      exact .emitEnter hcs hp rfl rfl rfl (fits_of_inBraces rfl rfl) (by omega)
    · exact sound_closeMustache hp hcs rfl h

theorem sound_inEachExpression (hp : Modes.Path (.eachExpression :: outer)) (hcs : cs ≠ [])
    (h : inEachExpression prev cs = .ok move) : move.Sound (.eachExpression :: outer) cs := by
  obtain ⟨hend, h⟩ := unless_refused h
  cases h
  simp only [Bool.or_eq_true, decide_eq_true_eq, not_or] at hend
  exact sound_lastPart hp hcs rfl (fits_of_inBraces rfl rfl) (by omega) (scriptLength_lt hend.2)

theorem sound_inEachIndex (hp : Modes.Path (.eachIndex :: outer)) (hcs : cs ≠ [])
    (h : inEachIndex cs = .ok move) : move.Sound (.eachIndex :: outer) cs := by
  rcases skippingBlanks_eq_ok h with ⟨hb, rfl⟩ | ⟨-, h⟩
  · exact .pass hcs hp hb
  obtain ⟨hn, h⟩ := unless_refused h
  cases h
  exact sound_lastPart hp hcs rfl (fits_of_inBraces rfl rfl) (by omega) (List.length_pos_iff.mpr hcs)

theorem sound_inAwaitExpression (hp : Modes.Path (.awaitExpression :: outer)) (hcs : cs ≠ [])
    (h : inAwaitExpression prev cs = .ok move) : move.Sound (.awaitExpression :: outer) cs := by
  unfold inAwaitExpression at h
  simp only at h
  split at h
  · cases h
    exact sound_leave hp hcs rfl rfl
  · rename_i hend
    cases h
    simp only [Bool.or_eq_true, decide_eq_true_eq, not_or] at hend
    refine ⟨.advance hcs hp ?_ (.of_some rfl (by omega) (scriptLength_lt hend.2)) ?_, fun _ =>
      .fitting rfl (fits_of_inBraces rfl rfl) (fun region => by cases region <;> rfl)
        fun hn => .cons rfl hn.tail⟩
    · simp only [Move.length, Move.emit, Option.map_some, Option.getD_some]
      omega
    · simp only [List.tail_cons, Modes.weight_cons, Mode.weight]
      omega

theorem sound_inBlockValue {compact : Bool} (hp : Modes.Path (.blockValue kind compact :: outer))
    (hcs : cs ≠ []) (h : inBlockValue kind compact cs = .ok move) :
    move.Sound (.blockValue kind compact :: outer) cs := by
  obtain ⟨c, hc⟩ := head?_isSome hcs
  rcases skippingBlanks_eq_ok h with ⟨hb, rfl⟩ | ⟨hb, h⟩
  · exact .pass hcs hp hb
  have hfits (hn : Modes.Named (.blockValue kind compact :: outer)) :
      Fits kind (.blockValue kind compact :: outer) := fits_of_inBraces (hn _ (List.mem_cons_self ..)) rfl
  split at h
  · cases compact with
    | true =>
      cases h
      exact sound_leave hp hcs rfl rfl
    | false => exact sound_closeMustache hp hcs rfl h
  iterate 2
    · cases h
      refine ⟨.doneIf hcs hp (by simp only [Move.pass, Move.length]; omega) (.of_none rfl cs) rfl,
        fun _ => ?_⟩
      cases compact with
      | true => exact .leave hp rfl
      | false => exact .pass _ _
  · rename_i hclose hopen hbracket
    cases h
    have hblank := not_blank_of_blanks hb hc
    have hn := runLength_pos ['{', '}'] hc (by simp_all [isBlankOr])
    refine ⟨.doneIf hcs hp ?_ (.of_some rfl hn (List.length_pos_iff.mpr hcs)) rfl, fun hnamed => ?_⟩
    · simp only [Move.emit, Move.length, Option.map_some, Option.getD_some]
      omega
    · cases compact with
      | true => exact .emitLeave (hfits hnamed) hp rfl
      | false => exact .emit (hfits hnamed)

theorem sound_inDebug (hp : Modes.Path (.debug :: outer)) (hcs : cs ≠ [])
    (h : inDebug prev cs = .ok move) : move.Sound (.debug :: outer) cs := by
  have hlen := List.length_pos_iff.mpr hcs
  unfold inDebug at h
  simp only at h
  split at h
  · rename_i hend
    cases h
    refine .pass hcs hp ?_
    rw [List.head?_eq_none_iff, List.drop_eq_nil_iff] at hend
    omega
  · rename_i hcomma
    cases h
    refine ⟨.advance hcs hp ?_ (.of_some rfl (by omega) (lt_length_of_head? hcomma))
      (Nat.le_add_right ..), fun _ => .emit (fits_of_inBraces rfl rfl)⟩
    simp only [Move.length, Move.emit, Option.map_some, Option.getD_some]
    omega
  · rename_i hbrace
    cases h
    exact ⟨.passEmitLeave hcs hp (by omega) (lt_length_of_head? hbrace), fun _ => .closeBraces hp rfl⟩

theorem sound_move (hp : modes.Path) (hcs : cs ≠ [])
    (h : (Modes.top modes).move prev cs = .ok move) : move.Sound modes cs := by
  match modes, hp, h with
  | [], _, h => exact sound_inText hcs h
  | .text :: _, hp, _ => cases hp.1
  | .tag _ :: _, hp, h => exact sound_inTag hp hcs h
  | .attributes :: _, hp, h => exact sound_inAttributes hp hcs h
  | .attribute :: _, hp, h => exact sound_inAttribute hp hcs h
  | .attributeName :: _, hp, h => exact sound_inAttributeName hp hcs h
  | .directiveName :: _, hp, h => exact sound_inDirective hp rfl hcs h
  | .directiveModifiers :: _, hp, h => exact sound_inDirective hp rfl hcs h
  | .attributeValue :: _, hp, h => exact sound_inAttributeValue hp hcs h
  | .quotedValue _ :: _, hp, h => exact sound_inQuotedValue hp hcs h
  | .closingTag :: _, hp, h => exact sound_inClosingTag hp hcs h
  | .closingTagEnd :: _, hp, h => exact sound_inClosingTagEnd hp hcs h
  | .mustache _ :: _, hp, h => exact sound_inMustache hp hcs h
  | .expression :: _, hp, h => exact sound_inExpression hp hcs h
  | .elseBranch :: _, hp, h => exact sound_inElse hp hcs h
  | .elseCondition :: _, hp, h | .eachContext :: _, hp, h =>
    cases h
    exact sound_leave hp hcs rfl rfl
  | .each _ :: _, hp, h => exact sound_inEach hp hcs h
  | .eachExpression :: _, hp, h => exact sound_inEachExpression hp hcs h
  | .eachIndex :: _, hp, h => exact sound_inEachIndex hp hcs h
  | .eachGroupedKey :: _, hp, h =>
    obtain ⟨hend, h⟩ := unless_refused h
    cases h
    exact sound_lastPart hp hcs rfl (fits_of_inBraces rfl rfl) (by omega) (scriptLength_lt hend)
  | .eachNamedKey :: _, hp, h =>
    obtain ⟨hn, h⟩ := unless_refused h
    cases h
    exact sound_lastPart hp hcs rfl (fits_of_inBraces rfl rfl) (by omega) (List.length_pos_iff.mpr hcs)
  | .await .start :: _, hp, h =>
    cases h
    exact ⟨.become hp rfl hp.1 (by simp [Mode.weight, Mode.eagerness]),
      fun _ => .become (fun region => by cases region <;> rfl) rfl rfl⟩
  | .await .middle :: _, hp, h | .await .tail :: _, hp, h | .blockEnd :: _, hp, h =>
    rcases skippingBlanks_eq_ok h with ⟨hb, rfl⟩ | ⟨-, h⟩
    · exact .pass hcs hp hb
    · exact sound_closeMustache hp hcs rfl h
  | .awaitExpression :: _, hp, h => exact sound_inAwaitExpression hp hcs h
  | .blockValue _ _ :: _, hp, h => exact sound_inBlockValue hp hcs h
  | .debug :: _, hp, h => exact sound_inDebug hp hcs h

end

/-- From here to the end of the text, move after move, the lexer makes the lexemes. -/
inductive Lexes : Reading → List Lexeme → Prop
  | atEnd {r : Reading} (h : r.cursor.rest = []) : Lexes r []
  | move {r r' : Reading} {l : Option Lexeme} {ls : List Lexeme} (hrest : r.cursor.rest ≠ [])
      (hstep : r.step = .ok (l, r')) (h : Lexes r' ls) : Lexes r (l.toList ++ ls)

theorem Reading.rest_cursorAfter (move : Move) (c : Cursor) :
    (Reading.cursorAfter move c).rest = c.rest.drop move.length := by
  simp [Reading.cursorAfter, Cursor.skip, Move.length, List.drop_drop, Nat.add_assoc]

/-- As many moves as are due are enough. -/
theorem lexes_of_run {fuel} (hp : r.modes.Path) (hfuel : movesDue r.modes r.cursor.rest ≤ fuel)
    (h : Reading.run fuel r = .ok ls) :
    Lexes r ls := by
  induction fuel generalizing r ls with
  | zero =>
    cases h
    refine .atEnd (List.length_eq_zero_iff.mp ?_)
    simp only [movesDue, movesPerChar] at hfuel
    omega
  | succ fuel ih =>
    cases hend : r.cursor.atEnd with
    | true =>
      simp only [Reading.run, hend] at h
      cases h
      exact .atEnd (List.isEmpty_iff.mp hend)
    | false =>
      have hrest : r.cursor.rest ≠ [] := fun hnil => by simp [Cursor.atEnd, hnil] at hend
      obtain ⟨first, r', ls', hstep, hrun, rfl⟩ := Reading.run_eq_ok_cons hend h
      obtain ⟨move, hmove, rfl, rfl⟩ := Reading.step_eq_ok.mp hstep
      have hpays := (sound_move hp hrest hmove).1
      refine .move hrest hstep (ih hpays.path ?_ hrun)
      rw [Reading.rest_cursorAfter]
      exact Nat.le_of_lt_succ (Nat.lt_of_lt_of_le hpays.due hfuel)

theorem lexes_of_scan (h : scan source = .ok ls) :
    Lexes { cursor := .ofText source } ls := by
  refine lexes_of_run trivial ?_ h
  simp only [movesDue, Modes.top, Modes.weight, Mode.eagerness, Cursor.ofText, List.head?_nil,
    Option.getD_none, movesPerChar]
  omega

theorem Lexes.regions (h : Lexes r ls) (hp : r.modes.Path) (hn : r.modes.Named) (region : Region) :
    ∃ isOpen, region.afterAll (region.isOpen r.modes) (ls.map (·.kind)) = some isOpen := by
  induction h with
  | atEnd => exact ⟨_, rfl⟩
  | move hrest hstep _ ih =>
    -- The path and the names are carried along with the regions; the move needs both.
    obtain ⟨move, hmove, rfl, rfl⟩ := Reading.step_eq_ok.mp hstep
    obtain ⟨hpays, hkeeps⟩ := sound_move hp hrest hmove
    replace hkeeps := hkeeps hn
    obtain ⟨isOpen, hls⟩ := ih hpays.path (hkeeps.named hn)
    have hlexeme (c : Cursor) :
        (Reading.lexemeOf move c).toList.map (·.kind) = (move.lexeme.map (·.1)).toList := by
      cases hl : move.lexeme <;> simp [Reading.lexemeOf, hl]
    refine ⟨isOpen, ?_⟩
    rw [List.map_append, hlexeme, Region.afterAll_append, hkeeps.regions region]
    exact hls

theorem exists_afterAll_of_lex {index lexemes} (h : lex index source = .ok lexemes)
    (region : Region) :
    ∃ isOpen, region.afterAll false (lexemes.map (·.kind)) = some isOpen := by
  have hnone : region.isOpen [] = false := by cases region <;> rfl
  rw [← hnone]
  exact (lexes_of_scan (scan_of_lex h)).regions trivial (by simp [Modes.Named]) region

end SvelteSyntax.Markup
