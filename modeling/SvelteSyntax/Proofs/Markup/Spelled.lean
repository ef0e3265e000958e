import Mathlib.Data.List.DropRight
import SvelteSyntax.Markup.Read
import SvelteSyntax.Proofs.Text.Scan
import SvelteSyntax.Proofs.Tree.Spans

namespace SvelteSyntax.Markup

open Text

inductive Piece where
  | word (text : List Char)
  | blank
  | node (n : Node)
  | part (n : Node)

/-- The node that is a piece. -/
def Piece.nodes : Piece → List Node
  | .node n | .part n => [n]
  | _ => []

/-- The nodes one after the other, without anything between them. -/
def joined (ns : List Node) : List Piece := ns.map .node

@[simp] theorem flatMap_nodes_joined (ns : List Node) : (joined ns).flatMap Piece.nodes = ns := by
  induction ns with
  | nil => rfl
  | cons n ns ih => exact congrArg (n :: ·) ih

theorem joined_append (ns ms : List Node) : joined (ns ++ ms) = joined ns ++ joined ms :=
  List.map_append

/-- The text between two places is made of the pieces, one after the other. -/
inductive Spelled : Cursor → List Piece → Cursor → Prop
  | nil (c : Cursor) : Spelled c [] c
  | word {c c' : Cursor} {text : List Char} {pieces : List Piece} (h : startsWith text c.rest)
      (hmore : Spelled (c.skip text.length) pieces c') : Spelled c (.word text :: pieces) c'
  | blank {c c' : Cursor} {gap tail : List Char} {pieces : List Piece} (h : c.rest = gap ++ tail)
      (hgap : ∀ d ∈ gap, isMarkupBlank d) (hmore : Spelled (c.skip gap.length) pieces c') :
      Spelled c (.blank :: pieces) c'
  | node {c c' : Cursor} {n : Node} {pieces : List Piece} {k : Nat} (hstart : n.start = c.offset)
      (hstop : n.stop = (c.skip k).offset) (hlt : n.start < n.stop)
      (hmore : Spelled (c.skip k) pieces c') : Spelled c (.node n :: pieces) c'
  | part {c c' : Cursor} {n : Node} {pieces : List Piece} {k : Nat} (hstart : n.start = c.offset)
      (hstop : n.stop = (c.skip k).offset) (hmore : Spelled (c.skip k) pieces c') :
      Spelled c (.part n :: pieces) c'

@[simp] theorem within_eq (scan : List Char → List Char) (text : List Char) :
    within scan text = pure (scan text) := rfl

def trimmed (start : Nat) (text : List Char) : Nat × List Char :=
  (start + byteLength (text.takeWhile isMarkupBlank), trim isMarkupBlank text)

@[simp] theorem trimIn_eq (start : Nat) (text : List Char) :
    trimIn start text = pure (trimmed start text) := by
  have htrim : trim isMarkupBlank (text.dropWhile isMarkupBlank) = trim isMarkupBlank text := by
    rw [trim, List.dropWhile_idempotent, trim]
  rw [trimmed, ← htrim, ← drop_length_takeWhile]
  rfl

/-- The letters at the start of a text. -/
def word (text : List Char) : String := String.ofList (text.takeWhile isAsciiLetter)

@[simp] theorem wordIn_eq (text : List Char) : wordIn text = pure (word text) := rfl

theorem exists_trim_append (text : List Char) :
    ∃ after, text = text.takeWhile isMarkupBlank ++ (trim isMarkupBlank text ++ after) ∧
      ∀ d ∈ after, isMarkupBlank d := by
  refine ⟨((text.dropWhile isMarkupBlank).reverse.takeWhile isMarkupBlank).reverse, ?_, fun d hd => ?_⟩
  · rw [trim, ← List.reverse_append, List.takeWhile_append_dropWhile, List.reverse_reverse,
      List.takeWhile_append_dropWhile]
  · exact List.mem_takeWhile_imp (List.mem_reverse.mp hd)

namespace Spelled

variable {c c' c'' : Cursor} {ps qs : List Piece} {piece : Piece} {ns : List Node}
  {text tail : List Char}

theorem append (h : Spelled c ps c') (h' : Spelled c' qs c'') : Spelled c (ps ++ qs) c'' := by
  induction h with
  | nil => exact h'
  | word h _ ih => exact .word h (ih h')
  | blank h hgap _ ih => exact .blank h hgap (ih h')
  | node hstart hstop hlt _ ih => exact .node hstart hstop hlt (ih h')
  | part hstart hstop _ ih => exact .part hstart hstop (ih h')

/-- What the first piece says about the place after it. -/
theorem uncons (h : Spelled c (piece :: ps) c') :
    ∃ k, Spelled c [piece] (c.skip k) ∧ Spelled (c.skip k) ps c' ∧
      (∀ n ∈ piece.nodes, n.start = c.offset ∧ n.stop = (c.skip k).offset) ∧
      ∀ n, piece = .node n → n.start < n.stop := by
  cases h with
  | word h hmore => exact ⟨_, .word h (.nil _), hmore, by simp [Piece.nodes], nofun⟩
  | blank h hgap hmore => exact ⟨_, .blank h hgap (.nil _), hmore, by simp [Piece.nodes], nofun⟩
  | node hstart hstop hlt hmore =>
    refine ⟨_, .node hstart hstop hlt (.nil _), hmore, by simp [Piece.nodes, hstart, hstop], ?_⟩
    rintro _ ⟨⟩
    exact hlt
  | part hstart hstop hmore =>
    exact ⟨_, .part hstart hstop (.nil _), hmore, by simp [Piece.nodes, hstart, hstop], nofun⟩

theorem split (h : Spelled c (ps ++ qs) c') :
    ∃ d, Spelled c ps d ∧ Spelled d qs c' := by
  induction ps generalizing c with
  | nil => exact ⟨c, .nil c, h⟩
  | cons _ ps ih =>
    obtain ⟨k, hfirst, h, -⟩ := h.uncons
    obtain ⟨d, hps, hqs⟩ := ih h
    exact ⟨d, hfirst.append hps, hqs⟩

theorem eq_of_nil (h : Spelled c [] c') : c' = c := by
  cases h
  rfl

theorem exists_skip (h : Spelled c ps c') : ∃ k, c' = c.skip k := by
  induction h with
  | nil c => exact ⟨0, c.skip_zero.symm⟩
  | word _ _ ih | blank _ _ _ ih | node _ _ _ _ ih | part _ _ _ ih =>
    obtain ⟨k, rfl⟩ := ih
    exact ⟨_, Cursor.skip_skip ..⟩

theorem ofText (h : c.rest = text ++ tail) : Spelled c [.word text] (c.skip text.length) :=
  .word (startsWith_iff.mpr ⟨tail, h⟩) (.nil _)

theorem char {d} (h : c.rest.head? = some d) : Spelled c [.word [d]] (c.skip 1) := by
  obtain ⟨tail, h⟩ := List.head?_eq_some_iff.mp h
  exact .ofText h

theorem ofGap (h : c.rest = text ++ tail) (hgap : ∀ d ∈ text, isMarkupBlank d) :
    Spelled c [.blank] (c.skip text.length) :=
  .blank h hgap (.nil _)

theorem cursor_in {source} (h : Spelled c ps c') (hin : c.In source) : c'.In source := by
  obtain ⟨k, rfl⟩ := h.exists_skip
  exact hin.skip k

theorem offset_le (h : Spelled c ps c') : c.offset ≤ c'.offset := by
  obtain ⟨k, rfl⟩ := h.exists_skip
  exact c.offset_le_skip k

theorem lt_of_word {d} (h : Spelled c (.word (d :: text) :: ps) c') : c.offset < c'.offset := by
  cases h with
  | word hstarts hmore =>
    refine Nat.lt_of_lt_of_le (c.offset_lt_skip (by simp) ?_) hmore.offset_le
    rintro hnil
    simp [hnil, startsWith] at hstarts

theorem mem (h : Spelled c ps c') {n} (hn : n ∈ ps.flatMap Piece.nodes) :
    c.offset ≤ n.start ∧ n.start ≤ n.stop ∧ n.stop ≤ c'.offset := by
  induction ps generalizing c with
  | nil => simp at hn
  | cons piece ps ih =>
    obtain ⟨k, -, hmore, hspan, -⟩ := h.uncons
    have hle := c.offset_le_skip k
    have hend := hmore.offset_le
    rw [List.flatMap_cons, List.mem_append] at hn
    rcases hn with hn | hn
    · have hn := hspan n hn
      omega
    · have hn := ih hmore hn
      omega

theorem inOrder (h : Spelled c ps c') (hsub : (joined ns).Sublist ps) :
    InOrder c.offset c'.offset ns := by
  induction ps generalizing c ns with
  | nil =>
    obtain rfl : ns = [] := by simpa [joined] using hsub
    exact h.offset_le
  | cons piece ps ih =>
    obtain ⟨k, -, hmore, hspan, hlt⟩ := h.uncons
    rcases List.sublist_cons_iff.mp hsub with hsub | ⟨r, hr, hsub⟩
    · exact (ih hmore hsub).mono (c.offset_le_skip k) (Nat.le_refl _)
    · obtain ⟨n, ns, rfl, rfl, rfl⟩ := List.map_eq_cons_iff.mp hr
      obtain ⟨hstart, hstop⟩ := hspan n (List.mem_singleton_self n)
      exact ⟨Nat.le_of_eq hstart.symm, hlt n rfl, hstop ▸ ih hmore hsub⟩

theorem tiles (h : Spelled c (joined ns) c') : Tiles c.offset c'.offset ns := by
  induction ns generalizing c with
  | nil =>
    cases h
    rfl
  | cons n ns ih =>
    cases h with
    | node hstart hstop hlt hmore => exact ⟨hstart, hlt, hstop ▸ ih hmore⟩

theorem of_word (h : Spelled c [.word text] c') :
    ∃ tail, c.rest = text ++ tail ∧ c' = c.skip text.length := by
  cases h with
  | word h hmore =>
    obtain ⟨tail, h⟩ := startsWith_iff.mp h
    exact ⟨tail, h, hmore.eq_of_nil⟩

theorem lt_of_ne_nil (h : Spelled c (.word text :: ps) c') (hne : text ≠ []) : c.offset < c'.offset := by
  obtain ⟨d, text, rfl⟩ := List.exists_cons_of_ne_nil hne
  exact h.lt_of_word

/-- Two words in a row are one word. -/
theorem word_word {text'} (h : Spelled c [.word text] c') (h' : Spelled c' [.word text'] c'') :
    Spelled c [.word (text ++ text')] c'' := by
  obtain ⟨tail, hrest, rfl⟩ := h.of_word
  obtain ⟨tail', hrest', rfl⟩ := h'.of_word
  rw [Cursor.rest_skip_length hrest] at hrest'
  rw [Cursor.skip_skip, ← List.length_append]
  subst hrest'
  exact .ofText (by rw [hrest, List.append_assoc])

theorem blank_blank (h : Spelled c (.blank :: .blank :: ps) c') : Spelled c (.blank :: ps) c' := by
  cases h with
  | blank h hgap hmore =>
    cases hmore with
    | blank h' hgap' hmore =>
      rw [Cursor.rest_skip_length h] at h'
      rw [Cursor.skip_skip, ← List.length_append] at hmore
      refine .blank (by rw [h, h', List.append_assoc]) (fun d hd => ?_) hmore
      exact (List.mem_append.mp hd).elim (hgap d) (hgap' d)

theorem loosen (ps : List Piece) (h : Spelled c (ps ++ [.blank]) c') (h' : Spelled c' (.blank :: qs) c'') :
    Spelled c (ps ++ .blank :: qs) c'' := by
  obtain ⟨d, hps, hblank⟩ := h.split
  exact hps.append (hblank.append h').blank_blank

/-- Around a text without its blanks there are only blanks. -/
theorem exists_trimmed (h : c.rest = text ++ tail) :
    ∃ d after, Spelled c [.blank] d ∧ d.offset = (trimmed c.offset text).1 ∧
      d.rest = (trimmed c.offset text).2 ++ (after ++ tail) ∧
      Spelled (d.skip (trimmed c.offset text).2.length) [.blank] (c.skip text.length) := by
  obtain ⟨after, hafter, hblank⟩ := exists_trim_append text
  have hrest : c.rest = text.takeWhile isMarkupBlank ++ (trim isMarkupBlank text ++ (after ++ tail)) := by
    rw [h]
    simpa using congrArg (· ++ tail) hafter
  have hrest' := Cursor.rest_skip_length hrest
  have hlength := congrArg List.length hafter
  simp only [List.length_append] at hlength
  refine ⟨_, after, .ofGap hrest fun d hd => List.mem_takeWhile_imp hd,
    Cursor.offset_skip_length hrest, hrest', ?_⟩
  have hspelled := ofGap (Cursor.rest_skip_length hrest') hblank
  simp only [Cursor.skip_skip, trimmed] at hspelled ⊢
  rwa [Nat.add_assoc, ← hlength] at hspelled

end Spelled

/-- A script with blanks around it. -/
def loose (e : Node) : List Piece := [.blank, .node e, .blank]

/-- The start of a tag in braces: the brace, blanks, a mark and a keyword. -/
def opener (mark : Char) (keyword : String) : List Piece :=
  [.word ['{'], .blank, .word (mark :: keyword.toList)]

/-- The tag that ends a block. -/
def closer (keyword : String) : List Piece := opener '/' keyword ++ [.blank, .word ['}']]

def tagHead (name : List Char) (attributes : List Node) : List Piece :=
  [.word ('<' :: name)] ++ attributes.flatMap (fun a => [.blank, .node a]) ++ [.blank]

def tagClose (name : List Char) : List Piece := [.word ('<' :: '/' :: name), .blank, .word ['>']]

/-- What a branch binds, with blanks around it. -/
def boundPieces : Value → List Piece
  | .string name => [.blank, .word name.toList, .blank]
  | .node e => loose e
  | _ => [.blank]

def indexPieces : List (String × Value) → List Piece
  | [(_, .string name)] => [.word [','], .blank, .word name.toList, .blank]
  | _ => []

def keyPieces : List (String × Value) → List Piece
  | [(_, .node e)] => [.word ['(']] ++ loose e ++ [.word [')'], .blank]
  | [(_, .string name)] => [.word ['@'], .word name.toList, .blank]
  | _ => []

/-- Names with commas between them. -/
def listed : List Node → List Piece
  | [] => []
  | [e] => loose e
  | e :: es => loose e ++ .word [','] :: listed es

/-- The quotes that may stand around a value. -/
def quotes : List (List Piece) := [[], [.word ['"']], [.word ['\'']]]

end SvelteSyntax.Markup
