import SvelteSyntax.Markup.Parser
import SvelteSyntax.Proofs.Markup.Balanced
import SvelteSyntax.Proofs.Markup.Spelled
import SvelteSyntax.Proofs.Run

namespace SvelteSyntax.Markup

open Text Script Run

variable {α β : Type} {i : Input} {p p' q r : Progress} {u : Unit} {text tail : List Char}
  {start offset : Nat} {n e : Node} {span : Span} {c : Cursor} {f : Char → Bool} {b : Bool}
  {quote : Char} {ps qs : List Piece} {assignable : Bool}

/-- From one state the rule leads to another and gives the value. -/
def Gives (rule : Read α) (i : Input) (p : Progress) (a : α) (p' : Progress) : Prop :=
  rule i p = .ok (a, p')

/-- The sections that were put aside. -/
def Progress.aside (p : Progress) : Option Node × Option Node × Option Node :=
  (p.css, p.instanceScript, p.moduleScript)

/-- The same state at another place. -/
def Progress.goTo (p : Progress) (c : Cursor) : Progress := { p with cursor := c }

@[simp] theorem Progress.cursor_goTo (p : Progress) (c : Cursor) : (p.goTo c).cursor = c := rfl

@[simp] theorem Progress.goTo_goTo (p : Progress) (c d : Cursor) :
    (p.goTo c).goTo d = p.goTo d := rfl

@[simp] theorem gives_pure {a b : α} : Gives (pure b) i p a p' ↔ a = b ∧ p' = p := by
  change Except.ok (b, p) = Except.ok (a, p') ↔ _
  simp [eq_comm]

@[simp] theorem gives_bind {rule : Read α} {f : α → Read β} {b : β} :
    Gives (rule >>= f) i p b p' ↔ ∃ a q, Gives rule i p a q ∧ Gives (f a) i q b p' :=
  run_bind_eq_ok (x := rule i) (f := fun a => f a i)

@[simp] theorem gives_map {rule : Read α} {f : α → β} {b : β} :
    Gives (f <$> rule) i p b p' ↔ ∃ a, Gives rule i p a p' ∧ b = f a := by
  rw [map_eq_pure_bind, gives_bind]
  constructor
  · rintro ⟨a, q, hrule, h⟩
    obtain ⟨rfl, rfl⟩ := gives_pure.mp h
    exact ⟨a, hrule, rfl⟩
  · rintro ⟨a, hrule, rfl⟩
    exact ⟨a, p', hrule, gives_pure.mpr ⟨rfl, rfl⟩⟩

@[simp] theorem gives_refuse {code message} {a : α} :
    Gives (refuse code message offset) i p a p' ↔ False := by
  change (Except.error _ : Except CompileError (α × Progress)) = _ ↔ _
  simp

@[simp] theorem gives_ite {c : Prop} [Decidable c] {x y : Read α} {a : α} :
    Gives (if c then x else y) i p a p' ↔ (c ∧ Gives x i p a p') ∨ (¬c ∧ Gives y i p a p') := by
  split <;> simp_all

@[simp] theorem gives_read {j} : Gives read i p j p' ↔ j = i ∧ p' = p := by
  change (Except.ok (i, p) : Except CompileError (Input × Progress)) = _ ↔ _
  simp [eq_comm]

@[simp] theorem gives_get : Gives get i p q p' ↔ q = p ∧ p' = p := by
  change (Except.ok (p, p) : Except CompileError (Progress × Progress)) = _ ↔ _
  simp [eq_comm]

@[simp] theorem gives_modify {f : Progress → Progress} :
    Gives (modify f) i p u p' ↔ p' = f p := by
  change (Except.ok ((), f p) : Except CompileError (Unit × Progress)) = _ ↔ _
  simp [eq_comm]

@[simp] theorem gives_cursor : Gives cursor i p c p' ↔ c = p.cursor ∧ p' = p := by
  simp [cursor, and_comm]

@[simp] theorem gives_here {n : Nat} : Gives here i p n p' ↔ n = p.cursor.offset ∧ p' = p := by
  simp [here, and_comm]

@[simp] theorem gives_peek? {c : Option Char} :
    Gives peek? i p c p' ↔ c = p.cursor.rest.head? ∧ p' = p := by
  simp [peek?, Cursor.peek?, and_comm]

@[simp] theorem gives_ahead {scan : List Char → List Char} {taken} :
    Gives (ahead scan) i p taken p' ↔ taken = scan p.cursor.rest ∧ p' = p := by
  change (Except.ok (scan p.cursor.rest, p) : Except CompileError (List Char × Progress)) = _ ↔ _
  simp [eq_comm]

@[simp] theorem gives_move {bytes chars : Nat} :
    Gives (move bytes chars) i p u p' ↔ p' = p.goTo (p.cursor.skip chars) := by
  change (Except.ok ((), p.goTo (p.cursor.skip chars)) : Except CompileError (Unit × Progress)) = _ ↔ _
  simp [eq_comm]

@[simp] theorem gives_skip {n : Nat} :
    Gives (skip n) i p u p' ↔ p' = p.goTo (p.cursor.skip n) := gives_move

@[simp] theorem gives_pass {text : List Char} {n : Nat} :
    Gives (pass text n) i p u p' ↔ p' = p.goTo (p.cursor.skip (text.length + n)) := gives_move

@[simp] theorem gives_readWhile {taken} :
    Gives (readWhile f) i p taken p' ↔
      taken = p.cursor.rest.takeWhile f ∧ p' = p.goTo (p.cursor.skip taken.length) := by
  simp [readWhile]
  grind

@[simp] theorem gives_skipBlanks :
    Gives skipBlanks i p u p' ↔ p' = p.goTo (p.cursor.skip (blanks p.cursor.rest)) := by
  simp [skipBlanks, blanks]

@[simp] theorem gives_atText {text : String} :
    Gives (atText text) i p b p' ↔ b = startsWith text.toList p.cursor.rest ∧ p' = p := by
  simp [atText, and_comm]

theorem gives_eat {text : String} :
    Gives (eat text) i p b p' ↔
      (b = true ∧ startsWith text.toList p.cursor.rest ∧
          p' = p.goTo (p.cursor.skip text.length)) ∨
        (b = false ∧ startsWith text.toList p.cursor.rest = false ∧ p' = p) := by
  simp [eat]
  grind

@[simp] theorem gives_expect {text : String} :
    Gives (expect text) i p u p' ↔
      startsWith text.toList p.cursor.rest ∧ p' = p.goTo (p.cursor.skip text.length) := by
  simp [expect, gives_eat]

theorem gives_readUpTo? {close} {r : Option (List Char)} :
    Gives (readUpTo? close) i p r p' ↔
      (∃ before rest, r = some before ∧
          splitAt? close.toList p.cursor.rest = some (before, rest) ∧
          p' = p.goTo (p.cursor.skip before.length)) ∨
        (r = none ∧ splitAt? close.toList p.cursor.rest = none ∧ p' = p) := by
  simp [readUpTo?]
  split <;> simp_all
  grind

@[simp] theorem gives_scriptUpTo {stop} :
    Gives (scriptUpTo stop) i p text p' ↔
      text = Balanced.takeUntil stop p.cursor.prev p.cursor.rest ∧ p' = p := by
  simp [scriptUpTo, and_comm]

@[simp] theorem gives_finish {kind fields} :
    Gives (finish kind start fields) i p n p' ↔
      n = { kind, start, stop := p.cursor.offset, fields } ∧ p' = p := by
  simp [finish, and_comm]

/-- One round of a rule after the other. -/
inductive Rounds (round : Progress → α → Progress → Prop) : Progress → List α → Progress → Prop
  | nil (p : Progress) : Rounds round p [] p
  | cons {p q p' : Progress} {a : α} {as : List α} (h : round p a q)
      (hmore : Rounds round q as p') : Rounds round p (a :: as) p'

theorem Rounds.aside {round} {as : List α} (h : Rounds round p as p')
    (hround : ∀ q a q', round q a q' → q'.aside = q.aside) : p'.aside = p.aside := by
  induction h with
  | nil => rfl
  | cons h _ ih => exact ih.trans (hround _ _ _ h)

theorem not_gives_exhausted : ¬Gives exhausted i p a p' := nofun

theorem rounds_of_many {item : Read (Option α)} {as : List α}
    (round : Progress → α → Progress → Prop) (last : Progress → Progress → Prop)
    (hitem : ∀ q o q', Gives item i q o q' → o.elim (last q q') (round q · q'))
    (h : Gives (many item) i p as p') : ∃ q, Rounds round p as q ∧ last q p' := by
  have hcollect (fuel : Nat) {q : Progress} {as : List α} (h : Gives (collect item fuel) i q as p') :
      ∃ r, Rounds round q as r ∧ last r p' := by
    induction fuel generalizing q as with
    | zero => exact absurd h not_gives_exhausted
    | succ fuel ih =>
      rw [collect, gives_bind] at h
      obtain ⟨a, q', hfirst, h⟩ := h
      cases a with
      | none =>
        obtain ⟨rfl, rfl⟩ := gives_pure.mp h
        exact ⟨q, .nil q, hitem _ _ _ hfirst⟩
      | some a =>
        simp only [gives_bind, gives_pure] at h
        obtain ⟨as, q'', hmore, rfl, rfl⟩ := h
        obtain ⟨r, hrounds, hlast⟩ := ih hmore
        exact ⟨r, .cons (hitem _ _ _ hfirst) hrounds, hlast⟩
  simp only [many, gives_bind, gives_cursor] at h
  obtain ⟨c, q, ⟨rfl, rfl⟩, h⟩ := h
  exact hcollect _ h

/-- From one state to the other the pieces are read. Otherwise the noted sites may differ at most. -/
structure Spells (p : Progress) (pieces : List Piece) (p' : Progress) : Prop where
  spelled : Spelled p.cursor pieces p'.cursor
  aside : p'.aside = p.aside

/-- The state differs in the noted sites at most. -/
abbrev Still (p p' : Progress) : Prop := Spells p [] p'

namespace Spells

theorem refl (p : Progress) : Still p p := ⟨.nil _, rfl⟩

theorem append (h : Spells p ps q) (h' : Spells q qs r) : Spells p (ps ++ qs) r :=
  ⟨h.spelled.append h'.spelled, h'.aside.trans h.aside⟩

theorem still (h : Still p p') : p'.cursor = p.cursor := h.spelled.eq_of_nil

theorem goTo (h : Spelled p.cursor ps c) : Spells p ps (p.goTo c) := ⟨h, rfl⟩

theorem word_word {text'} (h : Spells p [.word text] q) (h' : Spells q [.word text'] r) :
    Spells p [.word (text ++ text')] r :=
  ⟨h.spelled.word_word h'.spelled, h'.aside.trans h.aside⟩

theorem loosen (ps : List Piece) (h : Spells p (ps ++ [.blank]) q) (h' : Spells q (.blank :: qs) r) :
    Spells p (ps ++ .blank :: qs) r :=
  ⟨h.spelled.loosen ps h'.spelled, h'.aside.trans h.aside⟩

end Spells

theorem spells_expect {word} (h : Gives (expect word) i p u p') : Spells p [.word word.toList] p' := by
  obtain ⟨hstarts, rfl⟩ := gives_expect.mp h
  rw [← String.length_toList]
  exact .goTo (.word hstarts (.nil _))

theorem spells_readWhile (h : Gives (readWhile f) i p text p') : Spells p [.word text] p' := by
  obtain ⟨rfl, rfl⟩ := gives_readWhile.mp h
  exact .goTo (.ofText (List.takeWhile_append_dropWhile ..).symm)

theorem spells_skipBlanks (h : Gives skipBlanks i p u p') : Spells p [.blank] p' := by
  obtain rfl := gives_skipBlanks.mp h
  exact .goTo (.ofGap (List.takeWhile_append_dropWhile ..).symm fun d hd => List.mem_takeWhile_imp hd)

theorem spells_eat {word} (h : Gives (eat word) i p b p') :
    (b = true ∧ Spells p [.word word.toList] p') ∨ (b = false ∧ p' = p) := by
  obtain ⟨rfl, hstarts, rfl⟩ | ⟨rfl, -, rfl⟩ := gives_eat.mp h
  · exact .inl ⟨rfl, spells_expect (i := i) (u := ()) (gives_expect.mpr ⟨hstarts, rfl⟩)⟩
  · exact .inr ⟨rfl, rfl⟩

theorem still_modify {f : Progress → Progress} (h : Gives (modify f) i p u p')
    (hcursor : (f p).cursor = p.cursor := by rfl) (haside : (f p).aside = p.aside := by rfl) :
    Still p p' := by
  obtain rfl := gives_modify.mp h
  exact ⟨hcursor ▸ .nil _, haside⟩

theorem gives_parseSpan (h : Gives (parseSpan span assignable) i p n p') :
    p' = p ∧ span.start ≠ span.stop ∧
      ∃ parsed, i.parser.expressionAt i.source span.start span.stop assignable = .ok parsed ∧
        n = parsed.expression := by
  simp [parseSpan] at h
  obtain ⟨hspan, h⟩ := h
  split at h
  · rename_i parsed hparsed
    obtain ⟨rfl, rfl⟩ := gives_pure.mp h
    exact ⟨rfl, hspan, parsed, hparsed, rfl⟩
  · simp at h

/-- The node is for the script that its span was parsed to. -/
structure StandsFor (i : Input) (assignable : Bool) (e : Node) : Prop where
  parsed : ∃ parsed, i.parser.expressionAt i.source e.start e.stop assignable = .ok parsed ∧
    e = .pending parsed.expression.kind e.start e.stop
  lt : e.start < e.stop

def scriptSpan (offset : Nat) (text : List Char) : Span :=
  spanOf (trimmed offset text).1 (trimmed offset text).2

/-- A script was parsed from the text at the offset. -/
structure ScriptAt (i : Input) (assignable : Bool) (offset : Nat) (text : List Char) (p : Progress)
    (e : Node) (p' : Progress) : Prop where
  still : Still p p'
  standsFor : StandsFor i assignable e
  span : Span.mk e.start e.stop = scriptSpan offset text

theorem script_of_parseSpan (h : Gives (parseSpan (scriptSpan offset text) assignable) i p n q)
    (hstill : Still q p') :
    ScriptAt i assignable offset text p
      (.pending n.kind (scriptSpan offset text).start (scriptSpan offset text).stop) p' := by
  obtain ⟨rfl, hne, parsed, hparsed, rfl⟩ := gives_parseSpan h
  exact ⟨hstill, ⟨⟨parsed, hparsed, rfl⟩, Nat.lt_of_le_of_ne (Nat.le_add_right ..) hne⟩, rfl⟩

theorem gives_expression (h : Gives (expression start text) i p e p') :
    ScriptAt i false start text p e p' := by
  simp only [expression, trimIn_eq, pure_bind, gives_bind, gives_pure] at h
  obtain ⟨parsed, q, hparse, u, q', hnote, rfl, rfl⟩ := h
  exact script_of_parseSpan hparse (still_modify hnote)

theorem still_forIn {items : List α} {f : α → β → Read (ForInStep β)} {b b' : β}
    (hf : ∀ a b r q q', Gives (f a b) i q r q' → Still q q')
    (h : Gives (forIn items b f) i p b' p') : Still p p' := by
  induction items generalizing p b with
  | nil =>
    rw [List.forIn_nil] at h
    obtain ⟨-, rfl⟩ := gives_pure.mp h
    exact .refl _
  | cons a items ih =>
    rw [List.forIn_cons, gives_bind] at h
    obtain ⟨step, q, hstep, h⟩ := h
    have hstill := hf a b step p q hstep
    cases step with
    | done b =>
      obtain ⟨-, rfl⟩ := gives_pure.mp h
      exact hstill
    | «yield» b => exact hstill.append (ih h)

theorem gives_patternAt (h : Gives (patternAt span) i p e p') :
    ∃ n q, Gives (parseSpan span true) i p n q ∧ Still q p' ∧ e = .pending n.kind span.start span.stop := by
  simp only [patternAt, gives_bind, gives_pure] at h
  obtain ⟨parsed, q, hparse, u, q', hloop, rfl, rfl⟩ := h
  refine ⟨parsed, q, hparse, still_forIn (fun a b r q q' hround => ?_) hloop, rfl⟩
  split at hround
  · simp only [gives_bind, gives_pure] at hround
    obtain ⟨u, q₁, hdeclare, rfl, rfl⟩ := hround
    exact still_modify hdeclare
  · obtain ⟨-, rfl⟩ := gives_pure.mp hround
    exact .refl _

theorem gives_pattern (h : Gives (pattern start text) i p e p') : ScriptAt i true start text p e p' := by
  rw [pattern, trimIn_eq, pure_bind] at h
  obtain ⟨n, q, hparse, hstill, rfl⟩ := gives_patternAt h
  exact script_of_parseSpan hparse hstill

theorem spelled_script (hrest : c.rest = text ++ tail)
    (hspan : Span.mk e.start e.stop = scriptSpan c.offset text) (hlt : e.start < e.stop) :
    Spelled c (loose e) (c.skip text.length) := by
  obtain ⟨d, after, hbefore, hoffset, hrest, hafter⟩ := Spelled.exists_trimmed hrest
  simp only [scriptSpan, spanOf, ← hoffset, Span.mk.injEq] at hspan
  refine hbefore.append (.append (.node hspan.1 ?_ hlt (.nil _)) hafter)
  rw [hspan.2, Cursor.offset_skip_length hrest]

namespace ScriptAt

theorem spells (h : ScriptAt i assignable p.cursor.offset text p e p')
    (hrest : p.cursor.rest = text ++ tail) :
    Spells p (loose e) (p'.goTo (p'.cursor.skip text.length)) := by
  refine ⟨?_, h.still.aside⟩
  rw [h.still.still]
  exact spelled_script hrest h.span h.standsFor.lt

/-- After a script stands the mark that it ends at. -/
theorem spells_mark (h : ScriptAt i assignable p.cursor.offset text p e p') {mark : List Char}
    (hrest : p.cursor.rest = text ++ (mark ++ tail)) :
    Spells p (loose e ++ [.word mark]) (p'.goTo (p'.cursor.skip (text.length + mark.length))) := by
  rw [← Cursor.skip_skip]
  have hmark : (p'.cursor.skip text.length).rest = mark ++ tail := by
    rw [h.still.still, Cursor.rest_skip_length hrest]
  exact (h.spells hrest).append (.goTo (.ofText hmark))

end ScriptAt

theorem rest_of_takeUntil {stop prev cs} (h : text = Balanced.takeUntil stop prev cs) :
    ∃ tail, cs = text ++ tail :=
  ⟨_, h ▸ (Balanced.takeUntil_append_drop stop prev cs).symm⟩

theorem split_of_takeUntil {marks cs prev}
    (htext : text = Balanced.takeUntil (Balanced.atAny marks) prev cs)
    (hlength : text.length ≠ cs.length) : ∃ d ∈ marks, ∃ tail, cs = text ++ d :: tail := by
  have hsplit := Balanced.takeUntil_append_drop (Balanced.atAny marks) prev cs
  have hhead := Balanced.head?_drop_takeUntil_atAny marks prev cs
  rw [← htext] at hsplit hhead
  cases htail : cs.drop text.length with
  | nil =>
    rw [htail, List.append_nil] at hsplit
    exact absurd (congrArg List.length hsplit) hlength
  | cons d tail =>
    rw [htail] at hsplit hhead
    exact ⟨d, by simpa using hhead, tail, hsplit.symm⟩

theorem split_of_mark {mark cs prev} (htext : text = Balanced.takeUntil (Balanced.atAny [mark]) prev cs)
    (hlength : text.length ≠ cs.length) : ∃ tail, cs = text ++ ([mark] ++ tail) := by
  obtain ⟨d, hd, tail, hcs⟩ := split_of_takeUntil htext hlength
  obtain rfl := List.mem_singleton.mp hd
  exact ⟨tail, hcs⟩

theorem gives_expressionToBrace (h : Gives expressionToBrace i p e p') :
    Spells p (loose e ++ [.word ['}']]) p' ∧ StandsFor i false e := by
  simp [expressionToBrace] at h
  obtain ⟨hne, q, he, rfl⟩ := h
  obtain ⟨tail, hrest⟩ := split_of_mark rfl hne
  have hscript := gives_expression he
  exact ⟨hscript.spells_mark hrest, hscript.standsFor⟩

/-- A node that is for nothing but its expression. -/
def expressionNode (kind : String) (start stop : Nat) (e : Node) : Node :=
  { kind, start, stop, fields := [("expression", .node e)] }

/-- A part of a value, in braces or not. -/
inductive ChunkForm (i : Input) (p : Progress) (n : Node) (p' : Progress) : Prop
  | braces {e : Node} (h : Spells p ([.word ['{']] ++ loose e ++ [.word ['}']]) p')
      (he : StandsFor i false e)
      (hn : n = expressionNode "MustacheTag" p.cursor.offset p'.cursor.offset e)
  | text {data : List Char} (h : Spells p [.word data] p') (hne : data ≠ [])
      (hn : n = textNode p.cursor.offset data)

theorem ChunkForm.aside (h : ChunkForm i p n p') : p'.aside = p.aside := by
  cases h with
  | braces h | text h => exact h.aside

theorem gives_valueMustache (hhead : p.cursor.rest.head? = some '{') (h : Gives valueMustache i p n p') :
    ChunkForm i p n p' := by
  simp [valueMustache] at h
  obtain ⟨e, he, rfl⟩ := h
  obtain ⟨hspells, he⟩ := gives_expressionToBrace he
  exact .braces ((Spells.goTo (.char hhead)).append hspells) he rfl

theorem gives_textWhile (hhead : p.cursor.rest.head?.any f) (h : Gives (textWhile f) i p n p') :
    ∃ data, Spells p [.word data] p' ∧ data ≠ [] ∧ n = textNode p.cursor.offset data := by
  simp only [textWhile, gives_bind, gives_here, gives_pure] at h
  obtain ⟨_, p, ⟨rfl, rfl⟩, data, _, hdata, rfl, rfl⟩ := h
  refine ⟨data, spells_readWhile hdata, ?_, rfl⟩
  obtain ⟨rfl, -⟩ := gives_readWhile.mp hdata
  cases hrest : p.cursor.rest with
  | nil => simp [hrest] at hhead
  | cons d cs => simp_all

inductive ValueForm (i : Input) (p : Progress) (chunks : List Node) (p' : Progress) : Prop
  | intro {marks : List Piece} {q r : Progress} (hmarks : marks ∈ quotes) (hopen : Spells p marks q)
      (hchunks : Rounds (ChunkForm i) q chunks r) (hclose : Spells r marks p')

theorem gives_chunks {chunks} (h : Gives (many (valueChunk start quote)) i p chunks p') :
    Rounds (ChunkForm i) p chunks p' ∧ p'.cursor.rest.head? = some quote := by
  have hrounds := rounds_of_many (ChunkForm i)
    (fun q q' => q' = q ∧ q.cursor.rest.head? = some quote) (fun q o q' hitem => ?_) h
  · obtain ⟨r, hrounds, rfl, hlast⟩ := hrounds
    exact ⟨hrounds, hlast⟩
  simp only [valueChunk, gives_bind, gives_peek?] at hitem
  obtain ⟨_, q, ⟨rfl, rfl⟩, hitem⟩ := hitem
  split at hitem
  · simp at hitem
  · rename_i hhead
    simp only [gives_bind, gives_pure] at hitem
    obtain ⟨n, _, hitem, rfl, rfl⟩ := hitem
    exact gives_valueMustache hhead hitem
  · rename_i d hbrace hhead
    simp only [gives_ite, gives_bind, gives_pure] at hitem
    obtain ⟨rfl, rfl, rfl⟩ | ⟨hd, n, _, htext, rfl, rfl⟩ := hitem
    · exact ⟨rfl, hhead⟩
    · have hfirst : q.cursor.rest.head?.any fun c => c != quote && c != '{' := by
        simpa [hhead] using ⟨hd, hbrace⟩
      obtain ⟨data, hspells, hne, hn⟩ := gives_textWhile hfirst htext
      exact .text hspells hne hn

theorem gives_quotedValue {chunks} (hquote : [.word [quote]] ∈ quotes)
    (hhead : p.cursor.rest.head? = some quote)
    (h : Gives (quotedValue start quote) i (p.goTo (p.cursor.skip 1)) chunks p') :
    ValueForm i p chunks p' := by
  simp only [quotedValue, gives_bind, gives_skip, gives_pure] at h
  obtain ⟨_, q, hmany, u, q', rfl, rfl, rfl⟩ := h
  obtain ⟨hrounds, hlast⟩ := gives_chunks hmany
  exact ⟨hquote, .goTo (.char hhead), hrounds, .goTo (.char hlast)⟩

theorem gives_attributeValue {chunks} (h : Gives attributeValue i p chunks p') :
    ValueForm i p chunks p' := by
  simp only [attributeValue, gives_bind, gives_here, gives_peek?] at h
  obtain ⟨_, _, ⟨rfl, rfl⟩, _, p, ⟨rfl, rfl⟩, h⟩ := h
  split at h
  · rename_i hhead
    simp only [gives_bind, gives_skip] at h
    obtain ⟨u, q, rfl, h⟩ := h
    exact gives_quotedValue (by simp [quotes]) hhead h
  · rename_i hhead
    simp only [gives_bind, gives_skip] at h
    obtain ⟨u, q, rfl, h⟩ := h
    exact gives_quotedValue (by simp [quotes]) hhead h
  · rename_i hhead
    simp only [gives_bind, gives_pure] at h
    obtain ⟨n, q, h, rfl, rfl⟩ := h
    exact ⟨by simp [quotes], .refl p, .cons (gives_valueMustache hhead h) (.nil _), .refl _⟩
  · simp only [gives_bind, gives_ite, gives_refuse, gives_pure] at h
    obtain ⟨data, q, hdata, ⟨-, _, _, ⟨⟩, -⟩ | ⟨hne, rfl, rfl⟩⟩ := h
    have hchunk := ChunkForm.text (i := i) (spells_readWhile hdata) (by simpa using hne) rfl
    exact ⟨by simp [quotes], .refl p, .cons hchunk (.nil _), .refl _⟩

theorem ValueForm.aside {chunks} (h : ValueForm i p chunks p') : p'.aside = p.aside := by
  obtain ⟨-, hopen, hchunks, hclose⟩ := h
  exact hclose.aside.trans ((hchunks.aside fun _ _ _ h => h.aside).trans hopen.aside)

def plainAttribute (name : List Char) (start stop : Nat) (value : Option (List Node)) : Node :=
  { kind := "Attribute", start, stop,
    fields := [("name", .string (String.ofList name)),
      ("value", (value.map Value.nodes).getD (.bool true))] }

/-- The two attributes that are written in braces. -/
inductive BraceForm (i : Input) (p : Progress) (n : Node) (p' : Progress) : Prop
  | spread {e : Node} (he : StandsFor i false e)
      (h : Spells p ([.word ['{'], .blank, .word "...".toList] ++ loose e ++ [.word ['}']]) p')
      (hn : n = expressionNode "Spread" p.cursor.offset p'.cursor.offset e)
  | shorthand (name : List Char) {e : Node} {c c' : Cursor} (he : StandsFor i false e)
      (hopen : Spelled p.cursor [.word ['{'], .blank] c) (hname : Spelled c [.node e] c')
      (hclose : Spelled c' [.blank, .word ['}']] p'.cursor) (haside : p'.aside = p.aside)
      (hn : n = plainAttribute name p.cursor.offset p'.cursor.offset
        (some [expressionNode "AttributeShorthand" c.offset c'.offset e]))

theorem not_blank_of_isName (h : isName text) :
    ∀ d ∈ text, isMarkupBlank d = false := by
  have hother {d : Char} (hd : isWordChar d || d == '$') : isMarkupBlank d = false := by
    rw [Bool.eq_false_iff]
    intro hblank
    simp only [isMarkupBlank, Bool.or_eq_true, beq_iff_eq] at hblank
    obtain (((rfl | rfl) | rfl) | rfl) | rfl := hblank <;> exact absurd hd (by decide)
  cases text with
  | nil => simp
  | cons c cs =>
    simp only [isName, Bool.and_eq_true, List.all_eq_true] at h
    intro d hd
    rcases List.mem_cons.mp hd with rfl | hd
    · rw [Bool.eq_false_iff]
      intro hblank
      simp only [isMarkupBlank, Bool.or_eq_true, beq_iff_eq] at hblank
      obtain (((rfl | rfl) | rfl) | rfl) | rfl := hblank <;> exact absurd h.1 (by decide)
    · exact hother (h.2 d hd)

theorem scriptSpan_of_isName (h : isName text) :
    scriptSpan start text = ⟨start, start + byteLength text⟩ := by
  have hnot := not_blank_of_isName h
  have hself {cs : List Char} (hcs : ∀ d ∈ cs, isMarkupBlank d = false) :
      cs.dropWhile isMarkupBlank = cs ∧ cs.takeWhile isMarkupBlank = [] := by
    cases cs with
    | nil => simp
    | cons d cs => simp [hcs d (by simp)]
  have htrim : trim isMarkupBlank text = text := by
    rw [trim, (hself hnot).1, (hself (by simpa using hnot)).1, List.reverse_reverse]
  simp [scriptSpan, spanOf, trimmed, htrim, (hself hnot).2]

theorem gives_braceAttribute (hhead : p.cursor.rest.head? = some '{')
    (h : Gives braceAttribute i p n p') : BraceForm i p n p' := by
  simp only [braceAttribute, trimIn_eq, pure_bind, gives_bind, gives_here, gives_skip, gives_pass,
    gives_scriptUpTo, gives_cursor, gives_ite, gives_refuse, gives_finish] at h
  obtain ⟨_, p, ⟨rfl, rfl⟩, _, _, rfl, _, _, ⟨rfl, rfl⟩, text, _, ⟨htext, rfl⟩, _, _, ⟨rfl, rfl⟩, h⟩ := h
  obtain ⟨-, _, _, ⟨⟩, -⟩ | ⟨hlength, _, _, rfl, h⟩ := h
  obtain ⟨tail, hrest⟩ := split_of_mark htext hlength
  obtain ⟨c, after, hbefore, hoffset, hrest', hafter⟩ := Spelled.exists_trimmed hrest
  replace hoffset : c.offset = (trimmed (p.cursor.skip 1).offset text).1 := hoffset
  have hopen : Spelled p.cursor [.word ['{'], .blank] c := (Spelled.char hhead).append hbefore
  have hclose : Spelled (c.skip (trimmed (p.cursor.skip 1).offset text).2.length) [.blank, .word ['}']]
      ((p.cursor.skip 1).skip (text.length + 1)) := by
    rw [← Cursor.skip_skip]
    exact hafter.append (.ofText (Cursor.rest_skip_length hrest))
  simp only [Progress.cursor_goTo, ← hoffset] at h hrest'
  generalize (trimmed (p.cursor.skip 1).offset text).2 = inner at *
  obtain ⟨hdots, e, q, he, rfl, rfl⟩ | ⟨-, ⟨hname, e, q, he, rfl, rfl⟩ | ⟨-, _, _, ⟨⟩, -⟩⟩ := h
  · have hscript := gives_expression he
    obtain ⟨script, rfl⟩ := startsWith_iff.mp hdots
    rw [List.append_assoc] at hrest'
    have hdots := Spelled.ofText hrest'
    have hoffset' : (c.skip "...".toList.length).offset = c.offset + 3 :=
      Cursor.offset_skip_length hrest'
    have hspan := hscript.span
    rw [← hoffset'] at hspan
    have hspelled := spelled_script (Cursor.rest_skip_length hrest') hspan hscript.standsFor.lt
    rw [List.length_append, ← Cursor.skip_skip] at hclose
    refine .spread hscript.standsFor ⟨?_, hscript.still.aside⟩ rfl
    rw [hscript.still.still]
    exact (hopen.append hdots).append (hspelled.loosen [.blank, .node e] hclose)
  · have hscript := gives_expression he
    have hspan := hscript.span
    rw [scriptSpan_of_isName hname, Span.mk.injEq] at hspan
    have hend := Cursor.offset_skip_length hrest'
    refine .shorthand inner hscript.standsFor hopen
      (.node hspan.1 (hspan.2.trans hend.symm) hscript.standsFor.lt (.nil _)) ?_ hscript.still.aside
      (hend ▸ rfl)
    rw [hscript.still.still]
    exact hclose

theorem BraceForm.aside (h : BraceForm i p n p') : p'.aside = p.aside := by
  cases h with
  | spread _ h => exact h.aside
  | shorthand _ _ _ _ _ haside => exact haside

theorem split_at_blankOr (marks cs : List Char) :
    ∃ tail, cs = cs.takeWhile (fun c => !(isMarkupBlank c || marks.contains c)) ++ tail ∧
      (∀ d ∈ cs.takeWhile (fun c => !(isMarkupBlank c || marks.contains c)),
        isBlankOr marks (some d) = false) ∧
      tail.head?.all fun d => isBlankOr marks (some d) := by
  refine ⟨_, (List.takeWhile_append_dropWhile ..).symm, fun d hd => ?_, ?_⟩
  · have hnot := List.mem_takeWhile_imp hd
    rwa [Bool.not_eq_true'] at hnot
  · have := head?_dropWhile (fun c => !(isMarkupBlank c || marks.contains c)) cs
    simp only [Bool.not_not] at this
    exact this

end SvelteSyntax.Markup
