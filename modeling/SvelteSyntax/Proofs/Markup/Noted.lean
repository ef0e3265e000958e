import SvelteSyntax.Proofs.Markup.Rules
import SvelteSyntax.Proofs.Markup.Slices

namespace SvelteSyntax

def unevaluatedFields : List (String × String) :=
  [("EachBlock", "context"), ("AwaitBlock", "value"), ("AwaitBlock", "error"), ("Let", "expression"),
   ("Script", "content")]

mutual

/-- Where the placeholders of a tree start that stand for expressions. -/
def Node.slots : Node → List Nat
  | { kind, start, fields, placeholder, .. } =>
    if placeholder then [start] else Node.slotsOfFields kind fields

def Node.slotsOfFields (kind : String) : List (String × Value) → List Nat
  | [] => []
  | (key, v) :: fs =>
    (if (kind, key) ∈ unevaluatedFields then [] else v.slots) ++ Node.slotsOfFields kind fs

def Value.slots : Value → List Nat
  | .node n => n.slots
  | .nodes ns => Node.slotsOfList ns
  | .sparse ns => Node.slotsOfSparse ns
  | .object es => Node.slotsOfFields "" es
  | .null | .bool _ | .number _ | .string _ | .strings _ => []

def Node.slotsOfList : List Node → List Nat
  | [] => []
  | n :: ns => n.slots ++ Node.slotsOfList ns

def Node.slotsOfSparse : List (Option Node) → List Nat
  | [] => []
  | none :: ns => Node.slotsOfSparse ns
  | some n :: ns => n.slots ++ Node.slotsOfSparse ns

end

theorem Node.slotsOfList_eq (ns : List Node) : Node.slotsOfList ns = ns.flatMap Node.slots := by
  induction ns with
  | nil => rfl
  | cons n ns ih => rw [Node.slotsOfList, ih, List.flatMap_cons]

@[simp] theorem Node.slotsOfFields_append (kind : String) (fs gs : List (String × Value)) :
    Node.slotsOfFields kind (fs ++ gs) = Node.slotsOfFields kind fs ++ Node.slotsOfFields kind gs := by
  induction fs with
  | nil => rfl
  | cons f fs ih => rw [List.cons_append, Node.slotsOfFields, ih, Node.slotsOfFields, List.append_assoc]

theorem Node.slots_with_stop (n : Node) (stop : Nat) : ({ n with stop } : Node).slots = n.slots := by
  cases n
  simp only [Node.slots]

attribute [simp] Node.slots Node.slotsOfFields Value.slots Node.slotsOfList_eq unevaluatedFields

namespace Markup

open Text Script

/-- A source, two parsers of scripts that take its parts alike, and the offsets at which the source may
be refused. -/
structure Terms where
  source : List Char
  parser : ScriptParser
  other : ScriptParser
  alike {start stop : Nat} (hstart : Border source start) (hstop : Border source stop)
    (hlt : start < stop) (assignable : Bool) :
    other.expressionAt source start stop assignable = parser.expressionAt source start stop assignable
  Refusal : Nat → Prop
  border {offset : Nat} (h : Border source offset) : Refusal offset
  refuses {start stop : Nat} (hstart : Border source start) (hstop : Border source stop)
    (hlt : start < stop) {assignable : Bool} {e : ScriptError}
    (h : parser.expressionAt source start stop assignable = .error e) : Refusal e.offset

variable {α β : Type} {r : Terms} {p q q' : Progress} {x : Read α} {f : α → Read β}
  {Q : α → Progress → Prop} {R : β → Progress → Prop}

/-- The rule succeeds with the condition, or it refuses at such an offset. It does the same with either
parser. -/
def Leads (r : Terms) (x : Read α) (p : Progress) (Q : α → Progress → Prop) : Prop :=
  x ⟨r.source, r.other⟩ p = x ⟨r.source, r.parser⟩ p ∧
    match x ⟨r.source, r.parser⟩ p with
    | .ok (a, q) => Q a q
    | .error e => r.Refusal e.offset

theorem Leads.bind (hx : Leads r x p Q) (hf : ∀ a q, Q a q → Leads r (f a) q R) :
    Leads r (x >>= f) p R := by
  have hbind (parser : ScriptParser) : (x >>= f) ⟨r.source, parser⟩ p =
      (x ⟨r.source, parser⟩ p >>= fun s => f s.1 ⟨r.source, parser⟩ s.2) := rfl
  obtain ⟨halike, hx⟩ := hx
  unfold Leads
  rw [hbind, hbind, halike]
  cases hrun : x ⟨r.source, r.parser⟩ p with
  | error e =>
    rw [hrun] at hx
    exact ⟨rfl, hx⟩
  | ok s =>
    rw [hrun] at hx
    exact hf s.1 s.2 hx

theorem Leads.weaken (hx : Leads r x p Q) {Q' : α → Progress → Prop}
    (h : ∀ a q, Q a q → Q' a q) : Leads r x p Q' := by
  refine ⟨hx.1, ?_⟩
  have hrun := hx.2
  split at hrun
  · exact h _ _ hrun
  · exact hrun

@[simp] theorem leads_pure {a : α} : Leads r (pure a) p Q ↔ Q a p :=
  ⟨And.right, fun h => ⟨rfl, h⟩⟩

@[simp] theorem leads_map {h : α → β} (hx : Leads r x p fun a q => R (h a) q) :
    Leads r (h <$> x) p R := by
  rw [map_eq_pure_bind]
  exact hx.bind fun _ _ => leads_pure.mpr

@[simp] theorem leads_ite {c : Prop} [Decidable c] {x' : Read α} :
    Leads r (if c then x else x') p Q ↔ (c → Leads r x p Q) ∧ (¬c → Leads r x' p Q) := by
  split <;> simp_all

variable {code message : String} {offset n : Nat}

theorem leads_refuse (h : r.Refusal offset) : Leads r (refuse code message offset) p Q :=
  ⟨rfl, h⟩

theorem leads_refuse_bind (h : r.Refusal offset) :
    Leads r (refuse code message offset >>= f) p R :=
  ⟨rfl, h⟩

section Steps

variable {β : Type} {R : β → Progress → Prop}

theorem leads_read {f : Input → Read β} (halike : f ⟨r.source, r.other⟩ = f ⟨r.source, r.parser⟩)
    (h : Leads r (f ⟨r.source, r.parser⟩) p R) : Leads r (read >>= f) p R :=
  ⟨(congrFun₂ halike _ p).trans h.1, h.2⟩

@[simp] theorem leads_cursor {f : Cursor → Read β} :
    Leads r (cursor >>= f) p R ↔ Leads r (f p.cursor) p R := Iff.rfl

@[simp] theorem leads_here {f : Nat → Read β} :
    Leads r (here >>= f) p R ↔ Leads r (f p.cursor.offset) p R := Iff.rfl

@[simp] theorem leads_peek? {f : Option Char → Read β} :
    Leads r (peek? >>= f) p R ↔ Leads r (f p.cursor.rest.head?) p R := Iff.rfl

@[simp] theorem leads_get {f : Progress → Read β} :
    Leads r (get >>= f) p R ↔ Leads r (f p) p R := Iff.rfl

@[simp] theorem leads_move {bytes chars : Nat} {f : Unit → Read β} :
    Leads r (move bytes chars >>= f) p R ↔ Leads r (f ()) (p.goTo (p.cursor.skip chars)) R := Iff.rfl

@[simp] theorem leads_skip {f : Unit → Read β} :
    Leads r (skip n >>= f) p R ↔ Leads r (f ()) (p.goTo (p.cursor.skip n)) R := Iff.rfl

@[simp] theorem leads_pass {text : List Char} {f : Unit → Read β} :
    Leads r (pass text n >>= f) p R ↔
      Leads r (f ()) (p.goTo (p.cursor.skip (text.length + n))) R := Iff.rfl

@[simp] theorem leads_skipBlanks {f : Unit → Read β} :
    Leads r (skipBlanks >>= f) p R ↔
      Leads r (f ()) (p.goTo (p.cursor.skip (blanks p.cursor.rest))) R := Iff.rfl

@[simp] theorem leads_readWhile {c : Char → Bool} {f : List Char → Read β} :
    Leads r (readWhile c >>= f) p R ↔
      Leads r (f (p.cursor.rest.takeWhile c))
        (p.goTo (p.cursor.skip (p.cursor.rest.takeWhile c).length)) R := Iff.rfl

@[simp] theorem leads_atText {text : String} {f : Bool → Read β} :
    Leads r (atText text >>= f) p R ↔
      Leads r (f (startsWith text.toList p.cursor.rest)) p R := Iff.rfl

@[simp] theorem leads_wordIn {text : List Char} {f : String → Read β} :
    Leads r (wordIn text >>= f) p R ↔ Leads r (f (word text)) p R := Iff.rfl

@[simp] theorem leads_scriptUpTo {stop} {f : List Char → Read β} :
    Leads r (scriptUpTo stop >>= f) p R ↔
      Leads r (f (Balanced.takeUntil stop p.cursor.prev p.cursor.rest)) p R := Iff.rfl

@[simp] theorem leads_modify {h} {f : Unit → Read β} :
    Leads r (modify h >>= f) p R ↔ Leads r (f ()) (h p) R := Iff.rfl

end Steps

@[simp] theorem leads_finish {kind start fields} {Q : Node → Progress → Prop} :
    Leads r (finish kind start fields) p Q ↔
      Q { kind, start, stop := p.cursor.offset, fields } p :=
  ⟨And.right, fun h => ⟨rfl, h⟩⟩

def Progress.starts (p : Progress) : List Nat := p.sites.expressions.map Span.start

/-- A state in the source, after all that it has noted. -/
structure Standing (r : Terms) (p : Progress) : Prop where
  inside : p.cursor.In r.source
  before : ∀ s ∈ p.starts, s < p.cursor.offset

/-- The way from one state to another, on which expressions with these starts are noted in order. -/
structure Passes (r : Terms) (p : Progress) (slots : List Nat) (q : Progress) : Prop where
  begins : Standing r p
  moved : ∃ n, q.cursor = p.cursor.skip n
  aside : q.aside = p.aside
  noted : ∃ new, q.starts = p.starts ++ new ∧ new.Perm slots ∧ new.Pairwise (· < ·) ∧
    ∀ s ∈ new, p.cursor.offset ≤ s ∧ s < q.cursor.offset

variable {s t : List Nat}

theorem Standing.border (h : Standing r p) : r.Refusal p.cursor.offset := r.border (Cursor.In.border h.inside)

namespace Passes

theorem refl (h : Standing r p) : Passes r p [] p :=
  ⟨h, ⟨0, p.cursor.skip_zero.symm⟩, rfl, [], (List.append_nil _).symm, .nil, .nil, nofun⟩

theorem offset_le (h : Passes r p s q) : p.cursor.offset ≤ q.cursor.offset := by
  obtain ⟨n, hn⟩ := h.moved
  rw [hn]
  exact Cursor.offset_le_skip ..

theorem length_le (h : Passes r p s q) : q.cursor.rest.length ≤ p.cursor.rest.length := by
  obtain ⟨n, hn⟩ := h.moved
  simp [hn, Cursor.rest_skip]

theorem ends (h : Passes r p s q) : Standing r q := by
  obtain ⟨new, hnew, -, -, hbounds⟩ := h.noted
  refine ⟨?_, fun x hx => ?_⟩
  · obtain ⟨n, hn⟩ := h.moved
    exact hn ▸ h.begins.inside.skip n
  · rw [hnew] at hx
    rcases List.mem_append.mp hx with hx | hx
    · exact Nat.lt_of_lt_of_le (h.begins.before x hx) h.offset_le
    · exact (hbounds x hx).2

theorem trans (h : Passes r p s q) (h' : Passes r q t q') : Passes r p (s ++ t) q' := by
  obtain ⟨m, hm⟩ := h.moved
  obtain ⟨n, hn⟩ := h'.moved
  obtain ⟨new, hnew, hperm, hsorted, hbounds⟩ := h.noted
  obtain ⟨new', hnew', hperm', hsorted', hbounds'⟩ := h'.noted
  refine ⟨h.begins, ⟨m + n, by rw [hn, hm, Cursor.skip_skip]⟩, h'.aside.trans h.aside, new ++ new',
    by rw [hnew', hnew, List.append_assoc], hperm.append hperm', ?_, fun x hx => ?_⟩
  · refine List.pairwise_append.mpr ⟨hsorted, hsorted', fun a ha b hb => ?_⟩
    exact Nat.lt_of_lt_of_le (hbounds a ha).2 (hbounds' b hb).1
  · rcases List.mem_append.mp hx with hx | hx
    · exact ⟨(hbounds x hx).1, Nat.lt_of_lt_of_le (hbounds x hx).2 h'.offset_le⟩
    · exact ⟨Nat.le_trans h.offset_le (hbounds' x hx).1, (hbounds' x hx).2⟩

theorem perm (h : Passes r p s q) (hst : s.Perm t) : Passes r p t q := by
  obtain ⟨new, hnew, hperm, hrest⟩ := h.noted
  exact ⟨h.begins, h.moved, h.aside, new, hnew, hperm.trans hst, hrest⟩

/-- Moving on, and noting whatever is no expression. -/
theorem still (h : Passes r p s q) (hmoved : ∃ n, q'.cursor = q.cursor.skip n)
    (haside : q'.aside = q.aside) (hstarts : q'.starts = q.starts) : Passes r p s q' := by
  have h' : Passes r q [] q' := ⟨h.ends, hmoved, haside, [], by simpa using hstarts, .nil, .nil, nofun⟩
  simpa using h.trans h'

theorem skip (h : Passes r p s q) (n : Nat) : Passes r p s (q.goTo (q.cursor.skip n)) :=
  h.still ⟨n, rfl⟩ rfl rfl

end Passes

variable {text : String}

theorem leads_eat (h : Passes r p s q) :
    Leads r (eat text) q fun _ => Passes r p s := by
  simp only [eat, leads_atText, leads_ite, leads_move, leads_pure]
  exact ⟨fun _ => h.skip _, fun _ => h⟩

theorem leads_expect (h : Passes r p s q) :
    Leads r (expect text) q fun _ => Passes r p s := by
  unfold expect
  refine (leads_eat h).bind fun b q h => ?_
  simp only [leads_ite, leads_pure, leads_cursor]
  exact ⟨fun _ => h, fun _ => ⟨fun _ => leads_refuse h.ends.border, fun _ => leads_refuse h.ends.border⟩⟩

theorem leads_readUpTo? (h : Passes r p s q) :
    Leads r (readUpTo? text) q fun _ => Passes r p s := by
  unfold readUpTo?
  rw [leads_cursor]
  split
  · exact leads_pure.mpr h
  · exact leads_skip.mpr (leads_pure.mpr (h.skip _))

theorem leads_collect {item : Read (Option Node)} {P : Node → Prop}
    (hitem : ∀ q, Standing r q → Leads r item q fun o q' => Passes r q (o.toList.flatMap Node.slots) q' ∧
      ∀ n ∈ o, P n ∧ q'.cursor.rest.length < q.cursor.rest.length)
    {fuel : Nat} (h : Standing r p) (hlt : p.cursor.rest.length < fuel) :
    Leads r (collect item fuel) p fun ns q => Passes r p (ns.flatMap Node.slots) q ∧ ∀ n ∈ ns, P n := by
  induction fuel generalizing p with
  | zero => exact absurd hlt (Nat.not_lt_zero _)
  | succ fuel ih =>
    refine (hitem p h).bind ?_
    rintro o q ⟨hpass, ho⟩
    cases o with
    | none => exact leads_pure.mpr ⟨hpass, nofun⟩
    | some n =>
      obtain ⟨hn, hshorter⟩ := ho n rfl
      refine (ih hpass.ends (by omega)).bind ?_
      rintro ns q' ⟨hmore, hns⟩
      exact leads_pure.mpr ⟨by simpa using hpass.trans hmore, List.forall_mem_cons.mpr ⟨hn, hns⟩⟩

theorem leads_many {item : Read (Option Node)} {P : Node → Prop}
    (hitem : ∀ q, Standing r q → Leads r item q fun o q' => Passes r q (o.toList.flatMap Node.slots) q' ∧
      ∀ n ∈ o, P n ∧ q'.cursor.rest.length < q.cursor.rest.length) (h : Standing r p) :
    Leads r (many item) p fun ns q =>
      Passes r p (ns.flatMap Node.slots) q ∧ ∀ n ∈ ns, P n :=
  leads_cursor.mpr (leads_collect hitem h (Nat.lt_succ_self _))

structure Slot (r : Terms) (e : Node) : Prop where
  placeholder : e.placeholder = true
  start : Border r.source e.start
  stop : Border r.source e.stop
  lt : e.start < e.stop

theorem Slot.slots {e : Node} (h : Slot r e) : e.slots = [e.start] := by
  obtain ⟨kind, start, stop, loc, fields, placeholder, visited⟩ := e
  exact if_pos h.placeholder

variable {e : Node} {c : Cursor} {cs tail : List Char}

theorem border_append_rest (hc : c.In r.source) (hrest : c.rest = cs ++ tail) :
    Border r.source (c.offset + byteLength cs) := by
  rw [← Cursor.offset_skip_length hrest]
  exact Cursor.In.border (hc.skip _)

theorem leads_parseSpan {span} (hstart : Border r.source span.start)
    (hstop : Border r.source span.stop) (hle : span.start ≤ span.stop) (assignable : Bool) :
    Leads r (parseSpan span assignable) p fun _ q =>
      q = p ∧ span.start < span.stop := by
  unfold parseSpan
  rw [leads_ite]
  refine ⟨fun _ => leads_refuse_bind (r.border hstart), fun hne => ?_⟩
  have hlt : span.start < span.stop := Nat.lt_of_le_of_ne hle hne
  refine leads_read (by simp only [r.alike hstart hstop hlt]) ?_
  split
  · exact leads_pure.mpr ⟨rfl, hlt⟩
  · next e he => exact leads_refuse (r.refuses hstart hstop hlt he)

structure Notes (p : Progress) (start : Nat) (q : Progress) : Prop where
  cursor : q.cursor = p.cursor
  aside : q.aside = p.aside
  starts : q.starts = p.starts ++ [start]

theorem Passes.note (h : Passes r p s q) (hmoved : ∃ n, q'.cursor = q.cursor.skip n)
    (haside : q'.aside = q.aside) (hstarts : q'.starts = q.starts ++ [n])
    (hle : q.cursor.offset ≤ n) (hlt : n < q'.cursor.offset) : Passes r p (s ++ [n]) q' :=
  h.trans ⟨h.ends, hmoved, haside, [n], hstarts, .refl _, by simp, by simpa using ⟨hle, hlt⟩⟩

theorem Passes.noteSkip (h : Passes r p s q) (hrest : q.cursor.rest = cs ++ tail) (hnotes : Notes q n q')
    (hle : q.cursor.offset ≤ n) (hlt : n < q.cursor.offset + byteLength cs) (k : Nat) :
    Passes r p (s ++ [n]) (q'.goTo (q'.cursor.skip (cs.length + k))) := by
  refine h.note ⟨cs.length + k, by rw [← hnotes.cursor]; rfl⟩ hnotes.aside hnotes.starts hle ?_
  rw [Progress.cursor_goTo, hnotes.cursor, ← Cursor.skip_skip]
  rw [← Cursor.offset_skip_length hrest] at hlt
  exact Nat.lt_of_lt_of_le hlt (Cursor.offset_le_skip ..)

theorem scriptSpan_in (hc : c.In r.source) (hrest : c.rest = cs ++ tail) :
    Border r.source (scriptSpan c.offset cs).start ∧ Border r.source (scriptSpan c.offset cs).stop ∧
      c.offset ≤ (scriptSpan c.offset cs).start ∧
      (scriptSpan c.offset cs).start ≤ (scriptSpan c.offset cs).stop ∧
      (scriptSpan c.offset cs).stop ≤ c.offset + byteLength cs := by
  obtain ⟨after, hcs, -⟩ := exists_trim_append cs
  simp only [scriptSpan, spanOf, trimmed]
  generalize cs.takeWhile isMarkupBlank = gap at hcs ⊢
  generalize trim isMarkupBlank cs = inner at hcs ⊢
  have hgap : c.rest = gap ++ (inner ++ (after ++ tail)) := by
    rw [hrest, hcs]
    simp
  have hinner : c.rest = (gap ++ inner) ++ (after ++ tail) := by rw [hgap, List.append_assoc]
  have hlength := congrArg byteLength hcs
  simp only [byteLength_append] at hlength
  refine ⟨border_append_rest hc hgap, ?_, by omega, by omega, by omega⟩
  rw [Nat.add_assoc, ← byteLength_append]
  exact border_append_rest hc hinner

theorem leads_expression (before : List Char) {start} (hc : c.In r.source)
    (hrest : c.rest = before ++ (cs ++ tail)) (heq : start = c.offset + byteLength before) :
    Leads r (expression start cs) p fun e q =>
      Slot r e ∧ start ≤ e.start ∧ e.start < start + byteLength cs ∧ Notes p e.start q := by
  rw [← Cursor.offset_skip_length hrest] at heq
  subst heq
  obtain ⟨hstart, hstop, hle, hspan, hend⟩ :=
    scriptSpan_in (hc.skip before.length) (Cursor.rest_skip_length hrest)
  rw [expression, trimIn_eq, pure_bind]
  refine (leads_parseSpan hstart hstop hspan false).bind ?_
  rintro parsed _ ⟨rfl, hlt⟩
  refine leads_modify.mpr (leads_pure.mpr
    ⟨⟨rfl, hstart, hstop, hlt⟩, hle, Nat.lt_of_lt_of_le hlt hend, rfl, rfl, ?_⟩)
  simp [Progress.starts, Node.pending]

theorem leads_expressionToBrace (h : Standing r p) :
    Leads r expressionToBrace p fun e q => Passes r p e.slots q ∧ Slot r e := by
  unfold expressionToBrace
  simp only [leads_cursor, leads_scriptUpTo, leads_ite]
  refine ⟨fun _ => leads_refuse_bind h.border, fun hne => ?_⟩
  obtain ⟨d, -, tail, hrest⟩ := split_of_takeUntil rfl hne
  refine (leads_expression [] h.inside hrest rfl).bind ?_
  rintro e q ⟨hplaced, hle, hlt, hnotes⟩
  refine leads_skip.mpr (leads_pure.mpr ⟨?_, hplaced⟩)
  rw [hplaced.slots]
  exact (Passes.refl h).noteSkip hrest hnotes hle hlt 1

theorem leads_forIn {I : Progress → Prop} {h : α → PUnit → Read (ForInStep PUnit)}
    (hh : ∀ a b q, I q → Leads r (h a b) q fun _ q' => I q') (items : List α) (hp : I p) :
    Leads r (forIn items ⟨⟩ h) p fun _ q => I q := by
  induction items generalizing p with
  | nil => exact leads_pure.mpr hp
  | cons a items ih =>
    rw [List.forIn_cons]
    refine (hh a ⟨⟩ p hp).bind fun step q hq => ?_
    cases step with
    | done => exact leads_pure.mpr hq
    | «yield» => exact ih hq

theorem leads_declare (h : Passes r p s q) :
    Leads r (declare text n) q fun _ q' => Passes r p s q' ∧ q'.cursor = q.cursor :=
  ⟨rfl, h.still ⟨0, (Cursor.skip_zero _).symm⟩ rfl rfl, rfl⟩

theorem leads_patternAt {span : Span} (h : Passes r p s q) (hstart : Border r.source span.start)
    (hstop : Border r.source span.stop) (hle : span.start ≤ span.stop) :
    Leads r (patternAt span) q fun _ q' => Passes r p s q' ∧ q'.cursor = q.cursor := by
  refine (leads_parseSpan hstart hstop hle true).bind ?_
  rintro parsed _ ⟨rfl, -⟩
  refine (leads_forIn (fun n _ q' hq' => ?_) _ ⟨h, rfl⟩).bind fun _ q' hq' => leads_pure.mpr hq'
  split
  · refine (leads_declare hq'.1).bind ?_
    rintro _ q'' ⟨h, hcursor⟩
    exact leads_pure.mpr ⟨h, hcursor.trans hq'.2⟩
  · exact leads_pure.mpr hq'

theorem leads_pattern (h : Passes r p s q) (hrest : q.cursor.rest = cs ++ tail) :
    Leads r (pattern q.cursor.offset cs) q fun _ q' =>
      Passes r p s q' ∧ q'.cursor = q.cursor := by
  obtain ⟨hstart, hstop, -, hspan, -⟩ := scriptSpan_in h.ends.inside hrest
  rw [pattern, trimIn_eq, pure_bind]
  exact leads_patternAt h hstart hstop hspan

theorem leads_blockValue (h : Passes r p s q) (hrest : q.cursor.rest = cs ++ tail) :
    Leads r (blockValue q.cursor.offset cs) q fun _ q' =>
      Passes r p s q' ∧ q'.cursor = q.cursor := by
  obtain ⟨hstart, hstop, -, hspan, -⟩ := scriptSpan_in h.ends.inside hrest
  simp only [blockValue, trimIn_eq, pure_bind, leads_ite, leads_pure]
  refine ⟨fun _ => ⟨h, trivial⟩, fun _ => ⟨fun _ => ?_, fun _ => ?_⟩⟩
  · exact (leads_declare h).bind fun _ _ hq => leads_pure.mpr hq
  · exact (leads_patternAt h hstart hstop hspan).bind fun _ _ hq => leads_pure.mpr hq

end Markup

end SvelteSyntax
