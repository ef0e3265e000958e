import SvelteSyntax.Proofs.Markup.Print.Tags

namespace SvelteSyntax.Markup

open Text Script

variable {i : Input} {before rest : List Char} {content : Content} {size first start fuel : Nat}
  {children : List Item} {nested : Bool} {condition : Node} {more : Chain} {key : Option Snippet}
  {link : Nat → Node → Bool → Read Node} {e : Snippet} {d : Char} {index : Option (List Char)}

/-- The rule for contents reads back what is printed with fewer characters. -/
def ReadsBelow (content : Content) (i : Input) (size : Nat) : Prop :=
  ∀ items, AllPrintable i.parser items → (printAll items).length < size → ReadsAll content i items

theorem reads_blockClose (keyword : String) :
    Reads (blockClose keyword) i before (tagEnd keyword) rest () :=
  .bind_char (.expect_char rfl) (.bind_still (.skipNoBlanks rfl) (.bind_char (.expect_char rfl)
    (.bind (.expect keyword) (.bind_still (.skipNoBlanks rfl) (.expect_char rfl)))))

theorem reads_branchOpen (keyword : String) :
    Reads (branchOpen keyword) i before (tagOpen ':' keyword) rest () :=
  .bind_char (.expect_char rfl) (.bind_still (.skipNoBlanks rfl) (.bind_char (.expect_char rfl)
    (.expect keyword)))

def Other.ending (last : Nat → Ending) : Other → Nat → Ending
  | .absent => last
  | .present _ => .branch "else"

theorem Ends.other {last} (h : Ends rest last) (other : Other) :
    Ends (other.print ++ rest) (other.ending last) := by
  cases other with
  | absent => exact h
  | present children =>
    rw [Other.print, List.append_assoc]
    exact .branch (by decide) rfl

theorem reads_elseBranch {ending branch} (hchildren : ReadsAll content i children)
    (hends : Ends rest ending) (hfirst : byteLength before = first) :
    Reads (elseBranch content branch) i before ('}' :: printAll children) rest
      (elseNode branch (first + 1 + byteLength (printAll children))
        (nodesFrom "ElseBlock" (first + 1) children),
        ending (first + 1 + byteLength (printAll children))) := by
  subst hfirst
  have hinner : byteLength (before ++ ['}']) = byteLength before + 1 := byteLength_append ..
  have hstop : byteLength (before ++ ['}'] ++ printAll children) =
      byteLength before + 1 + byteLength (printAll children) := by
    rw [byteLength_append, hinner]
  refine .bind_char (.expect_char rfl) (.bind_last (hchildren _ hends hinner) (.of_here ?_))
  rw [hstop]
  exact .pure _

theorem ends_if (rest : List Char) : Ends (tagEnd "if" ++ rest) (.blockClose "if") :=
  .blockClose (by decide) rest

theorem reads_ifLink_last {other : Other} (hcontent : ReadsBelow content i size)
    (hchildren : AllPrintable i.parser children) (hother : other.Printable i.parser)
    (hsize : (printAll children ++ other.print).length < size) (hfirst : byteLength before = first) :
    let branch := first + byteLength (printAll children)
    let close := branch + byteLength other.print
    Reads (ifLink content link start condition nested) i before (printAll children ++ other.print)
      (tagEnd "if" ++ rest)
      (ifNode start close condition nested (nodesFrom "IfBlock" first children)
        (other.node? branch close)) := by
  intro branch close
  rw [List.length_append] at hsize
  have hbefore := hcontent children hchildren (by omega) "IfBlock" ((ends_if rest).other other) hfirst
  refine .bind hbefore ?_
  cases other with
  | absent =>
    refine .bind_still (.pure _) ?_
    cases nested <;> exact .pure _
  | present others =>
    have hbranch : byteLength (before ++ printAll children ++ tagOpen ':' "else") = branch + 6 := by
      rw [byteLength_append, byteLength_append, hfirst]
      rfl
    have hclose : close = branch + 6 + 1 + byteLength (printAll others) := by
      simp only [close, Other.print, byteLength_append, byteLength_cons]
      rw [show byteLength (tagOpen ':' "else") = 6 from rfl, show '}'.utf8Size = 1 from rfl]
      omega
    have hothers := hcontent others hother (by simp [Other.print] at hsize; omega)
    refine .bind (reads_branchOpen "else") (.bind_still (.skipNoBlanks rfl) (.of_cursor fun c hc _ => ?_))
    have hword : word c.rest ≠ "if" := by
      rw [hc]
      exact (by decide : String.ofList [] ≠ "if")
    rw [wordIn_eq, pure_bind, if_neg hword, hclose]
    refine .bind_last (reads_elseBranch hothers (ends_if rest) hbranch) (.bind_still (.pure _) ?_)
    cases nested <;> exact .pure _

theorem reads_ifLink_link {children'} (hchildren : ReadsAll content i children)
    (he : e.Printable i.parser (Balanced.atAny ['}']) false) (hfirst : byteLength before = first) :
    let branch := first + byteLength (printAll children)
    let inner := branch + 10 + byteLength e.text + 1
    let close := inner + byteLength (printAll children' ++ more.print)
    let n := ifNode (branch + 7) close (e.node (branch + 10)) true (nodesFrom "IfBlock" inner children')
      (more.node? (inner + byteLength (printAll children')) close)
    (∀ before, byteLength before = inner → Reads (link (branch + 7) (e.node (branch + 10)) true) i before
      (printAll children' ++ more.print) (tagEnd "if" ++ rest) n) →
    Reads (ifLink content link start condition nested) i before
      (printAll children ++ (Chain.link e children' more).print) (tagEnd "if" ++ rest)
      (ifNode start close condition nested (nodesFrom "IfBlock" first children)
        (some (elseNode branch close [n]))) := by
  intro branch inner close n hlink
  have htext : (Chain.link e children' more).print =
      tagOpen ':' "else" ++ (' ' :: ("if".toList ++ ([' '] ++ (e.text ++ ['}']) ++
        (printAll children' ++ more.print)))) := by
    simp [Chain.print]
  have hends : Ends ((Chain.link e children' more).print ++ (tagEnd "if" ++ rest)) (.branch "else") := by
    rw [htext, List.append_assoc]
    exact .branch (by decide) rfl
  refine .bind (hchildren "IfBlock" hends hfirst) ?_
  rw [htext]
  have hseven : byteLength (before ++ printAll children ++ tagOpen ':' "else" ++ [' ']) = branch + 7 := by
    simp only [byteLength_append, hfirst]
    rfl
  have hnine : byteLength (before ++ printAll children ++ tagOpen ':' "else" ++ [' '] ++ "if".toList) =
      branch + 9 := by
    rw [byteLength_append, hseven]
    rfl
  refine .bind (reads_branchOpen "else") (.bind_char (.skipBlanks (isMarkupBlank_of_gap (.inr rfl)) rfl)
    (.of_cursor fun c hc _ => ?_))
  have hword : word c.rest = "if" := by
    rw [hc, List.append_assoc]
    exact @word_append _ "if" (by decide) rfl
  rw [wordIn_eq, pure_bind, if_pos hword]
  refine .of_here (.bind (.skip rfl) (.bind (reads_expressionToBrace he (.inr rfl)) ?_))
  rw [hseven, hnine]
  refine .bind_last (hlink _ ?_) (.of_here ?_)
  · rw [byteLength_append, hnine]
    simp (disch := decide) only [byteLength_append, byteLength_cons, byteLength_nil, utf8Size_of_lt]
    omega
  · have hclose : byteLength (before ++ printAll children ++ tagOpen ':' "else" ++ [' '] ++ "if".toList ++
        ([' '] ++ (e.text ++ ['}'])) ++ (printAll children' ++ more.print)) = close := by
      rw [byteLength_append, byteLength_append, hnine]
      simp (disch := decide) only [close, inner, byteLength_append, byteLength_cons, byteLength_nil,
        utf8Size_of_lt]
      omega
    rw [hclose]
    refine .bind_still (.pure _) ?_
    cases nested <;> exact .pure _

theorem reads_ifChain (hcontent : ReadsBelow content i size) (hchildren : AllPrintable i.parser children)
    (hmore : more.Printable i.parser) (hsize : (printAll children ++ more.print).length < size)
    (hfuel : more.print.length ≤ fuel) (hfirst : byteLength before = first) :
    let branch := first + byteLength (printAll children)
    let close := branch + byteLength more.print
    Reads (ifChain content fuel start condition nested) i before (printAll children ++ more.print)
      (tagEnd "if" ++ rest)
      (ifNode start close condition nested (nodesFrom "IfBlock" first children)
        (more.node? branch close)) := by
  induction fuel generalizing before more children condition nested start first with
  | zero =>
    cases more with
    | last other => exact reads_ifLink_last hcontent hchildren hmore hsize hfirst
    | link e children' more =>
      rw [Chain.print] at hfuel
      simp [tagOpen] at hfuel
  | succ fuel ih =>
    cases more with
    | last other => exact reads_ifLink_last hcontent hchildren hmore hsize hfirst
    | link e children' more =>
      obtain ⟨he, hchildren', hmore⟩ := hmore
      rw [Chain.print] at hfuel
      simp only [List.length_append, Chain.print, List.length_cons] at hsize hfuel
      intro branch close
      have hclose : close = branch + 10 + byteLength e.text + 1 +
          byteLength (printAll children' ++ more.print) := by
        simp (disch := decide) only [close, Chain.print, byteLength_append, byteLength_cons,
          utf8Size_of_lt]
        rw [show byteLength (tagOpen ':' "else") = 6 from rfl, show byteLength "if".toList = 2 from rfl]
        omega
      rw [Chain.node?, hclose]
      refine reads_ifLink_link (hcontent children hchildren (by omega)) he hfirst fun before hinner => ?_
      rw [byteLength_append, ← Nat.add_assoc]
      exact ih hchildren' hmore (by rw [List.length_append]; omega) (by omega) hinner

theorem reads_ifBlock (hcontent : ReadsBelow content i size)
    (he : e.Printable i.parser (Balanced.atAny ['}']) false) (hchildren : AllPrintable i.parser children)
    (hmore : more.Printable i.parser) (hsize : (printAll children ++ more.print).length < size)
    (hfuel : more.print.length ≤ fuel) (hstart : byteLength before = start + 4) (parent : String) :
    Reads (ifBlock content fuel start) i before
      (' ' :: (e.text ++ '}' :: (printAll children ++ (more.print ++ tagEnd "if")))) rest
      ((Item.ifBlock e children more).node parent start) := by
  have htext : ' ' :: (e.text ++ '}' :: (printAll children ++ (more.print ++ tagEnd "if"))) =
      [' '] ++ (e.text ++ ['}']) ++ ((printAll children ++ more.print) ++ tagEnd "if") := by
    simp
  have hfirst : byteLength (before ++ ([' '] ++ (e.text ++ ['}']))) =
      start + 5 + byteLength e.text + 1 := by
    simp (disch := decide) only [hstart, byteLength_append, byteLength_cons, byteLength_nil, utf8Size_of_lt]
    omega
  have hstop : byteLength (before ++ ([' '] ++ (e.text ++ ['}'])) ++ (printAll children ++ more.print) ++
      tagEnd "if") = start + 5 + byteLength e.text + 1 + byteLength (printAll children) +
        byteLength more.print + byteLength (tagEnd "if") := by
    rw [byteLength_append, byteLength_append, hfirst, byteLength_append]
    omega
  rw [htext, Item.node]
  refine .bind (reads_expressionToBrace he (.inr rfl)) ?_
  rw [hstart]
  refine .bind (reads_ifChain hcontent hchildren hmore hsize hfuel hfirst)
    (.bind_last (reads_blockClose "if") (.of_here ?_))
  rw [hstop]
  exact .pure _

/-- The key of an each block after the blank before it. -/
def printKeyParens : Option Snippet → List Char
  | none => []
  | some e => '(' :: (e.text ++ [')'])

/-- The blank before the key of an each block. -/
def keyGap (key : Option Snippet) : List Char := if key.isSome then [' '] else []

/-- What is read after the context, if that takes the blank before the key. -/
def contextGap (index : Option (List Char)) (key : Option Snippet) : List Char :=
  if index.isSome then [] else keyGap key

/-- What is read after the index, if that takes the blank before the key. -/
def indexGap (index : Option (List Char)) (key : Option Snippet) : List Char :=
  if index.isSome then keyGap key else []

theorem printKey_eq (key : Option Snippet) : printKey key = keyGap key ++ printKeyParens key := by
  cases key <;> rfl

theorem keyGap_cases (key : Option Snippet) : keyGap key = [] ∨ keyGap key = [' '] := by
  cases key with
  | none => exact .inl rfl
  | some e => exact .inr rfl

theorem contextGap_cases (index : Option (List Char)) (key : Option Snippet) :
    contextGap index key = [] ∨ contextGap index key = [' '] := by
  cases index with
  | none => exact keyGap_cases key
  | some name => exact .inl rfl

theorem not_isMarkupBlank {f} (hf : [' ', '\t', '\n', '\x0c', '\r'].any f = false) (hd : f d) :
    isMarkupBlank d = false := by
  rw [Bool.eq_false_iff]
  intro hblank
  have hmem : d ∈ [' ', '\t', '\n', '\x0c', '\r'] := by
    simpa [isMarkupBlank, or_assoc] using hblank
  exact List.any_eq_false.mp hf d hmem hd

theorem reads_eachIndex (h : ∀ name ∈ index, name ≠ [] ∧ ∀ d ∈ name, isSimpleNameChar d)
    (hrest : rest.head? = some '(' ∨ rest.head? = some '}') :
    Reads eachIndex i before (printIndex index ++ indexGap index key) rest
      (indexFields index) := by
  obtain ⟨d, tail, rfl, hd⟩ : ∃ d tail, rest = d :: tail ∧ (d = '(' ∨ d = '}') := by
    rcases hrest with hrest | hrest
    · obtain ⟨tail, rfl⟩ := List.head?_eq_some_iff.mp hrest
      exact ⟨_, tail, rfl, .inl rfl⟩
    · obtain ⟨tail, rfl⟩ := List.head?_eq_some_iff.mp hrest
      exact ⟨_, tail, rfl, .inr rfl⟩
  cases index with
  | none =>
    refine .bind_still (.eat_not ?_) (.pure _)
    rcases hd with rfl | rfl <;> rfl
  | some name =>
    obtain ⟨hne, hname⟩ := h name rfl
    have hgap := keyGap_cases key
    have hblank : (name ++ keyGap key ++ d :: tail).head?.all (!isMarkupBlank ·) := by
      obtain ⟨x, name, rfl⟩ := List.exists_cons_of_ne_nil hne
      have hx := not_isMarkupBlank (by decide) (hname x (by simp))
      simpa using hx
    have hend : (keyGap key ++ d :: tail).head?.all (!isSimpleNameChar ·) := by
      rcases hgap with hgap | hgap <;> rw [hgap]
      · rcases hd with rfl | rfl <;> rfl
      · rfl
    have hlast : (d :: tail).head?.all (!isMarkupBlank ·) := by
      rcases hd with rfl | rfl <;> rfl
    change Reads _ i before (',' :: ' ' :: (name ++ keyGap key)) _ _
    refine .bind_char (.eat ",") (.bind_char (.skipBlanks (isMarkupBlank_of_gap (.inr rfl)) hblank)
      (.of_here (.bind (.readWhile hname hend) ?_)))
    rw [if_neg (by simpa using hne)]
    exact .bind_still (.declare _ _) (.bind_last (.skipBlanks (isMarkupBlank_of_gap hgap) hlast) (.pure _))

theorem reads_eachKey (h : ∀ e ∈ key, e.Printable i.parser (Balanced.atAny [')']) false)
    (hstart : byteLength before = start + byteLength (keyGap key)) (hrest : rest.head? = some '}') :
    Reads eachKey i before (printKeyParens key) rest (keyFields start key) := by
  obtain ⟨tail, rfl⟩ := List.head?_eq_some_iff.mp hrest
  cases key with
  | none => exact .bind_still (.eat_not rfl) (.bind_still (.eat_not rfl) (.pure _))
  | some e =>
    have he := h e rfl
    have htext := he.takeUntil (Balanced.local_atAny _ ')') (by decide) (fun _ _ => rfl) ('}' :: tail)
    have hoffset : byteLength (before ++ ['(']) = start + 2 := by
      rw [byteLength_append, hstart]
      rfl
    refine .bind_char (.eat "(") (.of_script e.text (fun prev => ?_) fun c hc hc' hsource => ?_)
    · rw [Balanced.takeUntil_atAny_prev _ prev (some ' '), List.append_assoc]
      exact htext
    rw [List.append_assoc e.text] at hsource
    have hlength : ¬e.text.length = c.rest.length := by
      rw [hc]
      simp only [List.length_append, List.length_singleton]
      omega
    have hexpression : ∀ rest, Reads (expression (start + 2) ([] ++ (e.text ++ []))) i (before ++ ['(']) []
        rest (e.node (start + 2)) := by
      intro rest
      rw [← hoffset]
      exact he.expression (by simp) (by simp) hsource
    rw [List.append_nil, List.nil_append] at hexpression
    rw [if_neg hlength, hc', hoffset]
    exact .bind_still (hexpression _) (.bind_last (.skip (by simp))
      (.bind_still (.skipNoBlanks rfl) (.pure _)))

theorem ends_each (rest : List Char) : Ends (tagEnd "each" ++ rest) (.blockClose "each") :=
  .blockClose (by decide) rest

theorem exists_eachTail (index : Option (List Char)) (key : Option Snippet) (rest : List Char) :
    ∃ d tail, (printIndex index ++ indexGap index key) ++ (printKeyParens key ++ '}' :: rest) = d :: tail ∧
      (d = ',' ∨ d = '(' ∨ d = '}') := by
  cases index with
  | some name => exact ⟨',', _, rfl, .inl rfl⟩
  | none =>
    cases key with
    | some e => exact ⟨'(', _, rfl, .inr (.inl rfl)⟩
    | none => exact ⟨'}', _, rfl, .inr (.inr rfl)⟩

theorem peek?_skip_length {c : Cursor} {text tail : List Char} (h : c.rest = text ++ d :: tail) :
    (c.skip text.length).peek? = some d := by
  rw [Cursor.peek?, Cursor.rest_skip_length h]
  rfl

theorem reads_eachBlock (hcontent : ReadsBelow content i size) {list context : Snippet} {other : Other}
    (h : (Item.each list context index key children other).Printable i.parser)
    (hsize : (printAll children ++ other.print).length < size) (hstart : byteLength before = start + 6)
    (parent : String) :
    Reads (eachBlock content start) i before
      (' ' :: (list.text ++ ' ' :: 'a' :: 's' :: ' ' :: (context.text ++ (printIndex index ++
        (printKey key ++ '}' :: (printAll children ++ (other.print ++ tagEnd "each"))))))) rest
      ((Item.each list context index key children other).node parent start) := by
  obtain ⟨hlist, hcontext, hindex, hkey, hchildren, hother⟩ := h
  have hgaps : byteLength (contextGap index key) + byteLength (indexGap index key) =
      byteLength (keyGap key) := by
    cases index <;> simp [contextGap, indexGap, byteLength_nil]
  have htext : ' ' :: (list.text ++ ' ' :: 'a' :: 's' :: ' ' :: (context.text ++ (printIndex index ++
        (printKey key ++ '}' :: (printAll children ++ (other.print ++ tagEnd "each")))))) =
      (' ' :: (list.text ++ [' '] ++ "as".toList)) ++ ((' ' :: (context.text ++ contextGap index key)) ++
        ((printIndex index ++ indexGap index key) ++ (printKeyParens key ++ '}' ::
          (printAll children ++ (other.print ++ tagEnd "each"))))) := by
    rw [printKey_eq]
    cases index <;> simp [printIndex, contextGap, indexGap]
  have hkeyText : byteLength (printKey key) = byteLength (keyGap key) + byteLength (printKeyParens key) := by
    rw [printKey_eq, byteLength_append]
  have hsecond : byteLength (before ++ (' ' :: (list.text ++ [' '] ++ "as".toList))) + 1 =
      start + 7 + byteLength list.text + 4 := by
    simp (disch := decide) only [hstart, byteLength_append, byteLength_cons, byteLength_nil, utf8Size_of_lt]
    rw [show byteLength "as".toList = 2 from rfl]
    omega
  rw [htext]
  refine .of_script (' ' :: (list.text ++ [' '])) (fun prev => ?_) fun c hc hoffset hsource => ?_
  · simp only [List.append_assoc, List.cons_append, List.nil_append]
    exact hlist.takeUntil_word (by decide) (by decide) rfl prev _
  have hpeek : ¬(c.skip (' ' :: (list.text ++ [' '])).length).peek?.all (· == '}') := by
    rw [List.append_assoc, List.cons_append, List.append_assoc] at hc
    rw [peek?_skip_length hc]
    decide
  simp only [List.append_assoc, List.cons_append] at hsource
  rw [if_neg hpeek, hoffset]
  refine .bind_still (hlist.expression_spaced (.inr rfl) hsource (by rw [hstart])) (.bind (.skip ?_) ?_)
  · simp
  obtain ⟨d, tail, htail, hd⟩ := exists_eachTail index key
    (printAll children ++ (other.print ++ tagEnd "each") ++ rest)
  obtain ⟨hmark, hplain, hblank⟩ :
      [',', '(', '@', '}'].contains d ∧ d ∉ ['*', '/', '{'] ∧ isMarkupBlank d = false := by
    rcases hd with rfl | rfl | rfl <;> decide
  have hafter : (printIndex index ++ indexGap index key) ++ (printKeyParens key ++ '}' ::
      (printAll children ++ (other.print ++ tagEnd "each"))) ++ rest = d :: tail := by
    rw [← htail]
    simp
  refine .of_script (' ' :: (context.text ++ contextGap index key)) (fun prev => ?_)
    fun c hc hoffset hsource => ?_
  · rw [List.append_assoc, hafter, List.cons_append, List.append_assoc]
    exact hcontext.takeUntil_mark rfl (contextGap_cases index key) hmark hplain prev tail
  simp only [List.cons_append, List.append_assoc context.text] at hsource
  rw [hoffset]
  have hthird : byteLength (before ++ (' ' :: (list.text ++ [' '] ++ "as".toList)) ++
      (' ' :: (context.text ++ contextGap index key)) ++ (printIndex index ++ indexGap index key)) =
      start + 7 + byteLength list.text + 4 + byteLength context.text + byteLength (printIndex index) +
        byteLength (keyGap key) := by
    rw [byteLength_append, byteLength_append, ← hsecond, ← hgaps]
    simp (disch := decide) only [byteLength_append, byteLength_cons, utf8Size_of_lt]
    omega
  have hinner : byteLength (before ++ (' ' :: (list.text ++ [' '] ++ "as".toList)) ++
      (' ' :: (context.text ++ contextGap index key)) ++ (printIndex index ++ indexGap index key) ++
      printKeyParens key ++ ['}']) = start + 7 + byteLength list.text + 4 + byteLength context.text +
        byteLength (printIndex index) + byteLength (printKey key) + 1 := by
    rw [byteLength_append, byteLength_append, hthird, hkeyText]
    simp (disch := decide) only [byteLength_cons, byteLength_nil, utf8Size_of_lt]
    omega
  refine .bind_still (hcontext.pattern_spaced (contextGap_cases index key) hsource hsecond)
    (.bind (.skip rfl) (.bind_still (.skipNoBlanks ?_) (.bind (reads_eachIndex hindex ?_)
      (.bind (reads_eachKey hkey hthird rfl) (.bind_char (.expect_char rfl) ?_)))))
  · rw [hafter]
    simpa using hblank
  · cases key with
    | none => exact .inr rfl
    | some e => exact .inl rfl
  rw [List.length_append] at hsize
  have hstop : start + byteLength (Item.each list context index key children other).print = start + 7 +
      byteLength list.text + 4 + byteLength context.text + byteLength (printIndex index) +
        byteLength (printKey key) + 1 + byteLength (printAll children) + byteLength other.print +
          byteLength (tagEnd "each") := by
    simp (disch := decide) only [Item.print, byteLength_append, byteLength_cons, utf8Size_of_lt]
    rw [show byteLength (tagOpen '#' "each") = 6 from rfl]
    omega
  rw [Item.node, hstop]
  revert hinner
  generalize before ++ (' ' :: (list.text ++ [' '] ++ "as".toList)) ++
    (' ' :: (context.text ++ contextGap index key)) ++ (printIndex index ++ indexGap index key) ++
    printKeyParens key ++ ['}'] = inside
  generalize start + 7 + byteLength list.text + 4 + byteLength context.text +
    byteLength (printIndex index) + byteLength (printKey key) + 1 = inner
  intro hinner
  have hends : Ends (other.print ++ tagEnd "each" ++ rest) (other.ending (.blockClose "each")) := by
    rw [List.append_assoc]
    exact (ends_each rest).other other
  refine .bind (hcontent children hchildren (by omega) "EachBlock" hends hinner) ?_
  have hclose : byteLength (inside ++ printAll children ++ (other.print ++ tagEnd "each")) =
      inner + byteLength (printAll children) + byteLength other.print + byteLength (tagEnd "each") := by
    rw [byteLength_append, byteLength_append, byteLength_append, hinner]
    omega
  cases other with
  | absent =>
    exact .bind_still (.pure _) (.bind_last (reads_blockClose "each") (.finish hclose))
  | present others =>
    have hbranch : byteLength (inside ++ printAll children ++ tagOpen ':' "else") =
        inner + byteLength (printAll children) + 6 := by
      rw [byteLength_append, byteLength_append, hinner]
      rfl
    have hothers := hcontent others hother (by simp [Other.print] at hsize; omega)
    have hnode : ∀ branch, (Other.present others).node? branch
        (branch + byteLength (Other.present others).print) =
        some (elseNode branch (branch + 6 + 1 + byteLength (printAll others))
          (nodesFrom "ElseBlock" (branch + 6 + 1) others)) := by
      intro branch
      have hprint : branch + byteLength (Other.present others).print =
          branch + 6 + 1 + byteLength (printAll others) := by
        simp (disch := decide) only [Other.print, byteLength_append, byteLength_cons, utf8Size_of_lt]
        rw [show byteLength (tagOpen ':' "else") = 6 from rfl]
        omega
      rw [Other.node?, hprint]
    rw [hnode]
    rw [Other.print, List.append_assoc (tagOpen _ _)] at hclose ⊢
    refine .bind (reads_branchOpen "else") (.bind_still (.skipNoBlanks rfl)
      (.bind (reads_elseBranch hothers (ends_each rest) hbranch) (.bind_still (.pure _)
        (.bind_last (reads_blockClose "each") (.finish ?_)))))
    rw [← hclose]
    simp only [List.append_assoc]

end SvelteSyntax.Markup
