import SvelteSyntax.Proofs.Markup.Encoded
import SvelteSyntax.Proofs.Markup.Rules.Siblings

namespace SvelteSyntax.Markup

open Text Script

variable {α β : Type} {i : Input} {p : Progress} {scan : List Char → List Char} {f : Char → Bool}
  {text tail marks : List Char} {content : Content} {fuel start : Nat}

/-- Scans go from byte to byte and moves are of so many bytes. What is not at a border then is no place. -/
abbrev byBytes : Access where
  take scan text := takeBytes (scan (encoded text)).length text
  move bytes _ c := (takeBytes bytes c.rest).map fun taken => c.skip taken.length

theorem bind_alike {x y : Read α} {f g : α → Read β} (hx : x i p = y i p)
    (hf : ∀ a q, Gives y i p a q → f a i q = g a i q) : (x >>= f) i p = (y >>= g) i p := by
  change (x i p >>= fun s => f s.1 i s.2) = (y i p >>= fun s => g s.1 i s.2)
  rw [hx]
  cases hrun : y i p with
  | error e => rfl
  | ok s => exact hf s.1 s.2 hrun

theorem cursor_alike {f g : Cursor → Read β} (h : f p.cursor i p = g p.cursor i p) :
    (cursor >>= f) i p = (cursor >>= g) i p := h

theorem here_alike {f g : Nat → Read β} (h : f p.cursor.offset i p = g p.cursor.offset i p) :
    (here >>= f) i p = (here >>= g) i p := h

theorem peek_alike {f g : Option Char → Read β}
    (h : f p.cursor.rest.head? i p = g p.cursor.rest.head? i p) :
    (peek? >>= f) i p = (peek? >>= g) i p := h

theorem wordIn_alike {f g : String → Read β} (h : f (word text) i p = g (word text) i p) :
    (wordIn text >>= f) i p = (wordIn text >>= g) i p := h

theorem run_alike {x y : Read α} (h : x = y) : x i p = y i p := by rw [h]

theorem refuse_alike {code message : String} {offset : Nat} {f g : α → Read β} :
    (refuse code message offset >>= f) i p = (refuse code message offset >>= g) i p := rfl

theorem within_byBytes (hscan : scan (encoded text) = encoded (scan text))
    (hstarts : scan text <+: text) : @within byBytes scan text = @within byCharacters scan text := by
  obtain ⟨tail, htail⟩ := hstarts
  have htake : @Access.take byBytes scan text = some (scan text) := by
    change takeBytes (scan (encoded text)).length text = _
    have happend := takeBytes_append (scan text) tail
    rw [htail] at happend
    rwa [hscan, length_encoded]
  unfold within
  rw [htake]
  rfl

theorem within_takeWhile (hf : Uniform f) (text : List Char) :
    @within byBytes (·.takeWhile f) text = @within byCharacters (·.takeWhile f) text :=
  within_byBytes (takeWhile_encoded hf text) (List.takeWhile_prefix f)

theorem move_byBytes (hrest : p.cursor.rest = text ++ tail) :
    @move byBytes (byteLength text) text.length i p =
      @move byCharacters (byteLength text) text.length i p := by
  have hmove : @Access.move byBytes (byteLength text) text.length p.cursor =
      some (p.cursor.skip text.length) := by
    change (takeBytes (byteLength text) p.cursor.rest).map _ = _
    rw [hrest, takeBytes_append]
    rfl
  refine cursor_alike ?_
  simp only [hmove]
  rfl

theorem byteLength_of_isAscii (h : marks.all isAscii) : byteLength marks = marks.length := by
  rw [← length_encoded, encoded_of_isAscii fun c hc => List.all_eq_true.mp h c hc]

theorem pass_byBytes (hrest : p.cursor.rest = text ++ (marks ++ tail)) (hmarks : marks.all isAscii) :
    @pass byBytes text marks.length i p = @pass byCharacters text marks.length i p := by
  rw [← List.append_assoc] at hrest
  have hmove := @move_byBytes i p (text ++ marks) tail hrest
  rwa [byteLength_append, byteLength_of_isAscii hmarks, List.length_append] at hmove

theorem pass_zero_byBytes (hrest : p.cursor.rest = text ++ tail) :
    @pass byBytes text 0 i p = @pass byCharacters text 0 i p :=
  @pass_byBytes i p text tail [] hrest rfl

theorem skip_byBytes (hrest : p.cursor.rest = marks ++ tail) (hmarks : marks.all isAscii) :
    @skip byBytes marks.length i p = @skip byCharacters marks.length i p := by
  have hmove := @move_byBytes i p marks tail hrest
  rwa [byteLength_of_isAscii hmarks] at hmove

theorem skip_one_byBytes {d : Char} (hhead : p.cursor.rest.head? = some d) (hd : isAscii d) :
    @skip byBytes 1 i p = @skip byCharacters 1 i p := by
  obtain ⟨tail, hrest⟩ := List.head?_eq_some_iff.mp hhead
  exact @skip_byBytes i p tail [d] hrest (by simpa using hd)

theorem ahead_byBytes (h : ∀ text, @within byBytes scan text = @within byCharacters scan text) :
    @ahead byBytes scan = @ahead byCharacters scan := by
  simp only [ahead, h]

theorem readWhile_byBytes (hf : Uniform f) : @readWhile byBytes f = @readWhile byCharacters f := by
  funext i p
  refine bind_alike (run_alike (ahead_byBytes (within_takeWhile hf))) fun taken q hq => ?_
  obtain ⟨rfl, rfl⟩ := gives_ahead.mp hq
  exact bind_alike (pass_zero_byBytes List.takeWhile_append_dropWhile.symm) fun _ _ _ => rfl

theorem readWhile_blankOr_byBytes (h : marks.all isAscii) :
    @readWhile byBytes (fun c => !(isMarkupBlank c || marks.contains c)) =
      @readWhile byCharacters fun c => !(isMarkupBlank c || marks.contains c) :=
  readWhile_byBytes (uniform_blankOr h).not

@[simp] theorem skipBlanks_byBytes : @skipBlanks byBytes = @skipBlanks byCharacters := by
  funext i p
  refine bind_alike (run_alike (ahead_byBytes (within_takeWhile .isMarkupBlank))) fun taken q hq => ?_
  obtain ⟨rfl, rfl⟩ := gives_ahead.mp hq
  exact pass_zero_byBytes List.takeWhile_append_dropWhile.symm

@[simp] theorem eat_byBytes (word : String) : @eat byBytes word = @eat byCharacters word := by
  funext i p
  refine bind_alike rfl fun b q hq => ?_
  obtain ⟨hstarts, rfl⟩ := gives_atText.mp hq
  cases b with
  | false => simp only [Bool.false_eq_true, ↓reduceIte]
  | true =>
    obtain ⟨tail, hrest⟩ := startsWith_iff.mp hstarts.symm
    have hmove := @move_byBytes i _ _ _ hrest
    rw [String.length_toList] at hmove
    exact bind_alike hmove fun _ _ _ => rfl

@[simp] theorem expect_byBytes (word : String) : @expect byBytes word = @expect byCharacters word := by
  simp only [expect, eat_byBytes]

@[simp] theorem wordIn_byBytes (text : List Char) :
    @wordIn byBytes text = @wordIn byCharacters text := by
  simp only [wordIn, within_takeWhile .isAsciiLetter]

theorem readUpTo?_byBytes {close : String} (hclose : close.toList ≠ []) :
    @readUpTo? byBytes close = @readUpTo? byCharacters close := by
  funext i p
  refine cursor_alike ?_
  cases hsplit : splitAt? close.toList p.cursor.rest with
  | none => rfl
  | some parts =>
    obtain ⟨hrest, -⟩ := (splitAt?_eq_some_iff hclose).mp hsplit
    exact bind_alike (pass_zero_byBytes hrest) fun _ _ _ => rfl

theorem scriptUpTo_byBytes {stop : Balanced.Stop} (hstop : Balanced.SeesAscii stop) :
    @scriptUpTo byBytes stop = @scriptUpTo byCharacters stop := by
  have hahead (prev : Option Char) : @ahead byBytes (Balanced.takeUntil stop prev) =
      @ahead byCharacters (Balanced.takeUntil stop prev) :=
    ahead_byBytes fun text => within_byBytes (takeUntil_encoded hstop (.inl rfl) text)
      ⟨_, Balanced.takeUntil_append_drop stop prev text⟩
  simp only [scriptUpTo, hahead]

theorem scriptUpTo_alike {stop : Balanced.Stop} {f g : List Char → Read β}
    (hstop : Balanced.SeesAscii stop)
    (h : ∀ text, text = Balanced.takeUntil stop p.cursor.prev p.cursor.rest → f text i p = g text i p) :
    (@scriptUpTo byBytes stop >>= f) i p = (@scriptUpTo byCharacters stop >>= g) i p := by
  rw [scriptUpTo_byBytes hstop]
  exact h _ rfl

@[simp] theorem trimIn_byBytes (start : Nat) (text : List Char) :
    @trimIn byBytes start text = @trimIn byCharacters start text := by
  -- Once the blanks before it are gone, only those after the text are cut off.
  have hinner : @within byBytes (trim isMarkupBlank) (text.dropWhile isMarkupBlank) =
      @within byCharacters (trim isMarkupBlank) (text.dropWhile isMarkupBlank) := by
    refine within_byBytes (trim_encoded .isMarkupBlank _) ?_
    rw [trim, List.dropWhile_idempotent]
    exact List.rdropWhile_prefix ..
  unfold trimIn
  rw [within_takeWhile .isMarkupBlank, within_eq, pure_bind, pure_bind, drop_length_takeWhile, hinner]

@[simp] theorem expression_byBytes (start : Nat) (text : List Char) :
    @expression byBytes start text = @expression byCharacters start text := by
  simp only [expression, trimIn_byBytes]

@[simp] theorem pattern_byBytes (start : Nat) (text : List Char) :
    @pattern byBytes start text = @pattern byCharacters start text := by
  simp only [pattern, trimIn_byBytes]

@[simp] theorem blockValue_byBytes (start : Nat) (text : List Char) :
    @blockValue byBytes start text = @blockValue byCharacters start text := by
  simp only [blockValue, trimIn_byBytes]

/-- An expression is parsed before the text it stands in is passed. -/
theorem expression_pass_alike {k k' : Node → Unit → Read β} (marks : List Char)
    (hrest : p.cursor.rest = text ++ (marks ++ tail)) (hmarks : marks.all isAscii)
    (hk : ∀ e u q, q.cursor = p.cursor.skip (text.length + marks.length) → k e u i q = k' e u i q) :
    (@expression byBytes start text >>= fun e => @pass byBytes text marks.length >>= k e) i p =
      (@expression byCharacters start text >>= fun e =>
        @pass byCharacters text marks.length >>= k' e) i p := by
  rw [expression_byBytes]
  refine bind_alike rfl fun e q hq => ?_
  have hcursor := (gives_expression hq).still.still
  rw [← hcursor] at hrest
  refine bind_alike (pass_byBytes hrest hmarks) fun u r hr => hk e u r ?_
  rw [gives_pass.mp hr, Progress.cursor_goTo, hcursor]

@[simp] theorem expressionToBrace_byBytes :
    @expressionToBrace byBytes = @expressionToBrace byCharacters := by
  funext i p
  refine cursor_alike (scriptUpTo_alike (.atAny (by decide)) fun text htext => ?_)
  by_cases hlength : text.length = p.cursor.rest.length
  · rw [if_pos hlength, if_pos hlength]
    exact refuse_alike
  obtain ⟨tail, hrest⟩ := split_of_mark htext hlength
  rw [if_neg hlength, if_neg hlength]
  exact expression_pass_alike ['}'] hrest rfl fun _ _ _ _ => rfl

theorem textWhile_byBytes (hf : Uniform f) : @textWhile byBytes f = @textWhile byCharacters f := by
  simp only [textWhile, readWhile_byBytes hf]

@[simp] theorem text_byBytes : @Markup.text byBytes = @Markup.text byCharacters :=
  textWhile_byBytes (.and (.bne rfl) (.bne rfl))

theorem comment_byBytes (hstarts : startsWith "<!--".toList p.cursor.rest) :
    @comment byBytes i p = @comment byCharacters i p := by
  obtain ⟨tail, hrest⟩ := startsWith_iff.mp hstarts
  refine here_alike (bind_alike (@skip_byBytes i p tail "<!--".toList hrest (by decide)) fun _ q _ => ?_)
  rw [readUpTo?_byBytes (by decide)]
  refine bind_alike rfl fun data q hq => ?_
  obtain ⟨data, rest, rfl, hsplit, rfl⟩ | ⟨rfl, -, rfl⟩ := gives_readUpTo?.mp hq
  · obtain ⟨hrest, hclose, -⟩ := (splitAt?_eq_some_iff (by decide)).mp hsplit
    obtain ⟨tail, rfl⟩ := startsWith_iff.mp hclose
    refine bind_alike (@skip_byBytes i _ tail "-->".toList ?_ (by decide)) fun _ _ _ => rfl
    exact Cursor.rest_skip_length hrest
  · rfl

theorem valueMustache_byBytes (hhead : p.cursor.rest.head? = some '{') :
    @valueMustache byBytes i p = @valueMustache byCharacters i p := by
  unfold valueMustache
  rw [expressionToBrace_byBytes]
  exact here_alike (bind_alike (skip_one_byBytes hhead rfl) fun _ _ _ => rfl)

theorem valueChunk_byBytes {quote : Char} (hquote : isAscii quote) (start : Nat) :
    @valueChunk byBytes start quote = @valueChunk byCharacters start quote := by
  funext i p
  refine peek_alike ?_
  by_cases hhead : p.cursor.rest.head? = some '{'
  · rw [hhead]
    exact bind_alike (valueMustache_byBytes hhead) fun _ _ _ => rfl
  · refine run_alike ?_
    rw [textWhile_byBytes (.and (.bne hquote) (.bne rfl))]
    split
    · rfl
    · exact absurd ‹_› hhead
    · rfl

theorem quotedValue_byBytes {quote : Char} (hquote : isAscii quote) (start : Nat) :
    @quotedValue byBytes start quote = @quotedValue byCharacters start quote := by
  funext i p
  refine bind_alike (run_alike (congrArg many (valueChunk_byBytes hquote start))) fun chunks q hq => ?_
  exact bind_alike (skip_one_byBytes (gives_chunks hq).2 hquote) fun _ _ _ => rfl

@[simp] theorem attributeValue_byBytes : @attributeValue byBytes = @attributeValue byCharacters := by
  funext i p
  refine here_alike (peek_alike ?_)
  simp (disch := decide) only [quotedValue_byBytes, readWhile_blankOr_byBytes]
  by_cases hdouble : p.cursor.rest.head? = some '"'
  · rw [hdouble]
    exact bind_alike (skip_one_byBytes hdouble rfl) fun _ _ _ => rfl
  by_cases hsingle : p.cursor.rest.head? = some '\''
  · rw [hsingle]
    exact bind_alike (skip_one_byBytes hsingle rfl) fun _ _ _ => rfl
  by_cases hbrace : p.cursor.rest.head? = some '{'
  · rw [hbrace]
    exact bind_alike (valueMustache_byBytes hbrace) fun _ _ _ => rfl
  refine run_alike ?_
  split
  · exact absurd ‹_› hdouble
  · exact absurd ‹_› hsingle
  · exact absurd ‹_› hbrace
  · rfl

theorem braceAttribute_byBytes (hhead : p.cursor.rest.head? = some '{') :
    @braceAttribute byBytes i p = @braceAttribute byCharacters i p := by
  refine here_alike (bind_alike (skip_one_byBytes hhead rfl) fun _ q _ => here_alike ?_)
  refine scriptUpTo_alike (.atAny (by decide)) fun text htext => cursor_alike ?_
  by_cases hlength : text.length = q.cursor.rest.length
  · rw [if_pos hlength, if_pos hlength]
    exact refuse_alike
  obtain ⟨tail, hrest⟩ := split_of_mark htext hlength
  rw [if_neg hlength, if_neg hlength]
  simp only [trimIn_byBytes, expression_byBytes]
  exact bind_alike (@pass_byBytes i q text tail ['}'] hrest rfl) fun _ _ _ => rfl

@[simp] theorem namedAttribute_byBytes : @namedAttribute byBytes = @namedAttribute byCharacters := by
  simp (disch := decide) only [namedAttribute, readWhile_blankOr_byBytes, eat_byBytes,
    attributeValue_byBytes]

@[simp] theorem attributes_byBytes : @attributes byBytes = @attributes byCharacters := by
  refine congrArg many ?_
  funext i p
  rw [skipBlanks_byBytes]
  refine bind_alike rfl fun _ q _ => peek_alike ?_
  by_cases hhead : q.cursor.rest.head? = some '{'
  · rw [hhead]
    exact bind_alike (braceAttribute_byBytes hhead) fun _ _ _ => rfl
  · refine run_alike ?_
    rw [namedAttribute_byBytes]
    split
    · rfl
    · rfl
    · exact absurd ‹_› hhead
    · rfl

@[simp] theorem openEnd_byBytes : @openEnd byBytes = @openEnd byCharacters := by
  simp only [openEnd, eat_byBytes, expect_byBytes]

@[simp] theorem closeTag_byBytes (name : String) : @closeTag byBytes name = @closeTag byCharacters name := by
  simp only [closeTag, expect_byBytes, skipBlanks_byBytes]

theorem readUpTo?_close_byBytes (name : String) :
    @readUpTo? byBytes ("</" ++ name) = @readUpTo? byCharacters ("</" ++ name) :=
  readUpTo?_byBytes (by simp)

@[simp] theorem topLevelElement_byBytes (name : String) (start : Nat) :
    @topLevelElement byBytes name start = @topLevelElement byCharacters name start := by
  simp only [topLevelElement, topLevelContent, attributes_byBytes, openEnd_byBytes, closeTag_byBytes,
    readUpTo?_close_byBytes]

@[simp] theorem element_byBytes (content : Content) (parent name : String) (start : Nat) :
    @element byBytes content parent name start = @element byCharacters content parent name start := by
  simp only [element, rawChildren, elementChildren, attributes_byBytes, openEnd_byBytes, closeTag_byBytes,
    readUpTo?_close_byBytes]

theorem tag_byBytes {topLevel : Bool} {parent : String} (hhead : p.cursor.rest.head? = some '<') :
    @tag byBytes content topLevel parent i p = @tag byCharacters content topLevel parent i p := by
  unfold tag
  rw [readWhile_byBytes (.and (.and (.not .isMarkupBlank) (.bne rfl)) (.bne rfl))]
  simp only [topLevelElement_byBytes, element_byBytes]
  exact here_alike (bind_alike (skip_one_byBytes hhead rfl) fun _ _ _ => rfl)

@[simp] theorem blockClose_byBytes (keyword : String) :
    @blockClose byBytes keyword = @blockClose byCharacters keyword := by
  simp only [blockClose, expect_byBytes, skipBlanks_byBytes]

@[simp] theorem branchOpen_byBytes (keyword : String) :
    @branchOpen byBytes keyword = @branchOpen byCharacters keyword := by
  simp only [branchOpen, expect_byBytes, skipBlanks_byBytes]

@[simp] theorem elseBranch_byBytes (content : Content) (branch : Nat) :
    @elseBranch byBytes content branch = @elseBranch byCharacters content branch := by
  simp only [elseBranch, expect_byBytes]

theorem skip_if_byBytes (elseIf : Nat → Unit → Read α) (other : Read α) :
    (do
      let c ← cursor
      let word ← wordIn c.rest
      if word = "if" then here >>= fun inner => @skip byBytes 2 >>= elseIf inner else other) =
    (do
      let c ← cursor
      let word ← wordIn c.rest
      if word = "if" then here >>= fun inner => @skip byCharacters 2 >>= elseIf inner else other) := by
  funext i p
  refine cursor_alike (wordIn_alike ?_)
  by_cases hif : word p.cursor.rest = "if"
  · obtain ⟨tail, hrest⟩ := startsWith_iff.mp (startsWith_of_word hif)
    rw [if_pos hif, if_pos hif]
    exact here_alike (bind_alike (@skip_byBytes i p tail "if".toList hrest (by decide)) fun _ _ _ => rfl)
  · rw [if_neg hif, if_neg hif]

theorem ifLink_byBytes (content : Content) (link : Nat → Node → Bool → Read Node) (start : Nat)
    (condition : Node) (nested : Bool) :
    @ifLink byBytes content link start condition nested =
      @ifLink byCharacters content link start condition nested := by
  simp only [ifLink, branchOpen_byBytes, skipBlanks_byBytes, wordIn_byBytes, expressionToBrace_byBytes,
    elseBranch_byBytes, skip_if_byBytes]

@[simp] theorem ifBlock_byBytes (content : Content) (fuel start : Nat) :
    @ifBlock byBytes content fuel start = @ifBlock byCharacters content fuel start := by
  have hchain : @ifChain byBytes content fuel = @ifChain byCharacters content fuel := by
    induction fuel with
    | zero =>
      funext start condition nested
      exact ifLink_byBytes ..
    | succ fuel ih =>
      funext start condition nested
      simp only [ifChain, ih, ifLink_byBytes]
  simp only [ifBlock, hchain, expressionToBrace_byBytes, blockClose_byBytes]

theorem readWhile_isSimpleNameChar_byBytes :
    @readWhile byBytes isSimpleNameChar = @readWhile byCharacters isSimpleNameChar :=
  readWhile_byBytes (.or (.or .isAsciiAlphanumeric (.beq rfl)) (.beq rfl))

@[simp] theorem eachIndex_byBytes : @eachIndex byBytes = @eachIndex byCharacters := by
  simp only [eachIndex, eat_byBytes, skipBlanks_byBytes, readWhile_isSimpleNameChar_byBytes]

@[simp] theorem eachKey_byBytes : @eachKey byBytes = @eachKey byCharacters := by
  funext i p
  unfold eachKey
  rw [eat_byBytes, eat_byBytes, skipBlanks_byBytes, readWhile_isSimpleNameChar_byBytes]
  refine bind_alike rfl fun b q _ => ?_
  cases b with
  | false => simp only [Bool.false_eq_true, ↓reduceIte]
  | true =>
    refine cursor_alike (scriptUpTo_alike (.atAny (by decide)) fun text htext => ?_)
    by_cases hlength : text.length = q.cursor.rest.length
    · rw [if_pos hlength, if_pos hlength]
      exact refuse_alike
    obtain ⟨tail, hrest⟩ := split_of_mark htext hlength
    rw [if_neg hlength, if_neg hlength]
    exact expression_pass_alike [')'] hrest rfl fun _ _ _ _ => rfl

@[simp] theorem branchValue_byBytes : @branchValue byBytes = @branchValue byCharacters := by
  funext i p
  refine cursor_alike (scriptUpTo_alike (.atAny (by decide)) fun text htext => ?_)
  obtain ⟨tail, hrest⟩ := rest_of_takeUntil htext
  rw [blockValue_byBytes, expect_byBytes]
  refine bind_alike rfl fun value q hq => ?_
  rw [← (still_blockValue hq).still] at hrest
  exact bind_alike (pass_zero_byBytes hrest) fun _ _ _ => rfl

@[simp] theorem awaitEnd_byBytes (start : Nat) (sections : Sections) :
    @awaitEnd byBytes start sections = @awaitEnd byCharacters start sections := by
  funext ending
  unfold awaitEnd
  rw [blockClose_byBytes]

@[simp] theorem awaitRejected_byBytes (content : Content) (start : Nat) (sections : Sections) :
    @awaitRejected byBytes content start sections = @awaitRejected byCharacters content start sections := by
  funext ending
  unfold awaitRejected
  simp only [branchOpen_byBytes, branchValue_byBytes, awaitEnd_byBytes]

@[simp] theorem awaitFulfilled_byBytes (content : Content) (start : Nat) (sections : Sections) :
    @awaitFulfilled byBytes content start sections =
      @awaitFulfilled byCharacters content start sections := by
  funext ending
  unfold awaitFulfilled
  simp only [branchOpen_byBytes, branchValue_byBytes, awaitRejected_byBytes]

@[simp] theorem eachBlock_byBytes (content : Content) (start : Nat) :
    @eachBlock byBytes content start = @eachBlock byCharacters content start := by
  funext i p
  simp only [eachBlock, pattern_byBytes, skipBlanks_byBytes, eachIndex_byBytes, eachKey_byBytes,
    expect_byBytes, branchOpen_byBytes, elseBranch_byBytes, blockClose_byBytes]
  refine cursor_alike (scriptUpTo_alike (.atBraceOr (by decide) (by decide)) fun text htext => ?_)
  by_cases hmark : (p.cursor.skip text.length).peek?.all (· == '}') = true
  · rw [if_pos hmark, if_pos hmark]
    exact refuse_alike
  have hmark' : (p.cursor.skip text.length).rest.head?.any (· != '}') := by
    rw [Cursor.peek?] at hmark
    cases hhead : (p.cursor.skip text.length).rest.head? <;> simp_all
  obtain ⟨tail, hrest⟩ := split_of_takeUntil_keyword htext hmark'
  rw [if_neg hmark, if_neg hmark]
  refine expression_pass_alike "as".toList hrest (by decide) fun e _ q _ => ?_
  refine cursor_alike (scriptUpTo_alike (.atAny (by decide)) fun text htext => ?_)
  obtain ⟨tail, hrest⟩ := rest_of_takeUntil htext
  refine bind_alike rfl fun context r hr => ?_
  rw [← (gives_pattern hr).still.still] at hrest
  exact bind_alike (pass_zero_byBytes hrest) fun _ _ _ => rfl

@[simp] theorem awaitBlock_byBytes (content : Content) (start : Nat) :
    @awaitBlock byBytes content start = @awaitBlock byCharacters content start := by
  funext i p
  simp only [awaitBlock, branchValue_byBytes, expect_byBytes, awaitRejected_byBytes, awaitFulfilled_byBytes]
  refine cursor_alike (scriptUpTo_alike (.atBraceOr (by decide) (by decide)) fun text htext => ?_)
  cases hmark : (p.cursor.skip text.length).peek? with
  | none => rfl
  | some mark =>
    obtain ⟨tail, hrest⟩ := rest_of_takeUntil htext
    refine expression_pass_alike [] hrest rfl fun e _ q hq => ?_
    by_cases hcompact : (mark != '}') = true
    · obtain ⟨tail, hthen⟩ := split_of_takeUntil_keyword htext (by
        rw [Cursor.peek?] at hmark
        simpa [hmark] using hcompact)
      replace hthen : q.cursor.rest = "then".toList ++ tail := by
        rw [hq]
        exact Cursor.rest_skip_length hthen
      simp only [hcompact, ↓reduceIte]
      exact bind_alike (@skip_byBytes i q tail "then".toList hthen (by decide)) fun _ _ _ => rfl
    · simp only [hcompact, Bool.false_eq_true, ↓reduceIte]

@[simp] theorem debugIdentifiers_byBytes (start : Nat) (parts : List (List Char)) :
    @debugIdentifiers byBytes start parts = @debugIdentifiers byCharacters start parts := by
  induction parts generalizing start with
  | nil => rfl
  | cons part parts ih => simp only [debugIdentifiers, expression_byBytes, ih]

@[simp] theorem debugTag_byBytes (start : Nat) : @debugTag byBytes start = @debugTag byCharacters start := by
  funext i p
  simp only [debugTag, debugIdentifiers_byBytes]
  refine cursor_alike ?_
  cases hsplit : splitAt? ['}'] p.cursor.rest with
  | none => rfl
  | some parts =>
    obtain ⟨body, rest⟩ := parts
    obtain ⟨hrest, hhead, -⟩ := splitAt?_singleton.mp hsplit
    obtain ⟨tail, rfl⟩ := List.head?_eq_some_iff.mp hhead
    have hpass {q : Progress} (hrest : q.cursor.rest = body ++ ('}' :: tail)) :
        @pass byBytes body 1 i q = @pass byCharacters body 1 i q :=
      @pass_byBytes i q body tail ['}'] hrest rfl
    by_cases hblank : body.all isBlank = true
    · simp only [hblank, ↓reduceIte]
      exact bind_alike rfl fun _ _ hr => bind_alike (hpass ((gives_pure.mp hr).2 ▸ hrest)) fun _ _ _ => rfl
    · simp only [hblank, Bool.false_eq_true, ↓reduceIte]
      refine bind_alike rfl fun es r hr => ?_
      rw [← (gives_debugIdentifiers hr).1.still] at hrest
      exact bind_alike (hpass hrest) fun _ _ _ => rfl

theorem isAscii_of_mem_word {d : Char} (h : d ∈ (word text).toList) : isAscii d := by
  rw [word, String.toList_ofList] at h
  have hletter := List.mem_takeWhile_imp h
  simp only [isAsciiLetter, Bool.or_eq_true, Bool.and_eq_true, decide_eq_true_eq, Char.le_def,
    UInt32.le_iff_toNat_le, Char.toNat_val] at hletter
  have hz : 'z'.toNat = 122 := rfl
  have hZ : 'Z'.toNat = 90 := rfl
  simp only [isAscii, decide_eq_true_eq]
  omega

theorem skip_word_byBytes : @skip byBytes (word p.cursor.rest).length i p =
    @skip byCharacters (word p.cursor.rest).length i p := by
  have hascii : (word p.cursor.rest).toList.all isAscii := List.all_eq_true.mpr fun d => isAscii_of_mem_word
  obtain ⟨tail, hrest⟩ := startsWith_iff.mp (@startsWith_of_word (word p.cursor.rest) p.cursor.rest rfl)
  have hskip := @skip_byBytes i _ _ _ hrest hascii
  rwa [String.length_toList] at hskip

theorem mustache_byBytes (hhead : p.cursor.rest.head? = some '{') :
    @mustache byBytes content fuel i p = @mustache byCharacters content fuel i p := by
  simp only [mustache, skipBlanks_byBytes, eat_byBytes, wordIn_byBytes, ifBlock_byBytes, eachBlock_byBytes,
    awaitBlock_byBytes, expressionToBrace_byBytes, debugTag_byBytes]
  refine here_alike (bind_alike (skip_one_byBytes hhead rfl) fun _ q _ => ?_)
  refine bind_alike rfl fun _ q _ => bind_alike rfl fun b q _ => ?_
  cases b with
  | false => simp only [Bool.false_eq_true, ↓reduceIte]
  | true =>
    simp only [↓reduceIte]
    exact cursor_alike (wordIn_alike (bind_alike skip_word_byBytes fun _ _ _ => rfl))

@[simp] theorem next_byBytes : @next byBytes = @next byCharacters := by
  have hname : Uniform fun c => !isMarkupBlank c && c != '>' := .and (.not .isMarkupBlank) (.bne rfl)
  simp only [next, within_takeWhile hname, within_takeWhile .isMarkupBlank, wordIn_byBytes]

theorem map_alike {x y : Read α} (g : α → β) (h : x i p = y i p) : (g <$> x) i p = (g <$> y) i p := by
  rw [map_eq_pure_bind, map_eq_pure_bind]
  exact bind_alike h fun _ _ _ => rfl

theorem siblings_byBytes (fuel : Nat) (topLevel : Bool) (parent : String) :
    @siblings byBytes fuel topLevel parent = @siblings byCharacters fuel topLevel parent := by
  induction fuel generalizing topLevel parent with
  | zero => rfl
  | succ fuel ih =>
    have hcontent : @siblings byBytes fuel false = @siblings byCharacters fuel false := funext (ih false)
    funext i p
    simp only [siblings, next_byBytes, text_byBytes, ih, hcontent]
    refine bind_alike rfl fun found q hq => ?_
    rw [next_eq] at hq
    simp only [gives_bind, gives_cursor, gives_pure] at hq
    obtain ⟨_, _, ⟨rfl, rfl⟩, rfl, rfl⟩ := hq
    have hnext := startsNext q.cursor
    generalize nextAt q.cursor = found at hnext
    cases hnext with
    | ends => exact @Eq.refl _ (pure (f := Read) _ _ _)
    | comment hstarts => exact bind_alike (map_alike some (comment_byBytes hstarts)) fun _ _ _ => rfl
    | tag hstarts => exact bind_alike (tag_byBytes (by rw [hstarts]; rfl)) fun _ _ _ => rfl
    | mustache hstarts =>
      exact bind_alike (map_alike some (mustache_byBytes (by rw [hstarts]; rfl))) fun _ _ _ => rfl
    | text => exact bind_alike rfl fun _ _ _ => rfl

/-- The rules find the same when they scan the bytes of the source, and nothing they look at is cut off
inside a character or behind the end. -/
theorem parse_byBytes (parser : ScriptParser) (source : List Char) :
    @parse byBytes parser source = @parse byCharacters parser source := by
  simp only [parse, fragment, siblings_byBytes]

end SvelteSyntax.Markup
