import SvelteSyntax.Proofs.Markup.Balanced

namespace SvelteSyntax.Markup.Balanced

open Text

/-- What a part of script text stands in. -/
inductive Context where
  | code
  | quoted (quote : Char)
  | template
  deriving DecidableEq, Repr

def isOpener (c : Char) : Bool := ['{', '[', '('].contains c

def isCloser (c : Char) : Bool := ['}', ']', ')'].contains c

/-- Script text in which everything that is opened is closed again. An opening and a closing bracket
belong together, of whatever kind they are. -/
inductive Closed : Context → List Char → Prop
  | nil (ctx : Context) : Closed ctx []
  | plain {c cs} (hc : isMeaningful c = false) (h : Closed .code cs) :
    Closed .code (c :: cs)
  | slash {cs} (hnext : cs.head? ≠ some '/' ∧ cs.head? ≠ some '*')
    (h : Closed .code cs) : Closed .code ('/' :: cs)
  | string {quote body cs} (hquote : quote = '"' ∨ quote = '\'')
    (hbody : Closed (.quoted quote) body) (h : Closed .code cs) :
    Closed .code (quote :: (body ++ quote :: cs))
  | template {body cs} (hbody : Closed .template body) (h : Closed .code cs) :
    Closed .code ('`' :: (body ++ '`' :: cs))
  | blockComment {body cs} (hbody : ¬['*', '/'] <:+: body) (h : Closed .code cs) :
    Closed .code ('/' :: '*' :: (body ++ '*' :: '/' :: cs))
  | lineComment {body cs} (hbody : '\n' ∉ body) (h : Closed .code cs) :
    Closed .code ('/' :: '/' :: (body ++ '\n' :: cs))
  | group {opener closer inner cs} (hopener : isOpener opener)
    (hcloser : isCloser closer) (hinner : Closed .code inner) (h : Closed .code cs) :
    Closed .code (opener :: (inner ++ closer :: cs))
  | escape {ctx} (c : Char) {cs} (hctx : ctx ≠ .code) (h : Closed ctx cs) :
    Closed ctx ('\\' :: c :: cs)
  | quotedChar {quote c cs} (hc : c ≠ quote ∧ c ≠ '\\')
    (h : Closed (.quoted quote) cs) : Closed (.quoted quote) (c :: cs)
  | templateChar {c cs} (hc : c ≠ '`' ∧ c ≠ '\\')
    (hnext : c = '$' → cs.head? ≠ some '{') (h : Closed .template cs) :
    Closed .template (c :: cs)
  | substitution {inner cs} (hinner : Closed .code inner) (h : Closed .template cs) :
    Closed .template ('$' :: '{' :: (inner ++ '}' :: cs))

/-- The construct that is open in a context. -/
def Context.frame (depth : Nat) : Context → Frame
  | .code => .code depth
  | .quoted quote => .quoted quote
  | .template => .template

/-- Whether a context can end before a character. -/
def Context.endsAt (c : Char) : Context → Bool
  | .code => isCloser c
  | .quoted quote => c == quote
  | .template => c == '`'

/-- Scanning the text as a script from some open constructs on closes them all, and there is no place
outside of them where to stop. A blank follows the text. -/
def Passes (stop : Stop) : List Frame → Option Char → List Char → Prop
  | frames, _, [] => frames = [.code 0]
  | frames, prev, c :: cs =>
    ¬(frames = [.code 0] ∧ stop prev (c :: cs ++ [' '])) ∧
      Passes stop (step frames c (cs ++ [' ']).head?) (some c) cs

/-- The text has no place outside all its brackets, strings, templates and comments where to stop. A
closing bracket is never such a place: closed text has none there. -/
def StopsNowhere (stop : Stop) (prev : Option Char) (after text : List Char) : Prop :=
  ∀ u c v, text = u ++ c :: v → Closed .code u → isCloser c = false →
    stop (u.getLast?.or prev) (c :: v ++ after) = false

theorem stopsNowhere_of_splits {stop : Stop} {prev : Option Char} {after text : List Char}
    (h : ∀ k < text.length, (text.drop k).head?.any isCloser = false →
      stop ((text.take k).getLast?.or prev) (text.drop k ++ after) = false) :
    StopsNowhere stop prev after text := by
  rintro u c v rfl - hc
  simpa [hc] using h u.length (by simp)

/-- A place to stop is told by the text up to the character after a script. -/
def Stop.Local (stop : Stop) (d : Char) : Prop :=
  ∀ prev cs rest, cs ≠ [] → stop prev (cs ++ d :: rest) = stop prev (cs ++ [' '])

variable {body : List Char}

section

variable {stop : Stop} {cs more after : List Char} {frames frames' outer : List Frame} {c d : Char}
  {prev : Option Char}

theorem local_atAny (marks : List Char) (d : Char) : (atAny marks).Local d := by
  intro prev cs rest hne
  cases cs with
  | nil => exact absurd rfl hne
  | cons c cs => rfl

theorem getLast?_append_cons_or (xs cs : List Char) (prev : Option Char) :
    (xs ++ c :: cs).getLast?.or prev = cs.getLast?.or (some c) := by
  cases cs with
  | nil => simp
  | cons d cs => simp [List.getLast?_append, List.getLast?_cons]

theorem StopsNowhere.head (h : StopsNowhere stop prev after (c :: cs)) (hc : isCloser c = false) :
    stop prev (c :: cs ++ after) = false :=
  h [] c cs rfl (.nil _) hc

theorem StopsNowhere.tail (xs : List Char) (h : StopsNowhere stop prev after (xs ++ c :: cs))
    (hclosed : ∀ u d v, cs = u ++ d :: v → Closed .code u → Closed .code (xs ++ c :: u)) :
    StopsNowhere stop (some c) after cs := by
  intro u d v hcs hu hd
  have hstop := h (xs ++ c :: u) d v (by rw [hcs]; simp) (hclosed u d v hcs hu) hd
  rwa [getLast?_append_cons_or] at hstop

theorem Passes.cons (hgo : frames = [.code 0] → stop prev (c :: cs ++ [' ']) = false)
    (hstep : step frames c (cs ++ [' ']).head? = frames') (h : Passes stop frames' (some c) cs) :
    Passes stop frames prev (c :: cs) := by
  refine ⟨?_, hstep ▸ h⟩
  rintro ⟨hframes, hstop⟩
  rw [hgo hframes] at hstop
  cases hstop

theorem Passes.code {depth} (hgo : .code depth :: outer = [.code 0] → stop prev (c :: cs ++ [' ']) = false)
    (hc : isCloser c = false) (hstep : stepCode depth outer c (cs ++ [' ']).head? = frames')
    (h : Passes stop frames' (some c) cs) : Passes stop (.code depth :: outer) prev (c :: cs) := by
  refine .cons hgo ?_ h
  rw [step, if_neg, hstep]
  rintro ⟨-, -, rfl⟩
  cases hc

theorem Passes.skip (h : Passes stop outer (some c) cs) : Passes stop (.skip :: outer) prev (c :: cs) :=
  .cons (by simp) rfl h

theorem stepCode_slash {next} (h : next ≠ some '/' ∧ next ≠ some '*') (depth : Nat)
    (outer : List Frame) : stepCode depth outer '/' next = .code depth :: outer := by
  simp only [stepCode]
  split
  · exact absurd rfl h.2
  · exact absurd rfl h.1
  · rfl

theorem not_isCloser_of_isOpener (h : isOpener c) : isCloser c = false := by
  simp only [isOpener, List.contains_iff_mem, List.mem_cons, List.not_mem_nil, or_false] at h
  rcases h with rfl | rfl | rfl <;> rfl

theorem stepCode_of_isOpener (h : isOpener c) (depth : Nat) (outer : List Frame)
    (next : Option Char) : stepCode depth outer c next = .code (depth + 1) :: outer := by
  simp only [isOpener, List.contains_iff_mem, List.mem_cons, List.not_mem_nil, or_false] at h
  rcases h with rfl | rfl | rfl <;> rfl

theorem stepCode_of_isCloser (h : isCloser c) (depth : Nat) (outer : List Frame)
    (next : Option Char) : stepCode depth outer c next = .code (depth - 1) :: outer := by
  simp only [isCloser, List.contains_iff_mem, List.mem_cons, List.not_mem_nil, or_false] at h
  rcases h with rfl | rfl | rfl <;> rfl

theorem Passes.closer {depth} (hc : isCloser c) (h : Passes stop (.code depth :: outer) (some c) cs) :
    Passes stop (.code (depth + 1) :: outer) prev (c :: cs) := by
  refine .cons (by simp) ?_ h
  rw [step, if_neg (by simp), stepCode_of_isCloser hc, Nat.add_sub_cancel]

theorem Passes.substitutionEnd (h : Passes stop (.template :: outer) (some '}') cs) :
    Passes stop (.code 0 :: .template :: outer) prev ('}' :: cs) :=
  .cons (by simp) (by simp [step]) h

theorem Passes.stringEnd (hc : c ≠ '\\') (h : Passes stop outer (some c) cs) :
    Passes stop (.quoted c :: outer) prev (c :: cs) :=
  .cons (by simp) (by rw [step, if_neg hc, if_pos rfl]) h

theorem Passes.blockComment (hbody : ¬['*', '/'] <:+: body) (h : Passes stop outer (some '/') cs) :
    Passes stop (.blockComment :: outer) prev (body ++ '*' :: '/' :: cs) := by
  induction body generalizing prev with
  | nil => exact .cons (by simp) rfl h.skip
  | cons c body ih =>
    have hrest : ¬['*', '/'] <:+: body := fun hin => hbody (hin.trans (List.suffix_cons c body).isInfix)
    refine .cons (by simp) (if_neg ?_) (ih hrest)
    rintro ⟨rfl, hnext⟩
    cases body with
    | nil => simp at hnext
    | cons d body =>
      cases hnext
      exact hbody ⟨[], body, rfl⟩

theorem Passes.lineComment (hbody : '\n' ∉ body) (h : Passes stop outer (some '\n') cs) :
    Passes stop (.lineComment :: outer) prev (body ++ '\n' :: cs) := by
  induction body generalizing prev with
  | nil => exact .cons (by simp) rfl h
  | cons c body ih =>
    rw [List.mem_cons, not_or] at hbody
    exact .cons (by simp) (if_neg (Ne.symm hbody.1)) (ih hbody.2)

/-- Closed text is passed over, wherever it stands, up to what ends its context. Only text that stands
outside of everything can be stopped in. -/
theorem Closed.passes {ctx w} (h : Closed ctx w) {depth : Nat}
    (hend : (more ++ [' ']).head?.all fun c => ctx.endsAt c || c == ' ')
    (hstop : ctx.frame depth :: outer = [.code 0] → StopsNowhere stop prev (more ++ [' ']) w)
    (hmore : Passes stop (ctx.frame depth :: outer) (w.getLast?.or prev) more) :
    Passes stop (ctx.frame depth :: outer) prev (w ++ more) := by
  induction h generalizing depth outer prev more with
  | nil => exact hmore
  | @plain c cs hc h ih =>
    have hcloser : isCloser c = false := by simp_all [isMeaningful, isCloser]
    rw [← List.nil_append (c :: cs), getLast?_append_cons_or] at hmore
    refine .code (fun hframes => by simpa using (hstop hframes).head hcloser) hcloser
      (stepCode_of_meaningless hc ..) (ih hend (fun hframes => ?_) hmore)
    exact StopsNowhere.tail [] (hstop hframes) fun u _ _ _ hu => .plain hc hu
  | @slash cs hnext h ih =>
    rw [← List.nil_append ('/' :: cs), getLast?_append_cons_or] at hmore
    refine .code (fun hframes => by simpa using (hstop hframes).head rfl) rfl (stepCode_slash ?_ ..)
      (ih hend (fun hframes => ?_) hmore)
    · cases cs with
      | nil =>
        constructor <;> intro hhead <;> change (more ++ [' ']).head? = _ at hhead <;>
          simp [hhead, Context.endsAt, isCloser] at hend
      | cons d cs => exact hnext
    · refine StopsNowhere.tail [] (hstop hframes) fun u d v hcs hu => .slash ?_ hu
      cases u with
      | nil => simp
      | cons e u =>
        rw [hcs] at hnext
        exact hnext
  | @string quote body cs hquote hbody h ihbody ih =>
    have hslash : quote ≠ '\\' := by rcases hquote with rfl | rfl <;> decide
    have hcloser : isCloser quote = false := by rcases hquote with rfl | rfl <;> rfl
    have hopen : stepCode depth outer quote ((body ++ quote :: cs) ++ more ++ [' ']).head? =
        .quoted quote :: .code depth :: outer := by
      rcases hquote with rfl | rfl <;> rfl
    rw [← List.cons_append, getLast?_append_cons_or] at hmore
    have hcs : Passes stop (.code depth :: outer) (some quote) (cs ++ more) := by
      refine ih hend (fun hframes => ?_) hmore
      exact StopsNowhere.tail (quote :: body) (hstop hframes) fun u _ _ _ hu =>
        .string hquote hbody hu
    have hinner := @ihbody (quote :: (cs ++ more)) (.code depth :: outer) (some quote) depth
      (by simp [Context.endsAt]) (by simp) (hcs.stringEnd hslash)
    refine .code (fun hframes => by simpa using (hstop hframes).head hcloser) hcloser hopen ?_
    change Passes stop _ _ ((body ++ quote :: cs) ++ more)
    rw [List.append_assoc]
    exact hinner
  | @template body cs hbody h ihbody ih =>
    rw [← List.cons_append, getLast?_append_cons_or] at hmore
    have hcs : Passes stop (.code depth :: outer) (some '`') (cs ++ more) := by
      refine ih hend (fun hframes => ?_) hmore
      exact StopsNowhere.tail ('`' :: body) (hstop hframes) fun u _ _ _ hu => .template hbody hu
    have hinner := @ihbody ('`' :: (cs ++ more)) (.code depth :: outer) (some '`') depth
      (by simp [Context.endsAt]) (by simp) (.cons (by simp [Context.frame]) rfl hcs)
    refine .code (fun hframes => by simpa using (hstop hframes).head rfl) rfl rfl ?_
    change Passes stop _ _ ((body ++ '`' :: cs) ++ more)
    rw [List.append_assoc]
    exact hinner
  | @blockComment body cs hbody h ih =>
    have hlast : '/' :: '*' :: (body ++ '*' :: '/' :: cs) = ('/' :: '*' :: (body ++ ['*'])) ++ '/' :: cs := by
      simp
    rw [hlast, getLast?_append_cons_or] at hmore
    have hcs : Passes stop (.code depth :: outer) (some '/') (cs ++ more) := by
      refine ih hend (fun hframes => ?_) hmore
      refine StopsNowhere.tail ('/' :: '*' :: (body ++ ['*'])) (hlast ▸ hstop hframes) ?_
      intro u _ _ _ hu
      simpa using Closed.blockComment hbody hu
    have hinner : Passes stop (.blockComment :: .code depth :: outer) (some '*')
        (body ++ '*' :: '/' :: (cs ++ more)) := hcs.blockComment hbody
    refine .code (fun hframes => by simpa using (hstop hframes).head rfl) rfl rfl ?_
    exact .skip (by simpa using hinner)
  | @lineComment body cs hbody h ih =>
    have hlast : '/' :: '/' :: (body ++ '\n' :: cs) = ('/' :: '/' :: body) ++ '\n' :: cs := rfl
    rw [hlast, getLast?_append_cons_or] at hmore
    have hcs : Passes stop (.code depth :: outer) (some '\n') (cs ++ more) := by
      refine ih hend (fun hframes => ?_) hmore
      exact StopsNowhere.tail ('/' :: '/' :: body) (hstop hframes) fun u _ _ _ hu =>
        .lineComment hbody hu
    have hinner : Passes stop (.lineComment :: .code depth :: outer) (some '/')
        (body ++ '\n' :: (cs ++ more)) := hcs.lineComment hbody
    have hsecond : Passes stop (.lineComment :: .code depth :: outer) (some '/')
        ('/' :: ((body ++ '\n' :: cs) ++ more)) := by
      rw [List.append_assoc]
      exact .cons (by simp) rfl hinner
    exact .code (fun hframes => by simpa using (hstop hframes).head rfl) rfl rfl hsecond
  | @group opener closer inner cs hopener hcloser hinner h ihinner ih =>
    have hopen := not_isCloser_of_isOpener hopener
    rw [← List.cons_append, getLast?_append_cons_or] at hmore
    have hcs : Passes stop (.code depth :: outer) (some closer) (cs ++ more) := by
      refine ih hend (fun hframes => ?_) hmore
      exact StopsNowhere.tail (opener :: inner) (hstop hframes) fun u _ _ _ hu =>
        .group hopener hcloser hinner hu
    have hgroup := @ihinner (closer :: (cs ++ more)) outer (some opener) (depth + 1)
      (by simp [Context.endsAt, hcloser]) (by simp [Context.frame]) (hcs.closer hcloser)
    refine .code (fun hframes => by simpa using (hstop hframes).head hopen) hopen
      (stepCode_of_isOpener hopener ..) ?_
    change Passes stop _ _ ((inner ++ closer :: cs) ++ more)
    rw [List.append_assoc]
    exact hgroup
  | @escape ctx c cs hctx h ih =>
    have hlast : '\\' :: c :: cs = ['\\'] ++ c :: cs := rfl
    rw [hlast, getLast?_append_cons_or] at hmore
    cases ctx with
    | code => exact absurd rfl hctx
    | quoted quote =>
      exact .cons (by simp [Context.frame]) rfl (.skip (ih hend (by simp [Context.frame]) hmore))
    | template =>
      exact .cons (by simp [Context.frame]) rfl (.skip (ih hend (by simp [Context.frame]) hmore))
  | @quotedChar quote c cs hc h ih =>
    rw [← List.nil_append (c :: cs), getLast?_append_cons_or] at hmore
    refine .cons (by simp [Context.frame]) ?_ (ih hend (by simp [Context.frame]) hmore)
    rw [Context.frame, step, if_neg hc.2, if_neg hc.1]
  | @templateChar c cs hc hnext h ih =>
    rw [← List.nil_append (c :: cs), getLast?_append_cons_or] at hmore
    refine .cons (by simp [Context.frame]) ?_ (ih hend (by simp [Context.frame]) hmore)
    have hplain : ¬(c = '$' ∧ (cs ++ more ++ [' ']).head? = some '{') := by
      rintro ⟨hdollar, hnext'⟩
      cases cs with
      | nil =>
        rw [List.nil_append] at hnext'
        simp [hnext', Context.endsAt] at hend
      | cons e cs => exact hnext hdollar hnext'
    change step (.template :: outer) c (cs ++ more ++ [' ']).head? = _
    rw [step, if_neg hc.2, if_neg hc.1, if_neg hplain]
    rfl
  | @substitution inner cs hinner h ihinner ih =>
    have hlast : '$' :: '{' :: (inner ++ '}' :: cs) = ('$' :: '{' :: inner) ++ '}' :: cs := rfl
    rw [hlast, getLast?_append_cons_or] at hmore
    have hcs := ih hend (by simp [Context.frame]) hmore
    have hcode := @ihinner ('}' :: (cs ++ more)) (.template :: outer) (some '{') 0
      (by simp [Context.endsAt, isCloser]) (by simp [Context.frame]) (.substitutionEnd hcs)
    have hbrace : Passes stop (.skip :: .code 0 :: .template :: outer) (some '$')
        ('{' :: ((inner ++ '}' :: cs) ++ more)) := by
      rw [List.append_assoc]
      exact .skip hcode
    exact .cons (by simp [Context.frame]) rfl hbrace

theorem step_eq_blank (hd : d ∉ ['*', '/', '{']) (frames : List Frame) (c : Char) :
    step frames c (some d) = step frames c (some ' ') := by
  simp only [List.mem_cons, List.not_mem_nil, or_false, not_or] at hd
  obtain ⟨hstar, hslash, hbrace⟩ := hd
  have hcode : ∀ depth outer, stepCode depth outer c (some d) = stepCode depth outer c (some ' ') := by
    intro depth outer
    unfold stepCode
    split
    case h_4 => split <;> simp_all
    all_goals rfl
  unfold step
  split <;> simp_all

theorem takeFrom_append_of_passes {text : List Char} (hlocal : stop.Local d) (hd : d ∉ ['*', '/', '{'])
    (h : Passes stop frames prev text) (rest : List Char) :
    takeFrom stop frames prev (text ++ d :: rest) =
      text ++ takeFrom stop [.code 0] (text.getLast?.or prev) (d :: rest) := by
  induction text generalizing frames prev with
  | nil =>
    rw [Passes] at h
    rw [h]
    rfl
  | cons c text ih =>
    obtain ⟨hstop, hmore⟩ := h
    have hnext : step frames c (text ++ d :: rest).head? = step frames c (text ++ [' ']).head? := by
      cases text with
      | nil => exact step_eq_blank hd frames c
      | cons x text => rfl
    have hgo : ¬(frames = [.code 0] ∧ stop prev (c :: (text ++ d :: rest))) := by
      rw [← List.cons_append, hlocal prev (c :: text) rest (by simp)]
      exact hstop
    rw [List.cons_append, takeFrom, if_neg hgo, hnext, ih hmore, ← List.nil_append (c :: text),
      getLast?_append_cons_or]
    rfl

/-- Closed text without a place to stop is taken as a whole, up to a character that ends it. -/
theorem Closed.takeFrom_append {text : List Char} (h : Closed .code text)
    (hnowhere : StopsNowhere stop prev [' '] text) (hlocal : stop.Local d) (hd : d ∉ ['*', '/', '{'])
    (rest : List Char) :
    takeFrom stop [.code 0] prev (text ++ d :: rest) =
      text ++ takeFrom stop [.code 0] (text.getLast?.or prev) (d :: rest) := by
  refine takeFrom_append_of_passes hlocal hd ?_ rest
  have hpasses := @Closed.passes stop [] [] prev .code text h 0 (by simp) (fun _ => hnowhere) rfl
  rwa [List.append_nil] at hpasses

end

/-- Script text in braces ends at the brace that closes them, whatever stands in its strings,
templates, comments and brackets. -/
theorem takeUntil_closed {w : List Char} (h : Closed .code w) (prev : Option Char)
    (rest : List Char) : takeUntil (atAny ['}']) prev (w ++ '}' :: rest) = w := by
  have hnowhere : StopsNowhere (atAny ['}']) prev [' '] w := by
    intro u c v _ _ hc
    have hne : c ≠ '}' := by
      rintro rfl
      cases hc
    simpa [atAny] using hne
  rw [takeUntil, h.takeFrom_append hnowhere (local_atAny _ _) (by decide), takeFrom,
    if_pos (by simp [atAny]), List.append_nil]

theorem takeUntil_closed_nested :
    Closed .code "[`$\x7b'\x7d'\x7d`]/*\x7d*/".toList ∧
      takeUntil (atAny ['}']) none ("[`$\x7b'\x7d'\x7d`]/*\x7d*/".toList ++ '}' :: ['}']) =
        "[`$\x7b'\x7d'\x7d`]/*\x7d*/".toList := by
  have hstring : Closed .code ['\'', '}', '\''] :=
    @Closed.string '\'' ['}'] [] (.inr rfl) (.quotedChar (by decide) (.nil _)) (.nil _)
  have htemplate : Closed .code ['`', '$', '{', '\'', '}', '\'', '}', '`'] :=
    @Closed.template _ [] (@Closed.substitution _ [] hstring (.nil _)) (.nil _)
  have hcomment : Closed .code ['/', '*', '}', '*', '/'] :=
    @Closed.blockComment ['}'] [] (by decide) (.nil _)
  have hgroup : Closed .code "[`$\x7b'\x7d'\x7d`]/*\x7d*/".toList :=
    @Closed.group '[' ']' _ _ rfl rfl htemplate hcomment
  exact ⟨hgroup, takeUntil_closed hgroup none ['}']⟩

end SvelteSyntax.Markup.Balanced
