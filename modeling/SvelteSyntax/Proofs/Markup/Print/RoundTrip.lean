import SvelteSyntax.Proofs.Markup.Print.Await
import SvelteSyntax.Proofs.Markup.Spans

namespace SvelteSyntax.Markup

open Text Script

variable {i : Input} {before rest cs : List Char} {content : Content} {size start fuel : Nat}
  {c : Cursor} {d : Char} {item : Item} {items : List Item} {e : Snippet}

theorem next_text (h : c.rest = d :: cs) (hd : isTextChar d) :
    nextAt c = .text := by
  simp only [isTextChar, Bool.and_eq_true, bne_iff_ne] at hd
  obtain ⟨hangle, hbrace⟩ := hd
  have hcomment : startsWith "<!--".toList c.rest = false := by
    rw [h]
    simp [startsWith, Ne.symm hangle]
  unfold nextAt
  rw [hcomment, h]
  split
  · contradiction
  · split <;> simp_all

theorem next_comment (h : c.rest = "<!--".toList ++ cs) : nextAt c = .comment := by
  unfold nextAt
  rw [h, if_pos (startsWith_append_self ..)]

theorem next_mustache (h : c.rest = '{' :: d :: cs) (hblank : isMarkupBlank d = false) (hslash : d ≠ '/')
    (hcolon : d ≠ ':') : nextAt c = .mustache := by
  have hcomment : startsWith "<!--".toList c.rest = false := by
    rw [h]
    rfl
  unfold nextAt
  rw [hcomment, h]
  simp only [Bool.false_eq_true, ↓reduceIte]
  rw [List.dropWhile_cons_of_neg (by simp [hblank])]
  split <;> simp_all

theorem startsWith_append_cons {pre tail} (hd : d ∉ pre) (h : startsWith pre cs = false) :
    startsWith pre (cs ++ d :: tail) = false := by
  induction pre generalizing cs with
  | nil => cases h
  | cons p pre ih =>
    cases cs with
    | nil =>
      have hp : p ≠ d := by
        rintro rfl
        exact hd (List.mem_cons_self ..)
      simp [startsWith, hp]
    | cons c cs =>
      simp only [List.cons_append, startsWith] at h ⊢
      cases hc : p == c with
      | false => rfl
      | true =>
        rw [hc, Bool.true_and] at h
        exact ih (fun hmem => hd (List.mem_cons_of_mem _ hmem)) h

theorem next_tag {name tail} (hname : OrdinaryName name) (h : c.rest = '<' :: (name ++ d :: tail))
    (hd : d = ' ' ∨ d = '>') : nextAt c = .tag := by
  have hcomment : startsWith "<!--".toList c.rest = false := by
    rw [h]
    refine startsWith_append_cons ?_ hname.no_comment
    rcases hd with rfl | rfl <;> decide
  obtain ⟨x, name', rfl⟩ := List.exists_cons_of_ne_nil hname.ne_nil
  have hx : x ≠ '/' := by
    rintro rfl
    have hslash := hname.chars '/' (by simp)
    cases hslash
  unfold nextAt
  rw [hcomment, h]
  split <;> simp_all

theorem reads_mustacheTag (h : (Item.mustache e).Printable i.parser) (hstart : byteLength before = start)
    (parent : String) :
    Reads (mustache content fuel) i before (Item.mustache e).print rest
      ((Item.mustache e).node parent start) := by
  obtain ⟨hmark, he⟩ := h
  subst hstart
  obtain ⟨d, text, htext⟩ := List.exists_cons_of_ne_nil he.ne_nil
  have hblank := he.first
  rw [htext] at hmark hblank
  have hread : Reads expressionToBrace i (before ++ ['{']) (e.text ++ ['}']) rest
      (e.node (byteLength before + 1)) := by
    have hread : Reads expressionToBrace i (before ++ ['{']) ([] ++ (e.text ++ ['}'])) rest _ :=
      reads_expressionToBrace he (.inl rfl)
    rw [byteLength_append] at hread
    exact hread
  have hstarts : ∀ word : List Char, word.head?.any (['#', '/', ':', '@'].contains ·) →
      startsWith word (e.text ++ ['}'] ++ rest) = false := by
    intro word hword
    cases word with
    | nil => cases hword
    | cons w word =>
      have hne : w ≠ d := by
        rintro rfl
        have hword : ['#', '/', ':', '@'].contains w := hword
        have hmark : (!(['#', '/', ':', '@'].contains w)) = true := hmark
        rw [hword] at hmark
        cases hmark
      rw [htext]
      simp [startsWith, hne]
  refine .of_here (.bind_char (.skip rfl) (.bind_still (.skipNoBlanks ?_)
    (.bind_still (.eat_not (hstarts _ rfl)) (.bind_still (.eat_not (hstarts _ rfl))
      (.bind_still (.eat_not (hstarts _ rfl)) (.bind_last hread (.finish ?_)))))))
  · rw [htext]
    exact hblank
  · rw [Item.print, byteLength_append, byteLength_append, byteLength_cons]
    simp only [byteLength_cons, byteLength_nil]
    omega

theorem reads_html (h : (Item.html e).Printable i.parser) (hstart : byteLength before = start)
    (parent : String) :
    Reads (mustache content fuel) i before (Item.html e).print rest
      ((Item.html e).node parent start) := by
  subst hstart
  have hread : Reads expressionToBrace i (before ++ ['{'] ++ "@html".toList) (' ' :: (e.text ++ ['}'])) rest
      (e.node (byteLength before + 7)) := by
    have hread : Reads expressionToBrace i (before ++ ['{'] ++ "@html".toList) ([' '] ++ (e.text ++ ['}'])) rest
      _ := reads_expressionToBrace h (.inr rfl)
    rw [byteLength_append, byteLength_append] at hread
    exact hread
  change Reads _ i before ('{' :: ("@html".toList ++ ' ' :: (e.text ++ ['}']))) rest _
  refine .of_here (.bind_char (.skip rfl) (.bind_still (.skipNoBlanks rfl)
    (.bind_still (.eat_not rfl) (.bind (.eat "@html") (.bind_last hread (.finish ?_))))))
  rw [byteLength_append, byteLength_append, byteLength_append, Item.print, byteLength_append,
    show byteLength (tagOpen '@' "html") = 6 from rfl, show byteLength "@html".toList = 5 from rfl,
    show byteLength ['{'] = 1 from rfl]
  omega

def blockRule (content : Content) (fuel start : Nat) (keyword : String) : Read Node :=
  if keyword = "if" then ifBlock content fuel start
  else if keyword = "each" then eachBlock content start
  else if keyword = "await" then awaitBlock content start
  else here >>= refuse "expected-block-type" "Expected if, each or await"

theorem reads_block {keyword text n} (hletters : keyword.toList.all isAsciiLetter)
    (htext : text.head? = some ' ')
    (h : Reads (blockRule content fuel (byteLength before) keyword) i (before ++ tagOpen '#' keyword) text
      rest n) :
    Reads (mustache content fuel) i before (tagOpen '#' keyword ++ text) rest n := by
  have hword : ∀ c : Cursor, c.rest = keyword.toList ++ text ++ rest → word c.rest = keyword := by
    intro c hc
    obtain ⟨tail, rfl⟩ := List.head?_eq_some_iff.mp htext
    rw [hc, List.append_assoc]
    exact word_append hletters rfl
  change Reads _ i before ('{' :: '#' :: (keyword.toList ++ text)) rest n
  refine .of_here (.bind_char (.skip rfl) (.bind_still (.skipNoBlanks rfl)
    (.bind_char (.eat "#") (.of_cursor fun c hc _ => ?_))))
  rw [wordIn_eq, pure_bind, hword c hc]
  refine .bind (.skip (by rw [String.length_toList])) ?_
  simp only [tagOpen, List.append_assoc, List.singleton_append] at h ⊢
  rw [blockRule] at h
  split
  · exact h
  · exact h
  · exact h
  · simp_all

theorem reads_mustache (hcontent : ReadsBelow content i fuel) (h : item.Printable i.parser)
    (hbrace : item.print.head? = some '{') (htext : item.isText = false)
    (hsize : item.print.length ≤ fuel) (hstart : byteLength before = start) (parent : String) :
    Reads (mustache content fuel) i before item.print rest (item.node parent start) := by
  subst hstart
  cases item with
  | text data => cases htext
  | comment data => cases hbrace
  | element name attributes children => cases hbrace
  | mustache e => exact reads_mustacheTag h rfl parent
  | html e => exact reads_html h rfl parent
  | ifBlock e children more =>
    obtain ⟨he, hchildren, hmore⟩ := h
    have hkeyword : byteLength (before ++ tagOpen '#' "if") = byteLength before + 4 := byteLength_append ..
    rw [Item.print] at hsize ⊢
    simp only [List.length_append, List.length_cons] at hsize
    refine reads_block (by decide) rfl ?_
    exact reads_ifBlock hcontent he hchildren hmore (by rw [List.length_append]; omega) (by omega)
      hkeyword parent
  | each list context index key children other =>
    have hkeyword : byteLength (before ++ tagOpen '#' "each") = byteLength before + 6 :=
      byteLength_append ..
    rw [Item.print] at hsize ⊢
    simp only [List.length_append, List.length_cons] at hsize
    refine reads_block (by decide) rfl ?_
    exact reads_eachBlock hcontent h (by rw [List.length_append]; omega) hkeyword parent
  | await e pending fulfilled rejected =>
    have hkeyword : byteLength (before ++ tagOpen '#' "await") = byteLength before + 7 :=
      byteLength_append ..
    rw [Item.print] at hsize ⊢
    simp only [List.length_append, List.length_cons] at hsize
    refine reads_block (by decide) rfl ?_
    exact reads_awaitBlock_pending hcontent h (by simp only [List.length_append]; omega) hkeyword parent
  | awaitThen e value children rejected =>
    have hkeyword : byteLength (before ++ tagOpen '#' "await") = byteLength before + 7 :=
      byteLength_append ..
    rw [Item.print] at hsize ⊢
    simp only [List.length_append, List.length_cons] at hsize
    refine reads_block (by decide) rfl ?_
    exact reads_awaitBlock_then hcontent h (by rw [List.length_append]; omega) hkeyword parent

theorem head_print (h : item.isText = false) :
    item.print.head? = some '<' ∨ item.print.head? = some '{' := by
  cases item with
  | text data => cases h
  | comment data => exact .inl rfl
  | element name attributes children => exact .inl rfl
  | mustache e => exact .inr rfl
  | html e => exact .inr rfl
  | ifBlock e children more => exact .inr rfl
  | each list context index key children other => exact .inr rfl
  | await e pending fulfilled rejected => exact .inr rfl
  | awaitThen e value children rejected => exact .inr rfl

theorem print_ne_nil {parser} (h : item.Printable parser) :
    item.print ≠ [] := by
  cases htext : item.isText with
  | true =>
    cases item with
    | text data => exact h.1
    | _ => cases htext
  | false =>
    intro hnil
    have hhead := head_print htext
    rw [hnil] at hhead
    rcases hhead with hhead | hhead <;> cases hhead

theorem head_printAll {ending} (h : items.head?.all (!·.isText)) (hends : Ends rest ending) :
    (printAll items ++ rest).head?.all (!isTextChar ·) := by
  cases items with
  | nil => exact hends.head
  | cons item items =>
    have hitem : item.isText = false := by simpa using h
    rcases head_print hitem with hhead | hhead
    · obtain ⟨tail, htail⟩ := List.head?_eq_some_iff.mp hhead
      rw [printAll, htail]
      rfl
    · obtain ⟨tail, htail⟩ := List.head?_eq_some_iff.mp hhead
      rw [printAll, htail]
      rfl

theorem next_of_brace (h : item.Printable i.parser) (htext : item.isText = false)
    (hbrace : item.print.head? = some '{') (hc : c.rest = item.print ++ rest) : nextAt c = .mustache := by
  cases item with
  | text data => cases htext
  | comment data => cases hbrace
  | element name attributes children => cases hbrace
  | mustache e =>
    obtain ⟨hmark, he⟩ := h
    obtain ⟨d, text, hd⟩ := List.exists_cons_of_ne_nil he.ne_nil
    have hblank := he.first
    rw [hd] at hmark hblank
    rw [Item.print, hd] at hc
    simp only [List.head?_cons, Option.all_some, List.contains_cons, List.contains_nil, Bool.or_false,
      Bool.not_eq_true', Bool.or_eq_false_iff, beq_eq_false_iff_ne] at hmark hblank
    exact next_mustache hc hblank hmark.2.1 hmark.2.2.1
  | html e => exact next_mustache hc rfl (by decide) (by decide)
  | ifBlock e children more => exact next_mustache hc rfl (by decide) (by decide)
  | each list context index key children other => exact next_mustache hc rfl (by decide) (by decide)
  | await e pending fulfilled rejected => exact next_mustache hc rfl (by decide) (by decide)
  | awaitThen e value children rejected => exact next_mustache hc rfl (by decide) (by decide)

theorem next_of_element {name attributes children} (hname : OrdinaryName name)
    (hc : c.rest = (Item.element name attributes children).print ++ rest) :
    nextAt c = .tag := by
  rw [Item.print] at hc
  simp only [List.cons_append, List.append_assoc] at hc
  cases attributes with
  | nil => exact next_tag hname hc (.inr rfl)
  | cons a attributes => exact next_tag hname hc (.inl rfl)

theorem reads_siblings {topLevel parent ending first} (h : AllPrintable i.parser items)
    (hfuel : (printAll items).length < fuel) (hends : Ends rest ending)
    (hfirst : byteLength before = first) :
    Reads (siblings fuel topLevel parent) i before (printAll items) rest
      (nodesFrom parent first items, ending (first + byteLength (printAll items))) := by
  induction fuel generalizing topLevel parent items ending first before rest with
  | zero => cases hfuel
  | succ fuel ih =>
    have hcontent : ReadsBelow (siblings fuel false) i fuel :=
      fun items h hsize parent _ _ _ _ hends hfirst => ih h hsize hends hfirst
    cases items with
    | nil =>
      refine .of_next fun c hc hoffset => ?_
      rw [hends.next c hc, hoffset, hfirst]
      exact .pure _
    | cons item items =>
      obtain ⟨hitem, hadjacent, hitems⟩ := h
      have hpos := List.length_pos_iff.mpr (print_ne_nil hitem)
      rw [printAll, List.length_append] at hfuel
      have hmore : Reads (siblings fuel topLevel parent) i (before ++ item.print) (printAll items) rest
          (nodesFrom parent (first + byteLength item.print) items,
            ending (first + byteLength item.print + byteLength (printAll items))) :=
        ih hitems (by omega) hends (by rw [byteLength_append, hfirst])
      rw [printAll, nodesFrom, byteLength_append, ← Nat.add_assoc]
      refine .of_next fun c hc _ => ?_
      rw [List.append_assoc] at hc
      by_cases hbrace : item.isText = false ∧ item.print.head? = some '{'
      · obtain ⟨htext, hbrace⟩ := hbrace
        have hread : Reads (mustache (siblings fuel false) fuel) i before item.print
            (printAll items ++ rest) _ :=
          reads_mustache hcontent hitem hbrace htext (by omega) hfirst parent
        rw [next_of_brace hitem htext hbrace hc]
        exact .bind (.map some hread) (.bind_last hmore (.pure _))
      cases item with
      | text data =>
        obtain ⟨hne, hdata⟩ := hitem
        have hchars : ∀ d ∈ data, isTextChar d := by
          intro d hd
          simpa [isTextChar] using hdata d hd
        obtain ⟨d, data', rfl⟩ := List.exists_cons_of_ne_nil hne
        rw [next_text hc (hchars d (by simp))]
        exact .bind (.map some (reads_text hfirst hchars (head_printAll (hadjacent rfl) hends)))
          (.bind_last hmore (.pure _))
      | comment data =>
        rw [next_comment (hc.trans (List.append_assoc ..))]
        exact .bind (.map some (reads_comment hfirst hitem parent)) (.bind_last hmore (.pure _))
      | element name attributes children =>
        obtain ⟨hname, hattributes, hchildren⟩ := hitem
        have hsize : (printAll children).length < fuel := by
          simp only [Item.print, List.length_cons, List.length_append] at hfuel
          omega
        rw [next_of_element hname hc]
        exact .bind (reads_tag hname hattributes (hcontent children hchildren hsize) hfirst)
          (.bind_last hmore (.pure _))
      | _ => exact absurd ⟨rfl, rfl⟩ hbrace

theorem reads_fragment (h : AllPrintable i.parser items) :
    Reads fragment i [] (printAll items) [] (fragmentNode (nodesFrom "Fragment" 0 items)) := by
  refine .of_cursor fun c hc _ => ?_
  have hfuel : (printAll items).length < c.rest.length + 1 := by
    rw [hc, List.append_nil]
    exact Nat.lt_succ_self _
  exact .bind_last (reads_siblings h hfuel .nil rfl) (.pure _)

/-- Parsing undoes printing. -/
theorem parse_print {parser : ScriptParser} {items : List Item} (h : AllPrintable parser items) :
    ∃ parsed, parse parser (printAll items) = .ok parsed ∧
      parsed.template = { html := fragmentNode (nodesFrom "Fragment" 0 items) } := by
  have hat : At ⟨printAll items, parser⟩ [] (printAll items ++ [])
      { cursor := .ofText (printAll items) } := ⟨by simp, by simp [Cursor.ofText], rfl⟩
  obtain ⟨p, hgives, -, haside⟩ := reads_fragment h _ hat
  obtain ⟨hcss, hinstance, hmodule⟩ : p.css = none ∧ p.instanceScript = none ∧ p.moduleScript = none := by
    simpa [Progress.aside] using haside
  refine ⟨_, Run.bind_eq_ok.mpr ⟨⟨_, p⟩, hgives, rfl⟩, ?_⟩
  simp only [hcss, hinstance, hmodule]

/-- A script that is taken for one word. -/
def wordSnippet (text : String) : Snippet := ⟨text.toList, "Identifier"⟩

theorem printable_wordSnippet {text stop assignable} (hclosed : Balanced.Closed .code text.toList)
    (h : text.toList ≠ [] ∧ text.toList.head?.all (!isMarkupBlank ·) ∧
      text.toList.getLast?.all (!isMarkupBlank ·) ∧
      ∀ k < text.toList.length, (text.toList.drop k).head?.any Balanced.isCloser = false →
        stop ((text.toList.take k).getLast?.or (some ' ')) (text.toList.drop k ++ [' ']) = false) :
    (wordSnippet text).Printable Program.wordParser stop assignable where
  ne_nil := h.1
  first := h.2.1
  last := h.2.2.1
  closed := hclosed
  nowhere := Balanced.stopsNowhere_of_splits h.2.2.2
  accepted before after := by
    have hslice : sliceAt (before ++ (text.toList ++ after)) (byteLength before)
        (byteLength before + byteLength text.toList) = .ok text.toList := by
      rw [sliceAt, ← List.append_assoc, slice?_append]
    exact ⟨_, Run.bind_eq_ok.mpr ⟨_, hslice, rfl⟩, rfl⟩

/-- An element with two attributes, and every kind of block with all the branches it may have. -/
theorem parse_print_word :
    let items : List Item :=
      [.element "p".toList [⟨"id".toList, "x".toList⟩, ⟨"b".toList, []⟩]
         [.text "é".toList, .mustache (wordSnippet "f('\x7d')")],
       .comment "-c".toList,
       .ifBlock (wordSnippet "d") [.text "e".toList]
         (.link (wordSnippet "f") [.html (wordSnippet "g")] (.last (.present [.text "h".toList]))),
       .each (wordSnippet "j") (wordSnippet "k") (some "l".toList) (some (wordSnippet "m"))
         [.text "n".toList] (.present []),
       .await (wordSnippet "o") [] (.present (.name "q".toList) [])
         (.present (.pattern (wordSnippet "[r]")) []),
       .awaitThen (wordSnippet "s") .nothing [.text "t".toList] .absent]
    let source :=
      ("<p id=\"x\" b=\"\">é\x7bf('\x7d')\x7d</p><!---c-->\x7b#if d\x7de\x7b:else if f\x7d\x7b@html g\x7d" ++
        "\x7b:else\x7dh\x7b/if\x7d\x7b#each j as k, l (m)\x7dn\x7b:else\x7d\x7b/each\x7d" ++
        "\x7b#await o\x7d\x7b:then q\x7d\x7b:catch [r]\x7d\x7b/await\x7d\x7b#await s then\x7dt\x7b/await\x7d").toList
    AllPrintable Program.wordParser items ∧ printAll items = source ∧
      ∃ parsed, parse Program.wordParser source = .ok parsed ∧
        parsed.template = { html := fragmentNode (nodesFrom "Fragment" 0 items) } ∧
        (parsed.template.html.children "children").map (fun n => (n.kind, n.start, n.stop)) =
          [("Element", 0, 29), ("Comment", 29, 38), ("IfBlock", 38, 80),
           ("EachBlock", 80, 116), ("AwaitBlock", 116, 155), ("AwaitBlock", 155, 179)] := by
  intro items source
  have hname : OrdinaryName "p".toList :=
    ⟨by decide, by simp [isBlankOr, isMarkupBlank], rfl, by decide +kernel, by decide, by decide,
      by decide⟩
  have hattributes : ∀ a ∈ [QuotedAttribute.mk "id".toList "x".toList, ⟨"b".toList, []⟩], a.Printable := by
    intro a ha
    rcases List.mem_cons.mp ha with rfl | ha
    · exact ⟨by decide, by simp [isBlankOr, isMarkupBlank], by decide, by simp⟩
    · obtain rfl := List.mem_singleton.mp ha
      exact ⟨by decide, by simp [isBlankOr, isMarkupBlank], by decide, by simp⟩
  have htext (c : Char) (hc : c ≠ '<' ∧ c ≠ '\x7b') : (Item.text [c]).Printable Program.wordParser :=
    ⟨by simp, by simpa using hc⟩
  have hletter {c : Char} (hc : Balanced.isMeaningful c = false) : Balanced.Closed .code [c] :=
    .plain hc (.nil _)
  have hcall : Balanced.Closed .code "f('\x7d')".toList :=
    .plain (c := 'f') rfl (@Balanced.Closed.group '(' ')' "'\x7d'".toList [] rfl rfl
      (@Balanced.Closed.string '\'' ['\x7d'] [] (.inr rfl) (.quotedChar (by decide) (.nil _)) (.nil _))
      (.nil _))
  have harray : Balanced.Closed .code "[r]".toList :=
    @Balanced.Closed.group '[' ']' ['r'] [] rfl rfl (hletter rfl) (.nil _)
  have hprintable : AllPrintable Program.wordParser items :=
    ⟨⟨hname, hattributes, htext 'é' (by decide), fun _ => rfl,
        ⟨by decide, printable_wordSnippet hcall (by decide)⟩, fun _ => rfl, trivial⟩, fun _ => rfl,
      (by decide : ¬"-->".toList <:+: "-c".toList), fun _ => rfl,
      ⟨printable_wordSnippet (hletter rfl) (by decide), ⟨htext 'e' (by decide), fun _ => rfl, trivial⟩,
        printable_wordSnippet (hletter rfl) (by decide), ⟨printable_wordSnippet (hletter rfl) (by decide), fun _ => rfl, trivial⟩,
        htext 'h' (by decide), fun _ => rfl, trivial⟩, fun _ => rfl,
      ⟨printable_wordSnippet (hletter rfl) (by decide), printable_wordSnippet (hletter rfl) (by decide),
        fun name hname => Option.some.inj hname ▸ ⟨by decide, by simp [isSimpleNameChar, isAsciiAlphanumeric, isAsciiLetter]⟩,
        fun e he => Option.some.inj he ▸ printable_wordSnippet (hletter rfl) (by decide),
        ⟨htext 'n' (by decide), fun _ => rfl, trivial⟩, trivial⟩, fun _ => rfl,
      ⟨printable_wordSnippet (hletter rfl) (by decide), trivial, ⟨(by decide : isName "q".toList), trivial⟩,
        ⟨by decide, printable_wordSnippet harray (by decide)⟩, trivial⟩, fun _ => rfl,
      ⟨printable_wordSnippet (hletter rfl) (by decide), trivial, ⟨htext 't' (by decide), fun _ => rfl, trivial⟩,
        trivial⟩, fun _ => rfl, trivial⟩
  have hprint : printAll items = source := by decide +kernel
  obtain ⟨parsed, hparsed, htemplate⟩ := parse_print hprintable
  rw [hprint] at hparsed
  refine ⟨hprintable, hprint, parsed, hparsed, htemplate, ?_⟩
  rw [htemplate]
  decide +kernel

end SvelteSyntax.Markup
