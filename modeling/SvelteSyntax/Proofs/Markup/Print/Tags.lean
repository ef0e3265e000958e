import SvelteSyntax.Proofs.Markup.Print.Scripts

namespace SvelteSyntax.Markup

open Text Script

variable {i : Input} {before rest name data : List Char} {content : Content} {keyword parent : String}
  {start first : Nat} {attributes : List QuotedAttribute}

def isTextChar (d : Char) : Bool := d != '<' && d != '{'

structure Ends (rest : List Char) (ending : Nat → Ending) : Prop where
  next : ∀ c : Cursor, c.rest = rest → nextAt c = .ends (ending c.offset)
  head : rest.head?.all (!isTextChar ·)

theorem word_append (hletters : keyword.toList.all isAsciiLetter)
    (hrest : rest.head?.all (!isAsciiLetter ·)) : word (keyword.toList ++ rest) = keyword := by
  rw [word, takeWhile_append_of_head (List.all_eq_true.mp hletters) hrest, String.ofList_toList]

namespace Ends

theorem nil : Ends [] fun _ => .endOfText where
  next c h := by
    unfold nextAt
    rw [h]
    rfl
  head := rfl

theorem closingTag (hname : OrdinaryName name) (rest : List Char) :
    Ends ('<' :: '/' :: (name ++ '>' :: rest)) (.closingTag (String.ofList name)) where
  next c h := by
    have htake : (name ++ '>' :: rest).takeWhile (fun c => !isMarkupBlank c && c != '>') = name := by
      refine takeWhile_append_of_head (fun d hd => ?_) rfl
      have hd := hname.chars d hd
      simp_all [isBlankOr]
    have hcomment : startsWith "<!--".toList c.rest = false := by
      rw [h]
      rfl
    unfold nextAt
    rw [hcomment, h]
    simp only [Bool.false_eq_true, ↓reduceIte, htake]
  head := rfl

theorem blockClose (hletters : keyword.toList.all isAsciiLetter) (rest : List Char) :
    Ends (tagEnd keyword ++ rest) (.blockClose keyword) where
  next c h := by
    have hword : word (keyword.toList ++ ['}'] ++ rest) = keyword := by
      rw [List.append_assoc]
      exact word_append hletters rfl
    have hcomment : startsWith "<!--".toList c.rest = false := by
      rw [h]
      rfl
    unfold nextAt
    rw [hcomment, h]
    simp only [tagEnd, List.cons_append, Bool.false_eq_true, ↓reduceIte]
    rw [List.dropWhile_cons_of_neg (by decide)]
    simp only [hword]
  head := rfl

theorem branch (hletters : keyword.toList.all isAsciiLetter) (hrest : rest.head?.all (!isAsciiLetter ·)) :
    Ends (tagOpen ':' keyword ++ rest) (.branch keyword) where
  next c h := by
    have hcomment : startsWith "<!--".toList c.rest = false := by
      rw [h]
      rfl
    unfold nextAt
    rw [hcomment, h]
    simp only [tagOpen, List.cons_append, Bool.false_eq_true, ↓reduceIte]
    rw [List.dropWhile_cons_of_neg (by decide)]
    simp only [word_append hletters hrest]
  head := rfl

end Ends

def ReadsAll (content : Content) (i : Input) (items : List Item) : Prop :=
  ∀ (parent : String) {before rest : List Char} {ending : Nat → Ending} {first : Nat},
    Ends rest ending → byteLength before = first →
    Reads (content parent) i before (printAll items) rest
      (nodesFrom parent first items, ending (first + byteLength (printAll items)))

theorem reads_text (hstart : byteLength before = start) (hdata : ∀ d ∈ data, isTextChar d)
    (hrest : rest.head?.all (!isTextChar ·)) :
    Reads text i before data rest (textNode start data) := by
  subst hstart
  exact .of_here (.bind_last (.readWhile hdata hrest) (.pure _))

/-- The end of a comment cannot start inside its data, as it does not overlap itself. -/
theorem splitAt?_comment (h : ¬"-->".toList <:+: data) (rest : List Char) :
    splitAt? "-->".toList (data ++ ("-->".toList ++ rest)) = some (data, "-->".toList ++ rest) := by
  refine (splitAt?_eq_some_iff (by decide)).mpr ⟨rfl, startsWith_append_self .., fun n hn => ?_⟩
  rw [List.drop_append_of_le_length (Nat.le_of_lt hn), Bool.eq_false_iff]
  intro hstarts
  obtain ⟨tail, htail⟩ := startsWith_iff.mp hstarts
  have hlength : (data.drop n).length = data.length - n := List.length_drop
  by_cases hlong : 3 ≤ (data.drop n).length
  · -- The end would be a part of the data.
    have htake := congrArg (List.take 3) htail
    rw [List.take_append_of_le_length hlong] at htake
    have hinside : "-->".toList <+: data.drop n := by
      rw [show "-->".toList = (data.drop n).take 3 from htake.symm]
      exact List.take_prefix ..
    exact h (hinside.isInfix.trans (List.drop_suffix ..).isInfix)
  · rcases hdrop : data.drop n with _ | ⟨x, _ | ⟨y, _ | ⟨z, cs⟩⟩⟩
    · rw [hdrop] at hlength
      simp at hlength
      omega
    · rw [hdrop] at htail
      simp at htail
    · rw [hdrop] at htail
      simp at htail
    · rw [hdrop] at hlong
      simp at hlong

theorem reads_comment (hstart : byteLength before = start) (h : ¬"-->".toList <:+: data)
    (parent : String) :
    Reads comment i before (Item.comment data).print rest ((Item.comment data).node parent start) := by
  rw [Item.print, Item.node]
  subst hstart
  refine .of_here (.bind (.skip rfl) (.bind (.readUpTo ?_) (.bind_last (.skip rfl) (.finish ?_))))
  · exact splitAt?_comment h rest
  · simp only [Item.print, byteLength_append]
    omega

theorem reads_quotedValue {value} (hfirst : byteLength before = first)
    (hvalue : ∀ d ∈ value, d ≠ '"' ∧ d ≠ '{') :
    Reads (quotedValue start '"') i before (value ++ ['"']) rest (quotedParts first value) := by
  subst hfirst
  refine .bind (.of_cursor fun c hc _ => ?_) (.bind_last (.skip rfl) (.pure _))
  obtain ⟨fuel, hfuel⟩ : ∃ n, c.rest.length = n + 1 :=
    Nat.exists_eq_add_one.mpr (by simp only [hc, List.length_append, List.length_singleton]; omega)
  rw [hfuel]
  cases value with
  | nil => exact .bind_still (.of_peek (.pure none)) (.pure _)
  | cons d value =>
    obtain ⟨hquote, hbrace⟩ := hvalue d (by simp)
    have htext : Reads (textWhile fun c => c != '"' && c != '{') i before (d :: value) (['"'] ++ rest)
        (textNode (byteLength before) (d :: value)) :=
      .of_here (.bind_last (.readWhile (by simpa using hvalue) rfl) (.pure _))
    refine .bind_last (a := some (textNode (byteLength before) (d :: value))) (.of_peek ?_) ?_
    · simp only [List.cons_append, List.head?_cons]
      split
      · contradiction
      · exact .bind_last htext (.pure _)
    · exact .bind_last (.bind_still (.of_peek (.pure none)) (.pure _)) (.pure _)

theorem reads_namedAttribute {a : QuotedAttribute} (h : a.Printable) (hstart : byteLength before = start) :
    Reads namedAttribute i before (a.name ++ '=' :: '"' :: (a.value ++ ['"'])) rest
      (plainAttribute a.name start (start + byteLength a.name + 2 + byteLength a.value + 1)
        (some (quotedParts (start + byteLength a.name + 2) a.value))) := by
  subst hstart
  have hchars : ∀ d ∈ a.name,
      !(isMarkupBlank d || ['=', '/', '>', '"', '\'', '{'].contains d) := by
    intro d hd
    rw [Bool.not_eq_true']
    exact h.chars d hd
  have hcolon : splitColon? a.name = none := by
    cases hsplit : splitAt? [':'] a.name with
    | none => rw [splitColon?, hsplit]; rfl
    | some parts =>
      obtain ⟨hname, hhead, -⟩ := splitAt?_singleton.mp hsplit
      refine absurd ?_ h.no_colon
      rw [hname]
      exact List.mem_append_right _ (List.mem_of_head? hhead)
  refine .of_here (.bind (.readWhile hchars rfl) ?_)
  rw [if_neg (by simpa using h.ne_nil)]
  have hvalue : Reads attributeValue i (before ++ a.name ++ ['=']) ('"' :: (a.value ++ ['"'])) rest
      (quotedParts (byteLength before + byteLength a.name + 2) a.value) := by
    refine .of_here (.of_peek (.bind_char (.skip rfl) (reads_quotedValue ?_ h.value)))
    simp (disch := decide) only [byteLength_append, byteLength_cons, byteLength_nil, utf8Size_of_lt]
  refine .bind_char (.eat "=") (.bind_last (.map some hvalue) (.of_here ?_))
  have hstop : byteLength (before ++ a.name ++ ['='] ++ '"' :: (a.value ++ ['"'])) =
      byteLength before + byteLength a.name + 2 + byteLength a.value + 1 := by
    simp (disch := decide) only [byteLength_append, byteLength_cons, byteLength_nil, utf8Size_of_lt]
    omega
  rw [hcolon, hstop]
  exact .pure _

theorem reads_attributes (h : ∀ a ∈ attributes, a.Printable) (hfirst : byteLength before = first) :
    Reads Markup.attributes i before (attributes.flatMap QuotedAttribute.print) ('>' :: rest)
      (laidOut QuotedAttribute.print QuotedAttribute.node first attributes) := by
  subst hfirst
  refine .many (fun a _ => by simp [QuotedAttribute.print]) (fun a ha before tail => ?_) fun before => ?_
  · have ha := h a ha
    obtain ⟨d, name, hname⟩ := List.exists_cons_of_ne_nil ha.ne_nil
    have hd : (isMarkupBlank d || ['=', '/', '>', '"', '\'', '{'].contains d) = false :=
      ha.chars d (by rw [hname]; simp)
    simp only [List.contains_cons, List.contains_nil, Bool.or_false, Bool.or_eq_false_iff,
      beq_eq_false_iff_ne] at hd
    obtain ⟨hblank, -, hslash, hgt, -, -, hbrace⟩ := hd
    have hnode : plainAttribute a.name (byteLength before + 1)
        (byteLength before + 1 + byteLength a.name + 2 + byteLength a.value + 1)
        (some (quotedParts (byteLength before + 1 + byteLength a.name + 2) a.value)) =
        a.node (byteLength before) := by
      rw [QuotedAttribute.node, QuotedAttribute.print]
      simp (disch := decide) only [byteLength_append, byteLength_cons, byteLength_nil, utf8Size_of_lt]
      congr 1
      · omega
      · rw [show byteLength before + 1 + byteLength a.name + 2 =
          byteLength before + byteLength a.name + 3 by omega]
    have hattribute : Reads namedAttribute i (before ++ [' ']) _ tail _ :=
      reads_namedAttribute ha (byteLength_append ..)
    have hself : startsWith "/>".toList (a.name ++ '=' :: '"' :: (a.value ++ ['"']) ++ tail) = false := by
      rw [hname]
      simp [startsWith, Ne.symm hslash]
    rw [show byteLength before + byteLength [' '] = byteLength before + 1 from rfl, hnode] at hattribute
    rw [QuotedAttribute.print]
    refine .bind_char (.skipBlanks (isMarkupBlank_of_gap (.inr rfl)) ?_) (.of_peek ?_)
    · rw [hname]
      simpa using hblank
    · simp only [hname, List.cons_append, List.head?_cons] at hattribute hself ⊢
      refine .of_atText ?_
      rw [List.cons_append, hself]
      exact .bind_last hattribute (.pure _)
  · exact .bind_still (.skipNoBlanks rfl) (.of_peek (.pure _))

theorem reads_openEnd : Reads openEnd i before ['>'] rest false :=
  .bind_still (.eat_not rfl) (.bind_last (.expect_char rfl) (.pure _))

theorem reads_closeTag (name : List Char) :
    Reads (closeTag (String.ofList name)) i before ('<' :: '/' :: (name ++ ['>'])) rest () := by
  have hname : Reads (expect (String.ofList name)) i (before ++ ['<', '/'])
      (String.ofList name).toList (['>'] ++ rest) () := .expect _
  rw [String.toList_ofList] at hname
  have hopen : Reads (expect "</") i before ['<', '/'] (name ++ ['>'] ++ rest) () := .expect "</"
  change Reads _ i before (['<', '/'] ++ (name ++ ['>'])) rest ()
  exact .bind hopen (.bind hname (.bind_still (.skipNoBlanks rfl) (.expect_char rfl)))

theorem reads_element {children} (hname : OrdinaryName name)
    (hattributes : ∀ a ∈ attributes, a.Printable) (hchildren : ReadsAll content i children)
    (hfirst : byteLength before = first) :
    let kind := elementKind (String.ofList name) parent
    let text := attributes.flatMap QuotedAttribute.print ++ '>' ::
      (printAll children ++ '<' :: '/' :: (name ++ ['>']))
    Reads (element content parent (String.ofList name) start) i before text rest
      (elementNode kind (String.ofList name) start (first + byteLength text) none
        (laidOut QuotedAttribute.print QuotedAttribute.node first attributes)
        (nodesFrom kind (first + byteLength (attributes.flatMap QuotedAttribute.print) + 1) children)) := by
  intro kind text
  subst hfirst
  have hinner : byteLength (before ++ attributes.flatMap QuotedAttribute.print ++ ['>']) =
      byteLength before + byteLength (attributes.flatMap QuotedAttribute.print) + 1 := by
    simp (disch := decide) only [byteLength_append, byteLength_cons, byteLength_nil, utf8Size_of_lt]
  have hbody : Reads (elementChildren content kind (String.ofList name) start) i
      (before ++ attributes.flatMap QuotedAttribute.print ++ ['>'])
      (printAll children ++ '<' :: '/' :: (name ++ ['>'])) rest
      (nodesFrom kind (byteLength before + byteLength (attributes.flatMap QuotedAttribute.print) + 1)
        children) := by
    have hends := Ends.closingTag hname rest
    refine .bind (hchildren kind (by simpa using hends) hinner) ?_
    simp only [↓reduceIte]
    exact .bind_last (reads_closeTag name) (.pure _)
  refine .bind (reads_attributes hattributes rfl) (.bind_char reads_openEnd ?_)
  simp only [hname.no_component, hname.no_void, hname.no_raw, Bool.or_false, Bool.false_eq_true,
    ↓reduceIte]
  refine .bind_last hbody (.finish ?_)
  simp only [text, byteLength_append, byteLength_cons, byteLength_nil]
  omega

theorem reads_tag {children topLevel} (hname : OrdinaryName name)
    (hattributes : ∀ a ∈ attributes, a.Printable) (hchildren : ReadsAll content i children)
    (hstart : byteLength before = start) :
    Reads (tag content topLevel parent) i before (Item.element name attributes children).print rest
      (some ((Item.element name attributes children).node parent start)) := by
  subst hstart
  rw [Item.print, Item.node, Item.print]
  have hchars : ∀ d ∈ name, !isMarkupBlank d && d != '/' && d != '>' := by
    intro d hd
    have hd := hname.chars d hd
    simp_all [isBlankOr]
  have hend : ∀ tail : List Char, (attributes.flatMap QuotedAttribute.print ++ '>' :: tail).head?.all
      fun d => !(!isMarkupBlank d && d != '/' && d != '>') := by
    intro tail
    cases attributes with
    | nil => rfl
    | cons a attributes => rfl
  have hsection : (topLevel && (String.ofList name = "script" || String.ofList name = "style")) = false := by
    simp [hname.no_section.1, hname.no_section.2]
  have hfirst : byteLength (before ++ ['<'] ++ name) = byteLength before + 1 + byteLength name := by
    simp (disch := decide) only [byteLength_append, byteLength_cons, byteLength_nil, utf8Size_of_lt]
  have helement : Reads (element content parent (String.ofList name) (byteLength before)) i
      (before ++ ['<'] ++ name) _ rest _ := reads_element hname hattributes hchildren hfirst
  have hstop : ∀ text : List Char, byteLength before + 1 + byteLength name + byteLength text =
      byteLength before + byteLength ('<' :: (name ++ text)) := by
    intro text
    simp (disch := decide) only [byteLength_append, byteLength_cons, utf8Size_of_lt]
    omega
  rw [hstop] at helement
  refine .of_here (.bind_char (.skip rfl) (.bind (.readWhile hchars ?_) ?_))
  · rw [List.append_assoc]
    exact hend _
  · rw [if_neg (by simpa using hname.ne_nil), if_neg (by rw [hsection]; simp)]
    exact .bind_last helement (.pure _)

end SvelteSyntax.Markup
