import SvelteSyntax.Proofs.Markup.Rules.Blocks

namespace SvelteSyntax.Markup

open Text Script

variable {i : Input} {p p' q : Progress} {n : Node} {content : Content} {c : Cursor} {keyword : String}

inductive EndsWith (c : Cursor) : Ending → Prop
  | endOfText (h : c.rest = []) : EndsWith c .endOfText
  | closingTag {cs : List Char} (h : c.rest = '<' :: '/' :: cs) :
      EndsWith c
        (.closingTag (String.ofList (cs.takeWhile fun c => !isMarkupBlank c && c != '>')) c.offset)
  | blockClose {gap cs : List Char} (h : c.rest = '{' :: (gap ++ '/' :: cs))
      (hgap : ∀ d ∈ gap, isMarkupBlank d) : EndsWith c (.blockClose (word cs) c.offset)
  | branch {gap cs : List Char} (h : c.rest = '{' :: (gap ++ ':' :: cs))
      (hgap : ∀ d ∈ gap, isMarkupBlank d) : EndsWith c (.branch (word cs) c.offset)

theorem EndsWith.branch_eq {branch} (h : EndsWith c (.branch keyword branch)) :
    branch = c.offset := by
  cases h
  rfl

theorem EndsWith.blockClose_eq {close} (h : EndsWith c (.blockClose keyword close)) :
    close = c.offset := by
  cases h
  rfl

def nextAt (c : Cursor) : Next :=
  if startsWith "<!--".toList c.rest then .comment
  else match c.rest with
    | [] => .ends .endOfText
    | '<' :: '/' :: cs =>
      let name := cs.takeWhile fun c => !isMarkupBlank c && c != '>'
      .ends (.closingTag (String.ofList name) c.offset)
    | '<' :: _ => .tag
    | '{' :: cs =>
      match cs.dropWhile isMarkupBlank with
      | '/' :: cs => .ends (.blockClose (word cs) c.offset)
      | ':' :: cs => .ends (.branch (word cs) c.offset)
      | _ => .mustache
    | _ => .text

theorem next_eq : next = return nextAt (← cursor) := by
  unfold next
  congr 1
  funext c
  fun_cases nextAt c with
  | case1 h => rw [if_pos h]
  | case2 hcomment h => rw [if_neg hcomment, h]
  | case3 hcomment cs h =>
    rw [if_neg hcomment, h]
    rfl
  | case4 hcomment cs hslash h =>
    rw [if_neg hcomment]
    simp [h]
  | case5 hcomment cs h cs' hcs | case6 hcomment cs h cs' hcs =>
    rw [if_neg hcomment]
    simp [h, drop_length_takeWhile, hcs]
  | case7 hcomment cs h hslash hcolon =>
    rw [if_neg hcomment]
    simp [h, drop_length_takeWhile]
  | case8 hcomment =>
    rw [if_neg hcomment]
    simp

/-- What is read next says what the text starts with. -/
inductive StartsNext (c : Cursor) : Next → Prop
  | ends {ending : Ending} (h : EndsWith c ending) : StartsNext c (.ends ending)
  | comment (h : startsWith "<!--".toList c.rest) : StartsNext c .comment
  | tag {cs : List Char} (h : c.rest = '<' :: cs) (hslash : cs.head? ≠ some '/')
      (hcomment : startsWith "!--".toList cs = false) : StartsNext c .tag
  | mustache {cs : List Char} (h : c.rest = '{' :: cs)
      (hmark : (cs.drop (blanks cs)).head? ≠ some '/' ∧ (cs.drop (blanks cs)).head? ≠ some ':') :
      StartsNext c .mustache
  | text (hne : c.rest ≠ []) (h : c.rest.head?.all fun d => d != '<' && d != '{') :
      StartsNext c .text

theorem startsNext (c : Cursor) : StartsNext c (nextAt c) := by
  unfold nextAt
  split
  · rename_i h
    exact .comment h
  rename_i hcomment
  split
  · rename_i h
    exact .ends (.endOfText h)
  · rename_i cs h
    exact .ends (.closingTag h)
  · rename_i cs hslash h
    refine .tag h ?_ ?_
    · rintro hhead
      obtain ⟨cs', rfl⟩ := List.head?_eq_some_iff.mp hhead
      exact hslash cs' rfl
    · rw [h] at hcomment
      simpa [startsWith] using hcomment
  · rename_i cs h
    have hsplit := (List.takeWhile_append_dropWhile (p := isMarkupBlank) (l := cs)).symm
    have hgap : ∀ d ∈ cs.takeWhile isMarkupBlank, isMarkupBlank d :=
      fun d hd => List.mem_takeWhile_imp hd
    split
    · rename_i cs' hcs
      rw [hcs] at hsplit
      exact .ends (.blockClose (by rw [h, ← hsplit]) hgap)
    · rename_i cs' hcs
      rw [hcs] at hsplit
      exact .ends (.branch (by rw [h, ← hsplit]) hgap)
    · rename_i hslash hcolon
      refine .mustache h ?_
      rw [blanks, drop_length_takeWhile]
      constructor
      · rintro hhead
        obtain ⟨cs', hcs⟩ := List.head?_eq_some_iff.mp hhead
        exact hslash cs' hcs
      · rintro hhead
        obtain ⟨cs', hcs⟩ := List.head?_eq_some_iff.mp hhead
        exact hcolon cs' hcs
  · rename_i hnil hclose hopen hbrace
    refine .text hnil ?_
    cases hrest : c.rest with
    | nil => rfl
    | cons d cs =>
      have hopen : d ≠ '<' := by
        rintro rfl
        exact hopen cs hrest
      have hbrace : d ≠ '{' := by
        rintro rfl
        exact hbrace cs hrest
      simp [hopen, hbrace]

inductive CommentForm (p : Progress) (n : Node) (p' : Progress) : Prop
  | intro {data : List Char} (h : Spells p [.word "<!--".toList, .word data, .word "-->".toList] p')
      (hn : n = { kind := "Comment", start := p.cursor.offset, stop := p'.cursor.offset,
                  fields := [("data", .string (String.ofList data))] })

theorem gives_comment (hstarts : startsWith "<!--".toList p.cursor.rest) (h : Gives comment i p n p') :
    CommentForm p n p' := by
  simp only [comment, gives_bind, gives_here, gives_skip, gives_readUpTo?] at h
  obtain ⟨_, p, ⟨rfl, rfl⟩, _, _, rfl, _, q, ⟨data, rest, rfl, hsplit, rfl⟩ | ⟨rfl, -, rfl⟩, h⟩ := h
  · simp only [gives_bind, gives_skip, gives_finish] at h
    obtain ⟨_, _, rfl, rfl, rfl⟩ := h
    obtain ⟨hrest, hend, -⟩ := (splitAt?_eq_some_iff (by decide)).mp hsplit
    have hrest' : ((p.cursor.skip 4).skip data.length).rest = rest := Cursor.rest_skip_length hrest
    rw [← hrest'] at hend
    refine ⟨.goTo (c := ((p.cursor.skip 4).skip data.length).skip 3) ?_, rfl⟩
    exact .word hstarts (.word (startsWith_iff.mpr ⟨rest, hrest⟩) (.word hend (.nil _)))
  · simp at h

/-- One of the siblings, or a section that is put aside. -/
inductive NodeForm (i : Input) (content : Content) (topLevel : Bool) (parent : String)
    (p : Progress) : Option Node → Progress → Prop
  | comment {n : Node} {p' : Progress} (h : CommentForm p n p') :
      NodeForm i content topLevel parent p (some n) p'
  | tag {n : Option Node} {p' : Progress} (h : TagForm i content topLevel parent p n p') :
      NodeForm i content topLevel parent p n p'
  | mustache {n : Node} {p' : Progress} (h : MustacheForm i content p n p') :
      NodeForm i content topLevel parent p (some n) p'
  | text {data : List Char} {p' : Progress} (h : Spells p [.word data] p') (hne : data ≠ []) :
      NodeForm i content topLevel parent p (some (textNode p.cursor.offset data)) p'

theorem gives_siblings {fuel topLevel parent nodes ending}
    (h : Gives (siblings (fuel + 1) topLevel parent) i p (nodes, ending) p') :
    (EndsWith p.cursor ending ∧ nodes = [] ∧ p' = p) ∨
      ∃ node rest q, NodeForm i (siblings fuel false) topLevel parent p node q ∧
        Gives (siblings fuel topLevel parent) i q (rest, ending) p' ∧ nodes = node.toList ++ rest := by
  have hnext := startsNext p.cursor
  simp only [siblings, next_eq, bind_assoc, pure_bind, gives_bind, gives_cursor] at h
  obtain ⟨_, p, ⟨rfl, rfl⟩, h⟩ := h
  generalize nextAt p.cursor = found at h hnext
  cases hnext with
  | ends hends =>
    simp only [gives_pure, Prod.mk.injEq] at h
    obtain ⟨⟨rfl, rfl⟩, rfl⟩ := h
    exact .inl ⟨hends, rfl, rfl⟩
  | comment hstarts =>
    simp only [gives_bind, gives_map, gives_pure, Prod.mk.injEq] at h
    obtain ⟨node, q, ⟨n, hnode, rfl⟩, ⟨rest, ending⟩, r, hrest, ⟨rfl, rfl⟩, rfl⟩ := h
    exact .inr ⟨_, rest, q, .comment (gives_comment hstarts hnode), hrest, rfl⟩
  | tag hstarts hslash hcomment =>
    simp only [gives_bind, gives_pure, Prod.mk.injEq] at h
    obtain ⟨node, q, hnode, ⟨rest, ending⟩, r, hrest, ⟨rfl, rfl⟩, rfl⟩ := h
    exact .inr ⟨_, rest, q, .tag (gives_tag (by rw [hstarts]; rfl) hnode), hrest, rfl⟩
  | mustache hstarts hmark =>
    simp only [gives_bind, gives_map, gives_pure, Prod.mk.injEq] at h
    obtain ⟨node, q, ⟨n, hnode, rfl⟩, ⟨rest, ending⟩, r, hrest, ⟨rfl, rfl⟩, rfl⟩ := h
    exact .inr ⟨_, rest, q, .mustache (gives_mustache (by rw [hstarts]; rfl) hnode), hrest, rfl⟩
  | text hne hstarts =>
    simp only [gives_bind, gives_map, gives_pure, Prod.mk.injEq] at h
    obtain ⟨node, q, ⟨n, hnode, rfl⟩, ⟨rest, ending⟩, r, hrest, ⟨rfl, rfl⟩, rfl⟩ := h
    obtain ⟨d, cs, hcs⟩ := List.exists_cons_of_ne_nil hne
    obtain ⟨data, hspells, hdata, rfl⟩ := gives_textWhile (by simpa [hcs] using hstarts) hnode
    exact .inr ⟨_, rest, q, .text hspells hdata, hrest, rfl⟩

end SvelteSyntax.Markup
