import SvelteSyntax.Proofs.Markup.Spans.Attributes

namespace SvelteSyntax.Markup

open Text Script

variable {i : Input} {source text : List Char} {p p' : Progress} {n e : Node} {c c' : Cursor}
  {pieces last : List Piece} {content : Content} {closed : Bool} {attributes children ns : List Node}
  {name kind parent : String} {this : Option Node} {contentStart : Nat}

structure ContentPlaced (source : List Char) (q : Progress) (children : List Node) (ending : Ending)
    (r : Progress) : Prop where
  placed : PlacedList source q.cursor children r.cursor
  ends : EndsWith r.cursor ending
  aside : r.aside = q.aside

/-- The rule places the content of every node. -/
def PlacesContent (source : List Char) (i : Input) (content : Content) : Prop :=
  ∀ ⦃kind q children ending r⦄, q.cursor.In source → Gives (content kind) i q (children, ending) r →
    ContentPlaced source q children ending r

theorem CommentForm.placed (hin : p.cursor.In source) (h : CommentForm p n p') :
    Placed source p.cursor n p'.cursor := by
  obtain ⟨h, rfl⟩ := h
  exact .of_spelled hin h.spelled .comment rfl rfl h.spelled.lt_of_word (.one (.bare (by simp)))

theorem OpenTag.spelled (hin : p.cursor.In source) (h : OpenTag i p attributes closed p') :
    Spelled p.cursor
        (attributes.flatMap (fun a => [.blank, .node a]) ++
          [.blank, .word (if closed then "/>" else ">").toList]) p'.cursor ∧
      ∀ a ∈ attributes, Sound source a := by
  obtain ⟨hrounds, hends⟩ := h
  obtain ⟨hspelled, hsound⟩ := spelled_attributes hin hrounds
  exact ⟨hspelled.append hends.spelled, hsound⟩

theorem joined_sublist_flatMap (ns : List Node) :
    (joined ns).Sublist (ns.flatMap fun a => [.blank, .node a]) := by
  induction ns with
  | nil => exact .slnil
  | cons n ns ih => exact (ih.cons_cons _).cons _

theorem joined_sublist_tagHead (name : List Char) (attributes : List Node) :
    (joined attributes).Sublist (tagHead name attributes) :=
  (joined_sublist_flatMap attributes).trans
    ((List.sublist_append_right ..).trans (List.sublist_append_left ..))

theorem PlainAttributes.spec {plain} (h : PlainAttributes name attributes this plain)
    (hsound : ∀ a ∈ attributes, Sound source a) :
    plain.Sublist attributes ∧
      ∀ e, this = some e → Sound source e ∧ ∃ a ∈ attributes, e.Inside a := by
  cases h with
  | all _ => exact ⟨.refl _, by simp⟩
  | @without e _ hthis =>
    refine ⟨List.eraseP_sublist, ?_⟩
    rintro _ ⟨⟩
    obtain ⟨a, hfind, hsole⟩ := Option.bind_eq_some_iff.mp hthis
    have ha := List.mem_of_find?_eq_some hfind
    obtain ⟨chunk, hchunks, -, hget⟩ := soleExpression?_eq_some hsole
    have hchunk : a.HasChild chunk := by
      unfold Node.children at hchunks
      split at hchunks
      · rename_i hvalue
        exact Node.hasChild_of_get? hvalue (by simp [hchunks])
      · cases hchunks
    have hexpression : chunk.HasChild e := Node.hasChild_of_get? hget (by simp)
    have hin := (hsound a ha).child hchunk
    refine ⟨hin.child hexpression, a, ha, ?_⟩
    exact (hin.exact.inside e hexpression).trans ((hsound a ha).exact.inside chunk hchunk)

theorem spelled_elementBody (hin : p.cursor.In source) (hcontent : PlacesContent source i content)
    (h : ElementBody i content kind name closed p children p') :
    p'.aside = p.aside ∧ (∀ n ∈ children, Sound source n) ∧
      ((children = [] ∧ p' = p ∧ (closed || voidElements.contains name.toLower)) ∨
        (closed = false ∧ Spelled p.cursor (joined children ++ tagClose name.toList) p'.cursor)) := by
  cases h with
  | empty hempty => exact ⟨rfl, by simp, .inl ⟨rfl, rfl, hempty⟩⟩
  | @raw _ data rest hopen hrest hclose =>
    have hplaced : PlacedList source p.cursor
        (if data.isEmpty then [] else [textNode p.cursor.offset data])
        (p.cursor.skip data.length) := by
      cases data with
      | nil => exact .nil _
      | cons d data => exact (placed_text hin (.ofText hrest) (by simp)).list
    exact ⟨hclose.aside, hplaced.sound, .inr ⟨hopen, hplaced.spelled.append hclose.spelled⟩⟩
  | content hopen hchildren hclose =>
    obtain ⟨hplaced, -, haside⟩ := hcontent hin hchildren
    exact ⟨hclose.aside.trans haside, hplaced.sound, .inr ⟨hopen, hplaced.spelled.append hclose.spelled⟩⟩

theorem listed_elementNode {start stop key} (h : (key, Value.nodes ns) ∈
      (elementNode kind name start stop this attributes children).fields) :
    (key = "attributes" ∧ ns = attributes) ∨ (key = "children" ∧ ns = children) := by
  cases this with
  | none => simpa [elementNode] using h
  | some e => simpa [elementNode] using h

theorem placed_element (hin : c.In source) (hcontent : PlacesContent source i content)
    (hname : Spelled c [.word ('<' :: name.toList)] p.cursor)
    (h : ElementForm i content parent name c.offset p n p') :
    Placed source c n p'.cursor ∧ p'.aside = p.aside := by
  obtain ⟨hopening, hplain, hbody, rfl⟩ := h
  rename_i attributes plain children this closed q
  obtain ⟨hopen, hattributes⟩ := hopening.spelled (hname.cursor_in hin)
  have hhead := hname.append hopen
  obtain ⟨hsub, hthis⟩ := hplain.spec hattributes
  obtain ⟨haside, hchildren, hlast⟩ := spelled_elementBody (hhead.cursor_in hin) hcontent hbody
  refine ⟨?_, haside.trans hopening.aside⟩
  -- The pieces after the opening tag do not matter for its attributes.
  have hplaced {last : List Piece} {c' : Cursor}
      (hspelled : Spelled c (tagHead name.toList attributes ++ last) c')
      (hlast : (joined children).Sublist last)
      (hwritten : Written (elementNode (elementKind name parent) name c.offset c'.offset this plain
        children) (tagHead name.toList attributes ++ last)) :
      Placed source c
        (elementNode (elementKind name parent) name c.offset c'.offset this plain children) c' := by
    have hsublist := (joined_sublist_tagHead name.toList attributes).trans (List.sublist_append_left _ last)
    have hlists : Parts source (tagHead name.toList attributes ++ last)
        [("attributes", .nodes plain), ("children", .nodes children)] :=
      .cons (.nodes ((hsub.map _).trans hsublist) fun a ha => hattributes a (hsub.mem ha))
        (.one (.nodes (hlast.trans (List.sublist_append_right ..)) hchildren))
    refine .of_spelled hin hspelled hwritten rfl rfl hspelled.lt_of_word
      (.append (.cons (.bare (by simp)) ?_) hlists)
    cases this with
    | none => exact .nil
    | some e =>
      obtain ⟨hsound, a, ha, hinside⟩ := hthis e rfl
      exact .one (.node (.inr ⟨a, mem_nodes_of_sublist hsublist ha, hinside⟩) hsound)
  obtain ⟨rfl, rfl, hempty⟩ | ⟨rfl, hlast⟩ := hlast
  · have hspelled : Spelled c (tagHead name.toList attributes ++
        [.word (if closed then "/>" else ">").toList]) p'.cursor := by
      simpa [tagHead] using hhead
    exact hplaced hspelled (List.nil_sublist _) (.emptyElement hplain hempty)
  · have hspelled : Spelled c
        (tagHead name.toList attributes ++ ([.word ['>']] ++ joined children ++ tagClose name.toList))
        p'.cursor := by
      simpa [tagHead] using hhead.append hlast
    refine hplaced hspelled ?_ ?_
    · exact (List.sublist_append_right ..).trans (List.sublist_append_left ..)
    · simpa using Written.element hplain

theorem placed_style (hin : c.In source)
    (hspelled : Spelled c (tagHead "style".toList attributes ++ last) c')
    (hattributes : ∀ a ∈ attributes, Sound source a)
    (hwritten : Written (styleNode c.offset c'.offset contentStart attributes text)
      (tagHead "style".toList attributes ++ last)) :
    Placed source c (styleNode c.offset c'.offset contentStart attributes text) c' :=
  .of_spelled hin hspelled hwritten rfl rfl hspelled.lt_of_word
    (.cons (.nodes ((joined_sublist_tagHead ..).trans (List.sublist_append_left ..)) hattributes)
      (.one (.bare (by simp))))

theorem placed_script (hin : c.In source)
    (hspelled : Spelled c (tagHead "script".toList attributes ++ last) c')
    (hattributes : ∀ a ∈ attributes, Sound source a)
    (hprogram : .part (.pending "Program" contentStart (contentStart + byteLength text)) ∈ last)
    (hwritten : Written (scriptNode c.offset c'.offset contentStart attributes text)
      (tagHead "script".toList attributes ++ last)) :
    Placed source c (scriptNode c.offset c'.offset contentStart attributes text) c' := by
  have hmem : _ ∈ (tagHead "script".toList attributes ++ last).flatMap Piece.nodes :=
    List.mem_flatMap.mpr ⟨_, List.mem_append_right _ hprogram, List.mem_singleton_self _⟩
  exact .of_spelled hin hspelled hwritten rfl rfl hspelled.lt_of_word
    (.cons (.bare (by simp))
      (.cons (.nodes ((joined_sublist_tagHead ..).trans (List.sublist_append_left ..)) hattributes)
        (.one (.node (.inl hmem) (sound_pending (Nat.le_add_right ..))))))

theorem placed_topLevel (hin : c.In source) (hscript : name = "script" ∨ name = "style")
    (hname : Spelled c [.word ('<' :: name.toList)] p.cursor) (h : TopLevelForm i name c.offset p p') :
    ∃ n, Placed source c n p'.cursor ∧ p'.sections.Perm (p.sections ++ [n]) := by
  obtain ⟨hopening, hbody, haside⟩ := h
  rename_i n attributes closed text q s
  obtain ⟨hopen, hattributes⟩ := hopening.spelled (hname.cursor_in hin)
  have hhead : Spelled c (tagHead name.toList attributes ++
      [.word (if closed then "/>" else ">").toList]) q.cursor := by
    simpa [tagHead] using hname.append hopen
  obtain ⟨hcursor, hperm, hn⟩ := haside.spec
  rw [Progress.sections_of_aside (hbody.aside.trans hopening.aside)] at hperm
  refine ⟨n, ?_, hperm⟩
  rw [hcursor]
  cases hbody with
  | empty hclosed =>
    subst hclosed
    rcases hscript with rfl | rfl <;> simp only [reduceIte, String.reduceEq] at hn <;> subst hn
    · have hspelled := hhead.append (.part (n := .pending "Program" q.cursor.offset q.cursor.offset)
        (k := 0) rfl rfl (.nil _))
      rw [List.append_assoc, Cursor.skip_zero] at hspelled
      exact placed_script hin hspelled hattributes (by simp) .emptyScript
    · exact placed_style hin hhead hattributes .emptyStyle
  | text hclosed hrest hclose =>
    subst hclosed
    rcases hscript with rfl | rfl <;> simp only [reduceIte, String.reduceEq] at hn <;> subst hn
    · have hprogram : Spelled q.cursor
          [.part (.pending "Program" q.cursor.offset (q.cursor.offset + byteLength text))]
          (q.cursor.skip text.length) :=
        .part rfl (Cursor.offset_skip_length hrest).symm (.nil _)
      have hspelled := hhead.append (hprogram.append hclose.spelled)
      rw [List.append_assoc] at hspelled
      exact placed_script hin hspelled hattributes (by simp) (by simpa using Written.script)
    · have hspelled := hhead.append ((Spelled.ofText hrest).append hclose.spelled)
      rw [List.append_assoc] at hspelled
      exact placed_style hin hspelled hattributes (by simpa using Written.style)

inductive SiblingPlaced (source : List Char) (topLevel : Bool) (p : Progress) :
    Option Node → Progress → Prop
  | node {n : Node} {p' : Progress} (h : Placed source p.cursor n p'.cursor)
      (haside : p'.aside = p.aside) : SiblingPlaced source topLevel p (some n) p'
  | aside {n : Node} {p' : Progress} (htop : topLevel) (h : Placed source p.cursor n p'.cursor)
      (hsections : p'.sections.Perm (p.sections ++ [n])) : SiblingPlaced source topLevel p none p'

theorem TagForm.placed {topLevel} {node} (hin : p.cursor.In source)
    (hcontent : PlacesContent source i content) (h : TagForm i content topLevel parent p node p') :
    SiblingPlaced source topLevel p node p' := by
  cases h with
  | aside htop hname hstart h =>
    obtain ⟨n, hplaced, hperm⟩ := placed_topLevel hin hname hstart.spelled h
    rw [Progress.sections_of_aside hstart.aside] at hperm
    exact .aside htop hplaced hperm
  | element hstart h =>
    obtain ⟨hplaced, haside⟩ := placed_element hin hcontent hstart.spelled h
    exact .node hplaced (haside.trans hstart.aside)

end SvelteSyntax.Markup
