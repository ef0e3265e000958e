import SvelteSyntax.Proofs.Markup.Spans.Tags

namespace SvelteSyntax.Markup

open Text Script

variable {i : Input} {source : List Char} {p p' q r : Progress}
  {n e condition : Node} {c c' d d' : Cursor} {pieces : List Piece} {content : Content}
  {keyword : String} {children ns : List Node} {branch start stop : Nat} {ending : Ending}
  {nested : Bool} {other : Option Node} {index key : List (String × Value)} {value : Value} {s : Section}
  {sections sections' : Sections}

theorem placed_elseNode (hin : c.In source) (head : List Piece)
    (hspelled : Spelled c (head ++ joined children) c') (hlt : c.offset < c'.offset)
    (hwritten : Written (elseNode c.offset c'.offset children) (head ++ joined children))
    (hsound : ∀ m ∈ children, Sound source m) :
    Placed source c (elseNode c.offset c'.offset children) c' :=
  .of_spelled hin hspelled hwritten rfl rfl hlt (.one (.nodes (List.sublist_append_right ..) hsound))

theorem ElseForm.placed (hcontent : PlacesContent source i content) (hin : p.cursor.In source)
    (hends : EndsWith p.cursor (.branch "else" branch)) (h : ElseForm i content branch p n ending p') :
    Placed source p.cursor n p'.cursor ∧ EndsWith p'.cursor ending ∧ p'.aside = p.aside := by
  obtain ⟨hopen, hchildren, rfl⟩ := h
  obtain ⟨hplaced, hend, haside⟩ := hcontent (hopen.spelled.cursor_in hin) hchildren
  refine ⟨?_, hend, haside.trans hopen.aside⟩
  have hspelled := hopen.spelled.append hplaced.spelled
  rw [hends.branch_eq]
  exact placed_elseNode hin _ hspelled hspelled.lt_of_word .otherwise hplaced.sound

theorem listed_ifNode {key : String}
    (h : (key, Value.nodes ns) ∈ (ifNode start stop condition nested children other).fields) :
    ns = children := by
  cases nested <;> cases other <;> simp_all [ifNode]

theorem placed_ifNode (hin : c.In source) {head last} (hspelled : Spelled c
      (head ++ loose condition ++ [.word ['}']] ++ joined children ++ joined other.toList ++ last) c')
    (hlt : c.offset < c'.offset)
    (hwritten : Written (ifNode c.offset c'.offset condition nested children other)
      (head ++ loose condition ++ [.word ['}']] ++ joined children ++ joined other.toList ++ last))
    (he : StandsFor i false condition) (hsound : ∀ m ∈ children ++ other.toList, Sound source m) :
    Placed source c (ifNode c.offset c'.offset condition nested children other) c' := by
  rw [List.forall_mem_append] at hsound
  refine .of_spelled hin hspelled hwritten rfl rfl hlt (.append (.append (.cons ?_ (.one ?_)) ?_) ?_)
  · exact .script he (by simp [loose, Piece.nodes])
  · refine .nodes ?_ hsound.1
    rw [List.append_assoc, List.append_assoc]
    exact (List.sublist_append_left ..).trans (List.sublist_append_right ..)
  · cases nested with
    | true => exact .one (.bare (by simp))
    | false => exact .nil
  · cases other with
    | none => exact .nil
    | some e => exact .one (.node (.inl (by simp [joined, Piece.nodes])) (hsound.2 e (by simp)))

theorem PlacedList.append {c'' ms} (h : PlacedList source c ns c')
    (h' : PlacedList source c' ms c'') : PlacedList source c (ns ++ ms) c'' where
  spelled := by
    rw [joined_append]
    exact h.spelled.append h'.spelled
  sound n hn := (List.mem_append.mp hn).elim (h.sound n) (h'.sound n)

theorem placed_ifChain (hcontent : PlacesContent source i content)
    (h : IfChain i content start condition nested p n p') (hin : p.cursor.In source) :
    ∃ children other, n = ifNode start p'.cursor.offset condition nested children other ∧
      PlacedList source p.cursor (children ++ other.toList) p'.cursor ∧ p'.aside = p.aside := by
  induction h with
  | @last start close condition nested p p' children h =>
    obtain ⟨hplaced, hends, haside⟩ := hcontent hin h
    exact ⟨children, none, by rw [hends.blockClose_eq], by simpa using hplaced, haside⟩
  | @other start close branch condition nested p q p' children other h hother =>
    obtain ⟨hplaced, hends, haside⟩ := hcontent hin h
    obtain ⟨hother, hclose, haside'⟩ := hother.placed hcontent (hplaced.spelled.cursor_in hin) hends
    exact ⟨children, some other, by rw [hclose.blockClose_eq], hplaced.append hother.list,
      haside'.trans haside⟩
  | @link start branch condition inner nested p q r s p' children link h hopen hinner he hlink ih =>
    obtain ⟨hplaced, hends, haside⟩ := hcontent hin h
    have hin' := hplaced.spelled.cursor_in hin
    have hin'' := hopen.spelled.cursor_in hin'
    obtain ⟨children', other', rfl, hrest, haside'⟩ := ih (hinner.spelled.cursor_in hin'')
    have hspelled : Spelled r.cursor ([.word "if".toList] ++ loose inner ++ [.word ['}']] ++
        joined children' ++ joined other'.toList ++ []) p'.cursor := by
      have := hinner.spelled.append hrest.spelled
      rw [joined_append] at this
      simpa using this
    have hlink := placed_ifNode hin'' hspelled hspelled.lt_of_word (by simpa using Written.elseIf) he
      hrest.sound
    have helse := hopen.spelled.append hlink.spelled
    rw [hends.branch_eq]
    refine ⟨children, some _, rfl, hplaced.append (Placed.list ?_), ?_⟩
    · refine placed_elseNode hin' (opener ':' "else" ++ [.blank]) helse helse.lt_of_word ?_
        (by simpa using hlink.sound)
      simpa [joined] using Written.otherwiseIf
    · exact haside'.trans (hinner.aside.trans (hopen.aside.trans haside))

theorem placed_ifBlock {node} (hcontent : PlacesContent source i content) (hin : p.cursor.In source)
    (hopen : Spells p (opener '#' "if" ++ (loose condition ++ [.word ['}']])) q)
    (he : StandsFor i false condition)
    (hchain : IfChain i content p.cursor.offset condition false q node r)
    (hend : Spells r (closer "if") p') :
    Placed source p.cursor { node with stop := p'.cursor.offset } p'.cursor ∧
      p'.aside = p.aside := by
  obtain ⟨children, other, rfl, hplaced, haside⟩ := placed_ifChain hcontent hchain
    (hopen.spelled.cursor_in hin)
  have hall : Spelled p.cursor
      (opener '#' "if" ++ loose condition ++ [.word ['}']] ++ joined children ++
        joined other.toList ++ closer "if") p'.cursor := by
    have := (hopen.spelled.append hplaced.spelled).append hend.spelled
    rw [joined_append] at this
    simpa using this
  exact ⟨placed_ifNode hin hall hall.lt_of_word .ifBlock he hplaced.sound,
    hend.aside.trans (haside.trans hopen.aside)⟩

theorem joined_sublist_listed (es : List Node) : (joined es).Sublist (listed es) := by
  induction es with
  | nil => exact .slnil
  | cons e es ih =>
    cases es with
    | nil => simp [joined, listed, loose]
    | cons e' es => exact (((ih.cons _).cons _).cons_cons (.node e)).cons _

theorem DebugForm.placed (hin : c.In source) (hopen : Spelled c (opener '@' "debug") p.cursor)
    (h : DebugForm i c.offset p n p') : Placed source c n p'.cursor ∧ p'.aside = p.aside := by
  cases h with
  | all hbody h hn =>
    have hspelled := hopen.append h.spelled
    rw [hn]
    exact ⟨.of_spelled hin hspelled (.debugAll hbody) rfl rfl hspelled.lt_of_word
      (.one (.bare (by simp))), h.aside⟩
  | names hne hes h hn =>
    have hspelled := hopen.append h.spelled
    rw [← List.append_assoc] at hspelled
    rw [hn]
    refine ⟨.of_spelled hin hspelled (.debug hne) rfl rfl hspelled.lt_of_word
      (.one (.nodes ?_ fun e he => (hes e he).sound)), h.aside⟩
    exact (joined_sublist_listed _).trans
      ((List.sublist_append_right ..).trans (List.sublist_append_left ..))

theorem EachOther.placed {fields} (hcontent : PlacesContent source i content)
    (hin : p.cursor.In source) (hends : EndsWith p.cursor ending)
    (h : EachOther i content p ending fields p') :
    ∃ other : Option Node, fields = (other.toList.map fun e => ("else", .node e)) ∧
      PlacedList source p.cursor other.toList p'.cursor ∧ p'.aside = p.aside := by
  cases h with
  | absent => exact ⟨none, rfl, .nil _, rfl⟩
  | @present _ _ _ other hother =>
    obtain ⟨hplaced, -, haside⟩ := hother.placed hcontent hin hends
    exact ⟨some other, rfl, hplaced.list, haside⟩

theorem placed_each (hin : c.In source) (hopen : Spelled c (opener '#' "each") p.cursor)
    (hcontent : PlacesContent source i content) (h : EachForm i content c.offset p n p') :
    Placed source c n p'.cursor ∧ p'.aside = p.aside := by
  obtain @⟨_, _, index, key, _, _, _, _, _, _, hhead, hlist, hcontext, hindex, hkey, hchildren, hother,
    hend, rfl⟩ := h
  have hfirst := hopen.append hhead.spelled
  obtain ⟨hplaced, hends, haside⟩ := hcontent (hfirst.cursor_in hin) hchildren
  have hbody := hfirst.append hplaced.spelled
  obtain ⟨other, rfl, hother, haside'⟩ := hother.placed hcontent (hbody.cursor_in hin) hends
  have hall := (hbody.append hother.spelled).append hend.spelled
  simp only [← List.append_assoc] at hall
  refine ⟨?_, hend.aside.trans (haside'.trans (haside.trans hhead.aside))⟩
  have hindexKey : ∀ f ∈ index, f.1 = "index" := by rcases hindex with rfl | ⟨_, rfl⟩ <;> simp
  have hkeyKey : ∀ f ∈ key, f.1 = "key" := by cases hkey <;> simp
  refine .of_spelled hin hall (.each hindexKey hkeyKey) rfl rfl hall.lt_of_word
    (.append (.append (.append (.append (.cons ?_ (.one ?_)) ?_) ?_) (.one ?_)) ?_)
  · exact .script hlist (by simp [loose, Piece.nodes])
  · exact .script hcontext (by simp [loose, Piece.nodes])
  · rcases hindex with rfl | ⟨_, rfl⟩
    · exact .nil
    · exact .one (.bare (by simp))
  · cases hkey with
    | absent => exact .nil
    | grouped he => exact .one (.script he (by simp [keyPieces, loose, Piece.nodes]))
    | named => exact .one (.bare (by simp))
  · refine .nodes ?_ hplaced.sound
    rw [List.append_assoc, List.append_assoc]
    exact (List.sublist_append_left ..).trans (List.sublist_append_right ..)
  · cases other with
    | none => exact .nil
    | some e => exact .one (.node (.inl (by simp [joined, Piece.nodes])) (hother.sound e (by simp)))

/-- A section of an await block is not there, or it fills the text between two places. -/
inductive SectionPlaced (source : List Char) (c : Cursor) (d : Cursor) (n : Node) : Cursor → Prop
  | absent (s : Section) (h : n = skippedNode s c.offset) : SectionPlaced source c d n d
  | present {d' : Cursor} (hspelled : Spelled d [.part n] d') (hsound : Sound source n)
      (hskip : n.flag "skip" = false) : SectionPlaced source c d n d'

namespace SectionPlaced

variable {d d' : Cursor}

theorem spelled (h : SectionPlaced source c d n d') : Spelled d (sectionPieces n) d' := by
  cases h with
  | absent s h =>
    subst h
    exact .nil _
  | present hspelled _ hskip => simpa [sectionPieces, hskip] using hspelled

theorem spelled_absent (h : SectionPlaced source c d n d') : Spelled c (absentPieces n) c := by
  cases h with
  | absent s h =>
    subst h
    exact .part (k := 0) rfl rfl (by simpa using .nil c)
  | present _ _ hskip => simpa [absentPieces, hskip] using .nil c

theorem sound (hin : c.In source) (h : SectionPlaced source c d n d') : Sound source n := by
  cases h with
  | absent s h =>
    subst h
    exact sound_of_spelled hin (.nil c) .skippedSection rfl rfl
      (.cons (.bare (by simp)) (.one (.bare (by simp))))
  | present _ hsound _ => exact hsound

end SectionPlaced

theorem mem_sectionPieces (n : Node) : .part n ∈ absentPieces n ∨ .part n ∈ sectionPieces n := by
  cases hskip : n.flag "skip" <;> simp [absentPieces, sectionPieces, hskip]

theorem sound_sectionNode (hin : c.In source) (head : List Piece)
    (hspelled : Spelled c (head ++ joined children) c')
    (hwritten : Written (sectionNode s c.offset c'.offset children) (head ++ joined children))
    (hsound : ∀ m ∈ children, Sound source m) :
    Sound source (sectionNode s c.offset c'.offset children) :=
  sound_of_spelled hin hspelled hwritten rfl rfl
    (.cons (.nodes (List.sublist_append_right ..) hsound) (.one (.bare (by simp))))

theorem placed_sectionNode (hin : d.In source) (head : List Piece)
    (hspelled : Spelled d (head ++ joined children) d')
    (hwritten : Written (sectionNode s d.offset d'.offset children) (head ++ joined children))
    (hsound : ∀ m ∈ children, Sound source m) :
    SectionPlaced source c d (sectionNode s d.offset d'.offset children) d' := by
  obtain ⟨k, rfl⟩ := hspelled.exists_skip
  exact .present (.part rfl rfl (.nil _)) (sound_sectionNode hin head hspelled hwritten hsound) rfl

theorem mem_nodes_of_boundPieces (h : boundPieces (.node e) ⊆ pieces) : e ∈ pieces.flatMap Piece.nodes :=
  List.mem_flatMap.mpr ⟨.node e, h (by simp [boundPieces, loose]), List.mem_singleton_self e⟩

theorem BoundValue.part (h : BoundValue i value) (hsub : boundPieces value ⊆ pieces) :
    Part source pieces value := by
  cases h with
  | none | name => exact .bare (by simp)
  | pattern he => exact .script he (mem_nodes_of_boundPieces hsub)

/-- The value lies in the node, wherever that stands. -/
def PartOf (source : List Char) (n : Node) (v : Value) : Prop :=
  ∀ pieces, n ∈ pieces.flatMap Piece.nodes → Part source pieces v

theorem PartOf.null : PartOf source n .null := fun _ _ => .bare (by simp)

theorem BoundValue.partOf (h : BoundValue i value) (hsub : boundPieces value ⊆ pieces)
    (hspelled : Spelled c pieces c') (hstart : n.start = c.offset) (hstop : n.stop = c'.offset) :
    PartOf source n value := by
  intro _ hn
  cases h with
  | none | name => exact .bare (by simp)
  | pattern he =>
    obtain ⟨hlo, horder, hhi⟩ := hspelled.mem (mem_nodes_of_boundPieces hsub)
    exact .node (.inr ⟨n, hn, by omega, horder, by omega⟩) he.sound

theorem placed_branchSection {r} (hcontent : PlacesContent source i content)
    (hin : p.cursor.In source) (hends : EndsWith p.cursor (.branch keyword branch))
    (hopen : Spells p (opener ':' keyword ++ (boundPieces value ++ [.word ['}']])) q)
    (hvalue : BoundValue i value) (hchildren : Gives (content s.kind) i q (children, ending) r)
    (hwritten : ∀ start stop, Written (sectionNode s start stop children)
      (opener ':' keyword ++ boundPieces value ++ [.word ['}']] ++ joined children)) :
    SectionPlaced source c p.cursor (sectionNode s branch r.cursor.offset children) r.cursor ∧
      PartOf source (sectionNode s branch r.cursor.offset children) value ∧
      EndsWith r.cursor ending ∧ r.aside = p.aside := by
  obtain ⟨hplaced, hend, haside⟩ := hcontent (hopen.spelled.cursor_in hin) hchildren
  have hspelled := hopen.spelled.append hplaced.spelled
  rw [← List.append_assoc] at hspelled
  obtain rfl := hends.branch_eq
  exact ⟨placed_sectionNode hin _ hspelled (hwritten ..) hplaced.sound,
    hvalue.partOf (fun _ h => by simp [h]) hspelled rfl rfl, hend,
    haside.trans hopen.aside⟩

/-- The last section of an await block, if it is there, and the tag that closes the block. -/
structure AwaitTail (source : List Char) (c : Cursor) (p : Progress) (sections : Sections)
    (p' : Progress) : Prop where
  placed : ∃ d, SectionPlaced source c p.cursor sections.rejected d ∧
    Spelled d (closer "await") p'.cursor
  error : PartOf source sections.rejected sections.error
  aside : p'.aside = p.aside

theorem AwaitTail.close (h : Spells p (closer "await") p')
    (hrejected : sections.rejected = skippedNode .rejected c.offset) (herror : sections.error = .null) :
    AwaitTail source c p sections p' where
  placed := ⟨_, .absent _ hrejected, h.spelled⟩
  error := herror ▸ .null
  aside := h.aside

theorem AwaitRest.of_rejected (h : AwaitRest i content .rejected sections p ending sections' p') :
    sections' = sections ∧ Spells p (closer "await") p' := by
  cases h with
  | close h => exact ⟨rfl, h⟩
  | rejected hcurrent => exact absurd rfl hcurrent

theorem placed_catch {error} (hcontent : PlacesContent source i content)
    (hin : p.cursor.In source) (hends : EndsWith p.cursor (.branch "catch" branch))
    (hopen : Spells p (opener ':' "catch" ++ (boundPieces error ++ [.word ['}']])) q)
    (herror : BoundValue i error) (hchildren : Gives (content "CatchBlock") i q (children, ending) r)
    (hrest : AwaitRest i content .rejected
      { sections with error, rejected := sectionNode .rejected branch r.cursor.offset children } r
      ending sections' p') :
    AwaitTail source c p sections' p' ∧ sections'.pending = sections.pending ∧
      sections'.fulfilled = sections.fulfilled ∧ sections'.value = sections.value := by
  obtain ⟨rfl, hend⟩ := hrest.of_rejected
  obtain ⟨hplaced, hvalue, -, haside⟩ := placed_branchSection (s := .rejected) hcontent hin
    hends hopen herror hchildren fun _ _ => .catchSection
  exact ⟨⟨⟨_, hplaced, hend.spelled⟩, hvalue, hend.aside.trans haside⟩, rfl, rfl, rfl⟩

theorem AwaitRest.of_fulfilled (h : AwaitRest i content .fulfilled sections p ending sections' p')
    (hcontent : PlacesContent source i content) (hin : p.cursor.In source)
    (hends : EndsWith p.cursor ending)
    (hrejected : sections.rejected = skippedNode .rejected c.offset) (herror : sections.error = .null) :
    AwaitTail source c p sections' p' ∧ sections'.pending = sections.pending ∧
      sections'.fulfilled = sections.fulfilled ∧ sections'.value = sections.value := by
  cases h with
  | close h => exact ⟨.close h hrejected herror, rfl, rfl, rfl⟩
  | rejected _ hbranch herror hchildren hrest =>
    exact placed_catch hcontent hin hends hbranch herror hchildren hrest

theorem AwaitRest.of_pending (h : AwaitRest i content .pending sections p ending sections' p')
    (hcontent : PlacesContent source i content) (hin : p.cursor.In source)
    (hends : EndsWith p.cursor ending)
    (hfulfilled : sections.fulfilled = skippedNode .fulfilled c.offset) (hvalue : sections.value = .null)
    (hrejected : sections.rejected = skippedNode .rejected c.offset) (herror : sections.error = .null) :
    sections'.pending = sections.pending ∧
      ∃ q, SectionPlaced source c p.cursor sections'.fulfilled q.cursor ∧
        PartOf source sections'.fulfilled sections'.value ∧ q.aside = p.aside ∧
        AwaitTail source c q sections' p' := by
  cases h with
  | close h =>
    exact ⟨rfl, p, .absent _ hfulfilled, hvalue ▸ .null, rfl, .close h hrejected herror⟩
  | fulfilled hbranch hvalue hchildren hrest =>
    obtain ⟨hplaced, hvalue, hends', haside⟩ := placed_branchSection (s := .fulfilled) (c := c) hcontent
      hin hends hbranch hvalue hchildren fun _ _ => .thenSection
    have hspelled := hplaced.spelled
    obtain ⟨htail, hpending, hsame, hvalue'⟩ := hrest.of_fulfilled hcontent (hspelled.cursor_in hin) hends' hrejected herror
    exact ⟨hpending, _, hsame ▸ hplaced, by rwa [hsame, hvalue'], haside, htail⟩
  | rejected _ hbranch herror hchildren hrest =>
    obtain ⟨htail, hpending, hsame, hvalue'⟩ :=
      placed_catch hcontent hin hends hbranch herror hchildren hrest
    exact ⟨hpending, p, .absent _ (hsame.trans hfulfilled), hvalue'.trans hvalue ▸ .null, rfl, htail⟩

theorem mem_awaitPieces (hopener : awaitOpener sections ⊆ pieces) (hbody : awaitBody sections ⊆ pieces)
    {n : Node} (hn : n = sections.pending ∨ n = sections.fulfilled ∨ n = sections.rejected) :
    n ∈ pieces.flatMap Piece.nodes := by
  have hmem : .part n ∈ pieces := by
    rcases mem_sectionPieces n with h | h
    · exact hopener (by rcases hn with rfl | rfl | rfl <;> simp [awaitOpener, h])
    · exact hbody (by rcases hn with rfl | rfl | rfl <;> simp [awaitBody, h])
  exact List.mem_flatMap.mpr ⟨_, hmem, List.mem_singleton_self n⟩

theorem placed_awaitNode (hin : c.In source) (hspelled : Spelled c pieces c')
    (hlt : c.offset < c'.offset) (hwritten : Written (awaitNode c.offset c'.offset e sections) pieces)
    (hopener : awaitOpener sections ⊆ pieces) (hbody : awaitBody sections ⊆ pieces)
    (he : Part source pieces (.node e))
    (hvalue : sections.fulfilled ∈ pieces.flatMap Piece.nodes → Part source pieces sections.value)
    (herror : PartOf source sections.rejected sections.error) (hpending : Sound source sections.pending)
    (hfulfilled : Sound source sections.fulfilled) (hrejected : Sound source sections.rejected) :
    Placed source c (awaitNode c.offset c'.offset e sections) c' := by
  have hmem := @mem_awaitPieces pieces sections hopener hbody
  exact .of_spelled hin hspelled hwritten rfl rfl hlt
    (.cons he (.cons (hvalue (hmem (.inr (.inl rfl)))) (.cons (herror _ (hmem (.inr (.inr rfl))))
      (.cons (.node (.inl (hmem (.inl rfl))) hpending)
        (.cons (.node (.inl (hmem (.inr (.inl rfl)))) hfulfilled)
          (.one (.node (.inl (hmem (.inr (.inr rfl)))) hrejected)))))))

theorem spelled_awaitBody (hpending : SectionPlaced source c d sections.pending d')
    (hfulfilled : SectionPlaced source c d' sections.fulfilled p.cursor)
    (htail : AwaitTail source c p sections p') :
    Spelled d (awaitBody sections) p'.cursor ∧
      (∀ ps, Spelled c (opener '#' "await" ++ ps) d → Spelled c (awaitOpener sections ++ ps) d) := by
  obtain ⟨d'', hrejected, hclose⟩ := htail.placed
  refine ⟨((hpending.spelled.append hfulfilled.spelled).append hrejected.spelled).append hclose, ?_⟩
  intro ps hps
  have hopener := ((hpending.spelled_absent.append hfulfilled.spelled_absent).append
    hrejected.spelled_absent).append hps
  rwa [← List.append_assoc] at hopener

theorem placed_await (hin : c.In source) (hopen : Spelled c (opener '#' "await") p.cursor)
    (hcontent : PlacesContent source i content) (h : AwaitForm i content c.offset p n p') :
    Placed source c n p'.cursor ∧ p'.aside = p.aside := by
  obtain ⟨hhead, he, hchildren, hrest, rfl⟩ := h
  rename_i e value first q r children ending sections
  cases hhead with
  | plain h hvalue =>
    have hfirst := hopen.append h.spelled
    obtain ⟨hplaced, hends, haside⟩ := hcontent (hfirst.cursor_in hin) hchildren
    have hbody := hfirst.append hplaced.spelled
    obtain ⟨hpending, s, hfulfilled, hvalue, haside', htail⟩ := hrest.of_pending hcontent
      (hbody.cursor_in hin) hends rfl hvalue rfl rfl
    have hsection : SectionPlaced source c q.cursor sections.pending r.cursor :=
      hpending ▸ placed_sectionNode (hfirst.cursor_in hin) [] hplaced.spelled
        (.firstSection (by decide)) hplaced.sound
    obtain ⟨hspelled, hopener⟩ := spelled_awaitBody hsection hfulfilled htail
    obtain ⟨_, hrejected, -⟩ := htail.placed
    have hall := (hopener _ hfirst).append hspelled
    simp only [← List.append_assoc] at hall
    exact ⟨placed_awaitNode hin hall (Nat.lt_of_lt_of_le hfirst.lt_of_word hspelled.offset_le) .await
      (fun _ h => by simp [h]) (fun _ h => by simp [h]) (.script he (by simp [loose, Piece.nodes]))
      (hvalue _) htail.error (hsection.sound hin) (hfulfilled.sound hin) (hrejected.sound hin),
      htail.aside.trans (haside'.trans (haside.trans h.aside))⟩
  | compact h hbound =>
    have hfirst := hopen.append h.spelled
    obtain ⟨hplaced, hends, haside⟩ := hcontent (hfirst.cursor_in hin) hchildren
    have hbody := hfirst.append hplaced.spelled
    obtain ⟨htail, hpending, hfulfilled, hvalue⟩ := hrest.of_fulfilled hcontent
      (hbody.cursor_in hin) hends rfl rfl
    have habsent : SectionPlaced source c q.cursor sections.pending q.cursor := .absent _ hpending
    have hsection : SectionPlaced source c q.cursor sections.fulfilled r.cursor :=
      hfulfilled ▸ placed_sectionNode (hfirst.cursor_in hin) [] hplaced.spelled
        (.firstSection (by decide)) hplaced.sound
    obtain ⟨hspelled, hopener⟩ := spelled_awaitBody habsent hsection htail
    obtain ⟨_, hrejected, -⟩ := htail.placed
    obtain rfl : sections.value = value := hvalue
    have hall := (hopener _ hfirst).append hspelled
    simp only [← List.append_assoc] at hall
    exact ⟨placed_awaitNode hin hall (Nat.lt_of_lt_of_le hfirst.lt_of_word hspelled.offset_le)
      (.awaitThen (by rw [hpending]; rfl)) (fun _ h => by simp [h]) (fun _ h => by simp [h])
      (.script he (by simp [loose, Piece.nodes])) (fun _ => hbound.part fun _ h => by simp [h])
      htail.error (habsent.sound hin) (hsection.sound hin) (hrejected.sound hin),
      htail.aside.trans (haside.trans h.aside)⟩

theorem MustacheForm.placed (hin : p.cursor.In source) (hcontent : PlacesContent source i content)
    (h : MustacheForm i content p n p') :
    Placed source p.cursor n p'.cursor ∧ p'.aside = p.aside := by
  cases h with
  | ifBlock hopen he hchain hend hn =>
    rw [hn]
    exact placed_ifBlock hcontent hin hopen he hchain hend
  | each hopen h =>
    obtain ⟨hplaced, haside⟩ := placed_each hin hopen.spelled hcontent h
    exact ⟨hplaced, haside.trans hopen.aside⟩
  | await hopen h =>
    obtain ⟨hplaced, haside⟩ := placed_await hin hopen.spelled hcontent h
    exact ⟨hplaced, haside.trans hopen.aside⟩
  | raw h he hn =>
    have hspelled := h.spelled
    rw [← List.append_assoc] at hspelled
    rw [hn]
    exact ⟨placed_expression hin hspelled hspelled.lt_of_word .rawMustache he
      (by simp [loose, Piece.nodes]), h.aside⟩
  | debug hopen h =>
    obtain ⟨hplaced, haside⟩ := h.placed hin hopen.spelled
    exact ⟨hplaced, haside.trans hopen.aside⟩
  | plain h => exact ⟨h.placed hin, h.aside⟩

end SvelteSyntax.Markup
