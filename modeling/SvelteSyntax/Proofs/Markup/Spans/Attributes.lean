import SvelteSyntax.Proofs.Markup.Grammar

namespace SvelteSyntax.Markup

open Text Script

/-- At a node the spans are exact and the text is what the node is written as. A script that is
still to be parsed is only a span. -/
def Fine (source : List Char) (n : Node) : Prop :=
  n.Exact ∧ (n.placeholder = true ∨ WrittenIn source n)

def Sound (source : List Char) (n : Node) : Prop := ∀ m, n.InTree m → Fine source m

theorem Sound.child {c : Node} (h : Sound source n) (hc : n.HasChild c) :
    Sound source c :=
  (Node.forall_inTree.mp h).2 c hc

theorem Sound.exact (h : Sound source n) : n.Exact := (h n .root).1

structure Placed (source : List Char) (c : Cursor) (n : Node) (c' : Cursor) : Prop where
  spelled : Spelled c [.node n] c'
  sound : Sound source n

variable {i : Input} {source text tail rest word : List Char} {p p' : Progress} {n e : Node}
  {c c' : Cursor} {pieces : List Piece} {start : Nat} {kind : String} {chunks ns : List Node}
  {quote : Char}

def Among (pieces : List Piece) (m : Node) : Prop :=
  m ∈ pieces.flatMap Piece.nodes ∨ ∃ k ∈ pieces.flatMap Piece.nodes, m.Inside k

/-- What may stand in a field of a node that is written with the pieces. -/
structure Part (source : List Char) (pieces : List Piece) (v : Value) : Prop where
  among : ∀ m, v.Holds m → Among pieces m
  sound : ∀ m, v.Holds m → Sound source m
  listed : ∀ ns, v = .nodes ns → (joined ns).Sublist pieces

theorem mem_nodes_of_sublist (h : (joined ns).Sublist pieces) (hn : n ∈ ns) :
    n ∈ pieces.flatMap Piece.nodes :=
  List.mem_flatMap.mpr ⟨.node n, h.mem (List.mem_map_of_mem hn), List.mem_singleton_self n⟩

namespace Part

theorem bare {v : Value} (h : ∀ m, ¬v.Holds m) : Part source pieces v where
  among m hm := absurd hm (h m)
  sound m hm := absurd hm (h m)
  listed ns hv := by
    obtain rfl : ns = [] := List.eq_nil_iff_forall_not_mem.mpr fun m hm => h m (hv ▸ .nodes hm)
    exact List.nil_sublist _

theorem node (h : Among pieces e) (hsound : Sound source e) : Part source pieces (.node e) :=
  ⟨by simpa using h, by simpa using hsound, nofun⟩

theorem nodes (h : (joined ns).Sublist pieces) (hsound : ∀ m ∈ ns, Sound source m) :
    Part source pieces (.nodes ns) where
  among m hm := .inl (mem_nodes_of_sublist h (by simpa using hm))
  sound m hm := hsound m (by simpa using hm)
  listed _ hns := Value.nodes.inj hns ▸ h

end Part

/-- The fields of a node that is written with the pieces. -/
abbrev Parts (source : List Char) (pieces : List Piece) : List (String × Value) → Prop :=
  Fields.All fun _ v => Part source pieces v

theorem sound_of_spelled (hin : c.In source) (hspelled : Spelled c pieces c')
    (hwritten : Written n pieces) (hstart : n.start = c.offset) (hstop : n.stop = c'.offset)
    (hparts : Parts source pieces n.fields) : Sound source n := by
  refine Node.forall_inTree.mpr ⟨⟨⟨?_, fun m hm => ?_, fun key ns hns => ?_⟩,
    .inr ⟨c, c', pieces, hin, hstart.symm, hstop.symm, hwritten, hspelled⟩⟩, fun m hm => ?_⟩
  · rw [hstart, hstop]
    exact hspelled.offset_le
  · obtain ⟨key, v, hv, hm⟩ := hm
    rcases (hparts _ hv).among m hm with hmem | ⟨k, hmem, hk⟩
    · obtain ⟨hlo, horder, hhi⟩ := hspelled.mem hmem
      exact ⟨by omega, horder, by omega⟩
    · obtain ⟨hlo, horder, hhi⟩ := hspelled.mem hmem
      exact hk.trans ⟨by omega, horder, by omega⟩
  · rw [hstart, hstop]
    exact hspelled.inOrder ((hparts _ hns).listed ns rfl)
  · obtain ⟨key, v, hv, hm⟩ := hm
    exact (hparts _ hv).sound m hm

theorem Placed.of_spelled (hin : c.In source) (hspelled : Spelled c pieces c')
    (hwritten : Written n pieces) (hstart : n.start = c.offset) (hstop : n.stop = c'.offset)
    (hlt : c.offset < c'.offset) (hparts : Parts source pieces n.fields) : Placed source c n c' where
  spelled := by
    obtain ⟨k, rfl⟩ := hspelled.exists_skip
    exact .node hstart hstop (by omega) (.nil _)
  sound := sound_of_spelled hin hspelled hwritten hstart hstop hparts

theorem sound_pending {stop} (h : start ≤ stop) :
    Sound source (.pending kind start stop) := by
  refine Node.forall_inTree.mpr ⟨⟨⟨h, ?_, ?_⟩, .inl rfl⟩, ?_⟩
  · rintro c ⟨key, v, hmem, -⟩
    cases hmem
  · rintro key ns hmem
    cases hmem
  · rintro c ⟨key, v, hmem, -⟩
    cases hmem

theorem StandsFor.sound {assignable} (h : StandsFor i assignable e) : Sound source e := by
  obtain ⟨⟨parsed, -, he⟩, hlt⟩ := h
  rw [he]
  exact sound_pending (Nat.le_of_lt hlt)

theorem Part.script {assignable} (h : StandsFor i assignable e) (he : e ∈ pieces.flatMap Piece.nodes) :
    Part source pieces (.node e) :=
  .node (.inl he) h.sound

theorem placed_expression {assignable} (hin : c.In source) (hspelled : Spelled c pieces c')
    (hlt : c.offset < c'.offset)
    (hwritten : Written (expressionNode kind c.offset c'.offset e) pieces)
    (h : StandsFor i assignable e) (he : e ∈ pieces.flatMap Piece.nodes) :
    Placed source c (expressionNode kind c.offset c'.offset e) c' :=
  .of_spelled hin hspelled hwritten rfl rfl hlt (.one (.script h he))

theorem placed_text (hin : c.In source) {data} (h : Spelled c [.word data] c') (hne : data ≠ []) :
    Placed source c (textNode c.offset data) c' := by
  obtain ⟨tail, hrest, hc'⟩ := h.of_word
  have hstop := Cursor.offset_skip_length hrest
  rw [← hc'] at hstop
  exact .of_spelled hin h .text rfl hstop.symm (h.lt_of_ne_nil hne)
    (.cons (.bare (by simp)) (.one (.bare (by simp))))

theorem ChunkForm.placed (hin : p.cursor.In source) (h : ChunkForm i p n p') :
    Placed source p.cursor n p'.cursor := by
  cases h with
  | braces h he hn =>
    rw [hn]
    exact placed_expression hin h.spelled h.spelled.lt_of_word .mustache he (by simp [loose, Piece.nodes])
  | text h hne hn =>
    rw [hn]
    exact placed_text hin h.spelled hne

structure PlacedList (source : List Char) (c : Cursor) (ns : List Node) (c' : Cursor) : Prop where
  spelled : Spelled c (joined ns) c'
  sound : ∀ n ∈ ns, Sound source n

theorem PlacedList.cons {c''} (h : Placed source c n c') (h' : PlacedList source c' ns c'') :
    PlacedList source c (n :: ns) c'' :=
  ⟨h.spelled.append h'.spelled, by simpa using ⟨h.sound, h'.sound⟩⟩

theorem Placed.list (h : Placed source c n c') : PlacedList source c [n] c' :=
  ⟨h.spelled, by simpa using h.sound⟩

theorem PlacedList.nil (c : Cursor) : PlacedList source c [] c := ⟨.nil c, by simp⟩

theorem Placed.cursor_in (h : Placed source c n c') (hin : c.In source) : c'.In source :=
  h.spelled.cursor_in hin

theorem placed_chunks (hin : p.cursor.In source) (h : Rounds (ChunkForm i) p chunks p') :
    PlacedList source p.cursor chunks p'.cursor := by
  induction h with
  | nil => exact .nil _
  | cons h _ ih =>
    have hchunk := h.placed hin
    exact .cons hchunk (ih (hchunk.cursor_in hin))

theorem ValueForm.spelled (hin : p.cursor.In source) (h : ValueForm i p chunks p') :
    (∃ quote ∈ quotes, Spelled p.cursor (quote ++ joined chunks ++ quote) p'.cursor) ∧
      ∀ chunk ∈ chunks, Sound source chunk := by
  obtain ⟨hmarks, hopen, hchunks, hclose⟩ := h
  have hplaced := placed_chunks (hopen.spelled.cursor_in hin) hchunks
  exact ⟨⟨_, hmarks, (hopen.spelled.append hplaced.spelled).append hclose.spelled⟩, hplaced.sound⟩

theorem soleExpression?_eq_some (h : soleExpression? chunks = some e) :
    ∃ chunk, chunks = [chunk] ∧ chunk.kind = "MustacheTag" ∧ chunk.get? "expression" = some (.node e) := by
  unfold soleExpression? at h
  split at h
  · rename_i chunk
    split at h
    · rename_i hkind
      refine ⟨chunk, rfl, by simpa [Node.is] using hkind, ?_⟩
      obtain ⟨v, hv, he⟩ := Option.bind_eq_some_iff.mp h
      cases v <;> simp_all [Value.toNode?]
    · cases h
  · cases h

theorem spelled_soleExpression (h : ValueForm i p chunks p') (hsole : soleExpression? chunks = some e) :
    (∃ quote ∈ quotes,
      Spelled p.cursor (quote ++ ([.word ['{']] ++ loose e ++ [.word ['}']]) ++ quote) p'.cursor) ∧
      StandsFor i false e := by
  obtain ⟨chunk, rfl, hkind, hget⟩ := soleExpression?_eq_some hsole
  obtain ⟨hmarks, hopen, hchunks, hclose⟩ := h
  cases hchunks with
  | cons hchunk hmore =>
    cases hmore
    cases hchunk with
    | @braces e' h he hn =>
      obtain rfl : e' = e := by simpa [hn, expressionNode, Node.get?, Fields.get?] using hget
      exact ⟨⟨_, hmarks, (hopen.spelled.append h.spelled).append hclose.spelled⟩, he⟩
    | text _ _ hn => simp [hn, textNode] at hkind

theorem BraceForm.placed (hin : p.cursor.In source) (h : BraceForm i p n p') :
    Placed source p.cursor n p'.cursor := by
  cases h with
  | spread he h hn =>
    rw [hn]
    exact placed_expression hin h.spelled h.spelled.lt_of_word .spread he (by simp [loose, Piece.nodes])
  | shorthand name he hopen hname hclose _ hn =>
    have hspan := hname.mem (List.mem_singleton_self _)
    have hlt := he.lt
    have hvalue := placed_expression (hopen.cursor_in hin) hname (by omega) .shorthandName he
      (List.mem_singleton_self _)
    have hspelled := (hopen.append hvalue.spelled).append hclose
    rw [hn]
    refine .of_spelled hin hspelled .shorthand rfl rfl hspelled.lt_of_word
      (.cons (.bare (by simp)) (.one (.nodes ?_ (by simpa using hvalue.sound))))
    simp [joined]

theorem fields_directiveNode {stop} {e : Option Node} :
    (∀ m, (directiveNode kind word rest start stop e).HasChild m ↔ e = some m) ∧
      ∀ key ns, (key, Value.nodes ns) ∉ (directiveNode kind word rest start stop e).fields := by
  have hlist (key : String) (ns : List Node) : (key, Value.nodes ns) ≠ ("expression", .ofOption e) := by
    cases e <;> simp [Value.ofOption]
  unfold directiveNode
  split <;> simp [Node.HasChild, Node.set, Fields.set, hlist]

theorem placed_directive (hin : c.In source) (hspelled : Spelled c pieces c')
    (hlt : c.offset < c'.offset) {e : Option Node}
    (hwritten : Written (directiveNode kind word rest c.offset c'.offset e) pieces)
    (hpart : Part source pieces (.ofOption e)) :
    Placed source c (directiveNode kind word rest c.offset c'.offset e) c' := by
  have hparts : Parts source pieces
      [("name", .string (String.ofList (directiveName rest))),
        ("modifiers", .strings ((splitOn '|' rest).tail.map String.ofList)), ("expression", .ofOption e)] :=
    .cons (.bare (by simp)) (.cons (.bare (by simp)) (.one hpart))
  unfold directiveNode at hwritten ⊢
  split
  · rw [if_pos ‹_›] at hwritten
    refine .of_spelled hin hspelled hwritten rfl rfl hlt ?_
    simp only [Node.set, Fields.set]
    exact hparts.append (.cons (.bare (by simp)) (.one (.bare (by simp))))
  · rw [if_neg ‹_›] at hwritten
    exact .of_spelled hin hspelled hwritten rfl rfl hlt hparts

theorem spelled_ownName (h : Spelled c [.word (word ++ ':' :: rest)] c') (hne : rest ≠ []) (kind : String) :
    Spelled c
      [.word (word ++ [':']), .node (.pending kind (c.offset + byteLength word + 1) c'.offset)] c' := by
  obtain ⟨tail, hrest, rfl⟩ := h.of_word
  have hrest₁ : c.rest = (word ++ [':']) ++ (rest ++ tail) := by simp [hrest]
  have hoffset : (c.skip (word ++ [':']).length).offset = c.offset + byteLength word + 1 := by
    rw [Cursor.offset_skip_length hrest₁, byteLength_append, ← Nat.add_assoc]
    rfl
  have hrest₂ := Cursor.rest_skip_length hrest₁
  have hend : c.skip (word ++ ':' :: rest).length = (c.skip (word ++ [':']).length).skip rest.length := by
    rw [Cursor.skip_skip, ← List.length_append, List.append_assoc, List.singleton_append]
  have hlt := (Spelled.ofText hrest₂).lt_of_ne_nil hne
  rw [hend]
  refine (Spelled.ofText hrest₁).append (.node hoffset.symm rfl ?_ (.nil _))
  rwa [hoffset] at hlt

theorem NamedAttribute.placed (hin : p.cursor.In source) (h : NamedAttribute i p n p') :
    Placed source p.cursor n p'.cursor := by
  obtain ⟨hname, hne, hvalue, hstill, hform⟩ := h
  replace hname := hname.spelled
  rw [hstill.still]
  cases hform with
  | plain hn =>
    subst hn
    cases hvalue with
    | absent =>
      exact .of_spelled hin hname .bareAttribute rfl rfl (hname.lt_of_ne_nil hne)
        (.cons (.bare (by simp)) (.one (.bare (by simp))))
    | present hequal hvalue =>
      have hopen := hname.append hequal.spelled
      obtain ⟨⟨quote, hquote, hspelled⟩, hsound⟩ := hvalue.spelled (hopen.cursor_in hin)
      have hspelled := hopen.append hspelled
      rw [← List.append_assoc, ← List.append_assoc] at hspelled
      refine .of_spelled hin hspelled (.valueAttribute hquote) rfl rfl (hspelled.lt_of_ne_nil hne)
        (.cons (.bare (by simp)) (.one (.nodes ?_ hsound)))
      exact (List.sublist_append_right ..).trans (List.sublist_append_left ..)
  | directive kind word rest e hcolon hkind he hn =>
    obtain ⟨rfl, -⟩ := splitColon?_eq_some hcolon
    subst hn
    cases he with
    | value hsole =>
      cases hvalue with
      | present hequal hvalue =>
        obtain ⟨⟨quote, hquote, hspelled⟩, hfor⟩ := spelled_soleExpression hvalue hsole
        have hspelled := (hname.append hequal.spelled).append hspelled
        simp only [← List.append_assoc] at hspelled
        exact placed_directive hin hspelled (hspelled.lt_of_ne_nil hne) (.valueDirective hquote)
          (.script hfor (by simp [loose, Piece.nodes]))
    | @own parsed hkind hown hparsed =>
      cases hvalue with
      | absent =>
        have hrest : rest ≠ [] := by
          rintro rfl
          exact hown rfl
        have hspelled := spelled_ownName hname hrest parsed.expression.kind
        have hle := hspelled.mem (List.mem_singleton_self _)
        exact placed_directive hin hspelled (hspelled.lt_of_ne_nil (by simp)) .ownDirective
          (.node (.inl (List.mem_singleton_self _)) (sound_pending hle.2.1))
    | absent _ =>
      cases hvalue with
      | absent =>
        exact placed_directive hin hname (hname.lt_of_ne_nil hne) .bareDirective (.bare (by simp))

theorem AttributeForm.placed (hin : p.cursor.In source) (h : AttributeForm i p n p') :
    Placed source p.cursor n p'.cursor := by
  cases h with
  | braces h => exact h.placed hin
  | named h => exact h.placed hin

theorem spelled_attributes (hin : p.cursor.In source) (h : Rounds (AttributeRound i) p ns p') :
    Spelled p.cursor (ns.flatMap (fun a => [.blank, .node a])) p'.cursor ∧
      ∀ n ∈ ns, Sound source n := by
  induction h with
  | nil => exact ⟨.nil _, by simp⟩
  | cons h _ ih =>
    obtain ⟨hblank, h⟩ := h
    have hplaced := h.placed (hblank.spelled.cursor_in hin)
    have hfirst := hblank.spelled.append hplaced.spelled
    obtain ⟨hspelled, hsound⟩ := ih (hfirst.cursor_in hin)
    exact ⟨hfirst.append hspelled, by simpa using ⟨hplaced.sound, hsound⟩⟩

end SvelteSyntax.Markup
