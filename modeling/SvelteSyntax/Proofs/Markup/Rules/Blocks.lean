import SvelteSyntax.Proofs.Markup.Rules.Tags

namespace SvelteSyntax.Markup

open Text Script

variable {i : Input} {p p' q : Progress} {n : Node} {content : Content} {keyword : String}
  {ending : Ending} {start fuel : Nat} {sections sections' : Sections} {u : Unit} {current : Section}

theorem startsWith_of_word {cs} (h : word cs = keyword) :
    startsWith keyword.toList cs := by
  rw [← h, word, String.toList_ofList]
  exact startsWith_iff.mpr ⟨_, (List.takeWhile_append_dropWhile ..).symm⟩

theorem gives_blockClose (h : Gives (blockClose keyword) i p u p') : Spells p (closer keyword) p' := by
  simp only [blockClose, gives_bind] at h
  obtain ⟨_, q₁, hopen, _, q₂, hblanks, _, q₃, hslash, _, q₄, hword, _, q₅, hblanks', hend⟩ := h
  have hopener := ((spells_expect hopen).append (spells_skipBlanks hblanks)).append
    ((spells_expect hslash).word_word (spells_expect hword))
  exact hopener.append ((spells_skipBlanks hblanks').append (spells_expect hend))

theorem gives_branchOpen (h : Gives (branchOpen keyword) i p u p') :
    Spells p (opener ':' keyword) p' := by
  simp only [branchOpen, gives_bind] at h
  obtain ⟨_, q₁, hopen, _, q₂, hblanks, _, q₃, hcolon, hword⟩ := h
  exact ((spells_expect hopen).append (spells_skipBlanks hblanks)).append
    ((spells_expect hcolon).word_word (spells_expect hword))

inductive ElseForm (i : Input) (content : Content) (branch : Nat) (p : Progress) (n : Node)
    (ending : Ending) (p' : Progress) : Prop
  | intro {children q} (hopen : Spells p (opener ':' "else" ++ [.blank, .word ['}']]) q)
      (hcontent : Gives (content "ElseBlock") i q (children, ending) p')
      (hn : n = elseNode branch p'.cursor.offset children)

theorem gives_else {branch} (hopen : Spells p (opener ':' "else" ++ [.blank]) q)
    (h : Gives (elseBranch content branch) i q (n, ending) p') :
    ElseForm i content branch p n ending p' := by
  simp only [elseBranch, gives_bind, gives_here, gives_pure] at h
  obtain ⟨_, _, hbrace, ⟨children, ending'⟩, q, hchildren, _, _, ⟨rfl, rfl⟩, heq, rfl⟩ := h
  cases heq
  exact ⟨hopen.append (spells_expect hbrace), hchildren, rfl⟩

@[simp] theorem gives_refuseEnding {α : Type} {block} {a : α} :
    Gives (refuseEnding ending block start) i p a p' ↔ False := by
  cases ending <;> exact gives_refuse

def ifNode (start stop : Nat) (condition : Node) (nested : Bool) (children : List Node)
    (other : Option Node) : Node :=
  { kind := "IfBlock", start, stop,
    fields := [("expression", .node condition), ("children", .nodes children)] ++
      (if nested then [("elseif", .bool true)] else []) ++
      other.toList.map fun e => ("else", .node e) }

inductive IfChain (i : Input) (content : Content) :
    (start : Nat) → (condition : Node) → (nested : Bool) → Progress → Node → Progress → Prop
  | last {start close condition nested p p' children}
      (h : Gives (content "IfBlock") i p (children, .blockClose "if" close) p') :
      IfChain i content start condition nested p
        (ifNode start close condition nested children none) p'
  | other {start close branch condition nested p q p' children other}
      (h : Gives (content "IfBlock") i p (children, .branch "else" branch) q)
      (hother : ElseForm i content branch q other (.blockClose "if" close) p') :
      IfChain i content start condition nested p
        (ifNode start close condition nested children (some other)) p'
  | link {start branch condition inner nested p q r s p' children link}
      (h : Gives (content "IfBlock") i p (children, .branch "else" branch) q)
      (hopen : Spells q (opener ':' "else" ++ [.blank]) r)
      (hinner : Spells r ([.word "if".toList] ++ loose inner ++ [.word ['}']]) s)
      (he : StandsFor i false inner)
      (hlink : IfChain i content r.cursor.offset inner true s link p') :
      IfChain i content start condition nested p
        (ifNode start p'.cursor.offset condition nested children
          (some (elseNode branch p'.cursor.offset [link]))) p'

theorem gives_ifLink {link condition nested}
    (hlink : ∀ start condition nested q n q', Gives (link start condition nested) i q n q' →
      IfChain i content start condition nested q n q')
    (h : Gives (ifLink content link start condition nested) i p n p') :
    IfChain i content start condition nested p n p' := by
  simp only [ifLink, gives_bind] at h
  obtain ⟨⟨children, ending⟩, q, hchildren, h⟩ := h
  simp only at h
  split at h
  · rename_i branch
    simp only [wordIn_eq, gives_bind, gives_cursor, gives_ite, gives_here, gives_skip, gives_pure] at h
    obtain ⟨_, r, hbranch, _, s, hblanks, _, _, ⟨rfl, rfl⟩, _, _, ⟨rfl, rfl⟩, h⟩ := h
    have hopen := (gives_branchOpen hbranch).append (spells_skipBlanks hblanks)
    obtain ⟨hword, _, _, ⟨rfl, rfl⟩, _, _, rfl, inner, s, hinner, node, _, hnode, _, _, ⟨rfl, rfl⟩, _, _,
      ⟨rfl, rfl⟩, h⟩ | ⟨hword, ⟨other, ending⟩, s, hother, _, _, ⟨rfl, rfl⟩, h⟩ := h
    · obtain ⟨hinner, he⟩ := gives_expressionToBrace hinner
      have hinner := (Spells.goTo (.word (startsWith_of_word hword) (.nil _))).append hinner
      obtain ⟨rfl, rfl⟩ := gives_pure.mp h
      have hnode := hlink _ _ _ _ _ _ hnode
      cases nested <;> exact IfChain.link hchildren hopen hinner he hnode
    · have hother := gives_else hopen hother
      simp only at h
      split at h
      · obtain ⟨rfl, rfl⟩ := gives_pure.mp h
        cases nested <;> exact IfChain.other hchildren hother
      · simp at h
  · simp only [gives_bind, gives_pure] at h
    obtain ⟨_, _, ⟨rfl, rfl⟩, h⟩ := h
    simp only at h
    split at h
    · obtain ⟨rfl, rfl⟩ := gives_pure.mp h
      cases nested <;> exact IfChain.last hchildren
    · simp at h

theorem gives_ifChain {condition nested}
    (h : Gives (ifChain content fuel start condition nested) i p n p') :
    IfChain i content start condition nested p n p' := by
  induction fuel generalizing start condition nested p n p' with
  | zero => exact gives_ifLink (fun _ _ _ _ _ _ h => absurd h not_gives_exhausted) h
  | succ fuel ih => exact gives_ifLink (fun _ _ _ _ _ _ h => ih h) h

theorem gives_eachIndex {fields} (h : Gives eachIndex i p fields p') :
    Spells p (indexPieces fields) p' ∧ (fields = [] ∨ ∃ name, fields = [("index", .string name)]) := by
  simp only [eachIndex, gives_bind, gives_ite, gives_here, gives_refuse, gives_pure] at h
  obtain ⟨_, q, heat, h⟩ := h
  obtain ⟨rfl, hcomma⟩ | ⟨rfl, rfl⟩ := spells_eat heat
  · obtain ⟨-, _, q₁, hblanks, _, _, ⟨rfl, rfl⟩, name, q₂, hname, h⟩ | ⟨hnot, -⟩ := h
    · obtain ⟨-, _, _, ⟨⟩, -⟩ | ⟨-, _, q₃, hdeclare, _, q₄, hblanks', rfl, rfl⟩ := h
      have hspells := ((hcomma.append (spells_skipBlanks hblanks)).append
        (spells_readWhile hname)).append ((still_modify hdeclare).append (spells_skipBlanks hblanks'))
      refine ⟨?_, .inr ⟨_, rfl⟩⟩
      rwa [indexPieces, String.toList_ofList]
    · exact absurd rfl hnot
  · obtain ⟨⟨⟩, -⟩ | ⟨-, rfl, rfl⟩ := h
    exact ⟨.refl _, .inl rfl⟩

/-- The key of an each block: an expression or a name. -/
inductive KeyForm (i : Input) : List (String × Value) → Prop
  | absent : KeyForm i []
  | grouped {e} (he : StandsFor i false e) : KeyForm i [("key", .node e)]
  | named (name : String) : KeyForm i [("key", .string name)]

theorem gives_eachKey {fields} (h : Gives eachKey i p fields p') :
    Spells p (keyPieces fields) p' ∧ KeyForm i fields := by
  simp only [eachKey, gives_bind, gives_ite, gives_cursor, gives_scriptUpTo, gives_pass, gives_refuse,
    gives_pure] at h
  obtain ⟨_, q, heat, ⟨rfl, h⟩ | ⟨hnot, h⟩⟩ := h
  · obtain ⟨-, hopen⟩ | ⟨⟨⟩, -⟩ := spells_eat heat
    obtain ⟨_, q, ⟨rfl, rfl⟩, text, _, ⟨htext, rfl⟩, h⟩ := h
    obtain ⟨-, _, _, ⟨⟩, -⟩ | ⟨hlength, key, q₁, hkey, _, _, rfl, _, q₃, hblanks, rfl, rfl⟩ := h
    obtain ⟨tail, hrest⟩ := split_of_mark htext hlength
    have hscript := gives_expression hkey
    exact ⟨(hopen.append (hscript.spells_mark hrest)).append (spells_skipBlanks hblanks),
      .grouped hscript.standsFor⟩
  · obtain ⟨rfl, -⟩ | ⟨-, rfl⟩ := spells_eat heat
    · exact absurd rfl hnot
    obtain ⟨_, q, heat', ⟨rfl, name, q₁, hname, _, q₂, hblanks, rfl, rfl⟩ | ⟨hnot', rfl, rfl⟩⟩ := h
    · obtain ⟨-, hat⟩ | ⟨⟨⟩, -⟩ := spells_eat heat'
      have hspells := (hat.append (spells_readWhile hname)).append (spells_skipBlanks hblanks)
      refine ⟨?_, .named _⟩
      rwa [keyPieces, String.toList_ofList]
    · obtain ⟨rfl, -⟩ | ⟨-, rfl⟩ := spells_eat heat'
      · exact absurd rfl hnot'
      · exact ⟨.refl _, .absent⟩

theorem split_of_takeUntil_keyword {word text} {c : Cursor}
    (htext : text = Balanced.takeUntil (Balanced.atBraceOr word) c.prev c.rest)
    (hmark : (c.skip text.length).rest.head?.any (· != '}')) :
    ∃ tail, c.rest = text ++ (word ++ tail) := by
  obtain ⟨rest, hrest, hstop⟩ := Balanced.takeUntil_append (Balanced.atBraceOr word) c.prev c.rest
  rw [← htext] at hrest
  rw [Cursor.rest_skip_length hrest] at hmark
  have hne : rest ≠ [] := by
    rintro rfl
    cases hmark
  obtain ⟨prev, hstop⟩ := hstop hne
  have hstarts : startsWith word rest := by
    obtain ⟨d, cs, rfl⟩ := List.exists_cons_of_ne_nil hne
    have hd : d ≠ '}' := by simpa using hmark
    rw [Balanced.atBraceOr, Bool.or_eq_true] at hstop
    rcases hstop with hbrace | hkeyword
    · exact absurd (by simpa [Balanced.atAny] using hbrace) hd
    · simp only [Balanced.atKeyword, Bool.and_eq_true] at hkeyword
      exact hkeyword.1.1
  obtain ⟨tail, rfl⟩ := startsWith_iff.mp hstarts
  exact ⟨tail, hrest⟩

inductive EachOther (i : Input) (content : Content) (p : Progress) :
    Ending → List (String × Value) → Progress → Prop
  | absent (close : Nat) : EachOther i content p (.blockClose "each" close) [] p
  | present {p' branch close other} (hother : ElseForm i content branch p other (.blockClose "each" close) p') :
      EachOther i content p (.branch "else" branch) [("else", .node other)] p'

def eachNode (start stop : Nat) (list context : Node) (index key : List (String × Value))
    (children : List Node) (other : List (String × Value)) : Node :=
  { kind := "EachBlock", start, stop,
    fields := [("expression", .node list), ("context", .node context)] ++ index ++ key ++
      [("children", .nodes children)] ++ other }

/-- An each block after its keyword. -/
inductive EachForm (i : Input) (content : Content) (start : Nat) (p : Progress) (n : Node)
    (p' : Progress) : Prop
  | intro {list context index key other children ending q r s}
      (hhead : Spells p (loose list ++ [.word "as".toList] ++ loose context ++ indexPieces index ++
        keyPieces key ++ [.word ['}']]) q)
      (hlist : StandsFor i false list) (hcontext : StandsFor i true context)
      (hindex : index = [] ∨ ∃ name, index = [("index", .string name)]) (hkey : KeyForm i key)
      (hcontent : Gives (content "EachBlock") i q (children, ending) r)
      (hother : EachOther i content r ending other s) (hend : Spells s (closer "each") p')
      (hn : n = eachNode start p'.cursor.offset list context index key children other)

theorem gives_eachBlock (h : Gives (eachBlock content start) i p n p') :
    EachForm i content start p n p' := by
  simp only [eachBlock, gives_bind, gives_cursor, gives_scriptUpTo, gives_ite, gives_refuse,
    gives_pass, Nat.add_zero] at h
  obtain ⟨_, _, ⟨rfl, rfl⟩, text, p, ⟨htext, rfl⟩, h⟩ := h
  obtain ⟨-, _, _, ⟨⟩, -⟩ | ⟨hmark, list, q₁, hlist, _, _, rfl, _, _, ⟨rfl, rfl⟩, text', _, ⟨htext', rfl⟩,
    context, q₂, hcontext, _, _, rfl, _, q₃, hblanks, index, r, hindex, key, s, hkey, _, s', hbrace,
    ⟨children, ending⟩, t, hchildren, h⟩ := h
  have hmark' : (p.cursor.skip text.length).rest.head?.any (· != '}') := by
    rw [Cursor.peek?] at hmark
    cases hhead : (p.cursor.skip text.length).rest.head? <;> simp_all
  obtain ⟨tail, hrest⟩ := split_of_takeUntil_keyword htext hmark'
  have hlist := gives_expression hlist
  have hcontext := gives_pattern hcontext
  obtain ⟨tail', hrest'⟩ := rest_of_takeUntil htext'
  obtain ⟨hindex, hindex'⟩ := gives_eachIndex hindex
  obtain ⟨hkey, hkey'⟩ := gives_eachKey hkey
  have hnames := ((hlist.spells_mark hrest).append (hcontext.spells hrest')).loosen
    (loose list ++ [.word "as".toList, .blank, .node context]) (spells_skipBlanks hblanks)
  have hhead := ((hnames.append hindex).append hkey).append (spells_expect hbrace)
  simp only at h
  split at h
  · rename_i branch
    simp only [gives_bind, gives_pure] at h
    obtain ⟨_, u, hbranch, _, u', hblanks', ⟨other, ending⟩, v, hother, _, _, ⟨rfl, rfl⟩, h⟩ := h
    have hother := gives_else ((gives_branchOpen hbranch).append (spells_skipBlanks hblanks')) hother
    simp only at h
    split at h
    · simp only [gives_bind, gives_finish] at h
      obtain ⟨_, w, hend, rfl, rfl⟩ := h
      exact ⟨hhead, hlist.standsFor, hcontext.standsFor, hindex', hkey', hchildren, .present hother,
        gives_blockClose hend, rfl⟩
    · simp at h
  · simp only [gives_bind, gives_pure] at h
    obtain ⟨_, _, ⟨rfl, rfl⟩, h⟩ := h
    simp only at h
    split at h
    · simp only [gives_bind, gives_finish] at h
      obtain ⟨_, w, hend, rfl, rfl⟩ := h
      exact ⟨hhead, hlist.standsFor, hcontext.standsFor, hindex', hkey', hchildren, .absent _,
        gives_blockClose hend, rfl⟩
    · simp at h

/-- What a branch binds. -/
inductive BoundValue (i : Input) : Value → Prop
  | none : BoundValue i .null
  | name (s : String) : BoundValue i (.string s)
  | pattern {e} (he : StandsFor i true e) : BoundValue i (.node e)

theorem gives_blockValue {text tail value} (hrest : p.cursor.rest = text ++ tail)
    (h : Gives (blockValue p.cursor.offset text) i p value q) :
    Spells p (boundPieces value) (q.goTo (q.cursor.skip text.length)) ∧ BoundValue i value := by
  simp only [blockValue, trimIn_eq, pure_bind, gives_ite, gives_bind, gives_pure] at h
  obtain ⟨c, after, hbefore, -, hrest', hafter⟩ := Spelled.exists_trimmed hrest
  obtain ⟨hnil, rfl, rfl⟩ | ⟨-, ⟨-, _, q, hdeclare, rfl, rfl⟩ | ⟨-, e, q, he, rfl, rfl⟩⟩ := h
  · rw [List.isEmpty_iff.mp hnil, List.length_nil, Cursor.skip_zero] at hafter
    exact ⟨.goTo (hbefore.append hafter).blank_blank, .none⟩
  · have hstill := still_modify hdeclare
    refine ⟨⟨?_, hstill.aside⟩, .name _⟩
    rw [boundPieces, String.toList_ofList, Progress.cursor_goTo, hstill.still]
    exact (hbefore.append (.ofText hrest')).append hafter
  · obtain ⟨n, q, hparse, hstill, rfl⟩ := gives_patternAt he
    have hscript := script_of_parseSpan hparse hstill
    exact ⟨hscript.spells hrest, .pattern hscript.standsFor⟩

theorem still_blockValue {text value} (h : Gives (blockValue start text) i p value q) : Still p q := by
  simp only [blockValue, trimIn_eq, pure_bind, gives_ite, gives_bind, gives_pure] at h
  obtain ⟨-, -, rfl⟩ | ⟨-, ⟨-, _, q, hdeclare, -, rfl⟩ | ⟨-, e, q, he, -, rfl⟩⟩ := h
  · exact .refl _
  · exact still_modify hdeclare
  · obtain ⟨n, q, hparse, hstill, -⟩ := gives_patternAt he
    obtain ⟨rfl, -⟩ := gives_parseSpan hparse
    exact hstill

theorem gives_branchValue {value} (h : Gives branchValue i p value p') :
    Spells p (boundPieces value ++ [.word ['}']]) p' ∧ BoundValue i value := by
  simp only [branchValue, gives_bind, gives_cursor, gives_scriptUpTo, gives_pass, Nat.add_zero, gives_pure] at h
  obtain ⟨_, _, ⟨rfl, rfl⟩, text, p, ⟨htext, rfl⟩, _, q, hvalue, _, _, rfl, _, _, hbrace, rfl, rfl⟩ := h
  obtain ⟨tail, hrest⟩ := rest_of_takeUntil htext
  obtain ⟨hspells, hvalue⟩ := gives_blockValue hrest hvalue
  exact ⟨hspells.append (spells_expect hbrace), hvalue⟩

def sectionNode (s : Section) (start stop : Nat) (children : List Node) : Node :=
  { kind := s.kind, start, stop, fields := [("children", .nodes children), ("skip", .bool false)] }

theorem gives_awaitSection {s}
    (h : Gives (awaitSection content s start sections) i p (sections', ending) p') :
    ∃ children, Gives (content s.kind) i p (children, ending) p' ∧
      sections' = sections.set s (sectionNode s start p'.cursor.offset children) := by
  simp only [awaitSection, gives_bind, gives_here, gives_pure] at h
  obtain ⟨⟨children, ending'⟩, q, hchildren, _, _, ⟨rfl, rfl⟩, heq, rfl⟩ := h
  cases heq
  exact ⟨children, hchildren, rfl⟩

inductive AwaitRest (i : Input) (content : Content) :
    (current : Section) → Sections → Progress → Ending → Sections → Progress → Prop
  | close {current sections p p' close} (h : Spells p (closer "await") p') :
      AwaitRest i content current sections p (.blockClose "await" close) sections p'
  | fulfilled {sections sections' p q r p' branch ending value children}
      (hopen : Spells p (opener ':' "then" ++ (boundPieces value ++ [.word ['}']])) q)
      (hvalue : BoundValue i value) (hcontent : Gives (content "ThenBlock") i q (children, ending) r)
      (hrest : AwaitRest i content .fulfilled
        { sections with value, fulfilled := sectionNode .fulfilled branch r.cursor.offset children }
        r ending sections' p') :
      AwaitRest i content .pending sections p (.branch "then" branch) sections' p'
  | rejected {current sections sections' p q r p' branch ending error children}
      (hcurrent : current ≠ .rejected)
      (hopen : Spells p (opener ':' "catch" ++ (boundPieces error ++ [.word ['}']])) q)
      (herror : BoundValue i error) (hcontent : Gives (content "CatchBlock") i q (children, ending) r)
      (hrest : AwaitRest i content .rejected
        { sections with error, rejected := sectionNode .rejected branch r.cursor.offset children }
        r ending sections' p') :
      AwaitRest i content current sections p (.branch "catch" branch) sections' p'

theorem gives_awaitEnd (h : Gives (awaitEnd start sections ending) i p sections' p') :
    AwaitRest i content current sections p ending sections' p' := by
  unfold awaitEnd at h
  split at h
  · simp only [gives_bind, gives_pure] at h
    obtain ⟨_, q, hend, rfl, rfl⟩ := h
    exact .close (gives_blockClose hend)
  · simp at h

theorem gives_awaitRejected (hcurrent : current ≠ .rejected)
    (h : Gives (awaitRejected content start sections ending) i p sections' p') :
    AwaitRest i content current sections p ending sections' p' := by
  unfold awaitRejected at h
  split at h
  · simp only [gives_bind] at h
    obtain ⟨_, q, hbranch, error, r, herror, ⟨sections₁, ending₁⟩, s, hsection, h⟩ := h
    obtain ⟨children, hcontent, rfl⟩ := gives_awaitSection hsection
    obtain ⟨hbound, herror⟩ := gives_branchValue herror
    exact .rejected hcurrent ((gives_branchOpen hbranch).append hbound) herror hcontent
      (gives_awaitEnd h)
  · exact gives_awaitEnd h

theorem gives_awaitFulfilled (h : Gives (awaitFulfilled content start sections ending) i p sections' p') :
    AwaitRest i content .pending sections p ending sections' p' := by
  unfold awaitFulfilled at h
  split at h
  · simp only [gives_bind] at h
    obtain ⟨_, q, hbranch, value, r, hvalue, ⟨sections₁, ending₁⟩, s, hsection, h⟩ := h
    obtain ⟨children, hcontent, rfl⟩ := gives_awaitSection hsection
    obtain ⟨hbound, hvalue⟩ := gives_branchValue hvalue
    exact .fulfilled ((gives_branchOpen hbranch).append hbound) hvalue hcontent
      (gives_awaitRejected (by decide) h)
  · exact gives_awaitRejected (by decide) h

/-- The promise of an await block and what stands in the same tag after it. -/
inductive AwaitHead (i : Input) (p : Progress) (e : Node) (value : Value) :
    (first : Section) → (p' : Progress) → Prop
  | plain {p' : Progress} (h : Spells p (loose e ++ [.word ['}']]) p') (hvalue : value = .null) :
      AwaitHead i p e value .pending p'
  | compact {p' : Progress} (h : Spells p (loose e ++ [.word "then".toList] ++ (boundPieces value ++ [.word ['}']])) p')
      (hvalue : BoundValue i value) : AwaitHead i p e value .fulfilled p'

def awaitNode (start stop : Nat) (e : Node) (sections : Sections) : Node :=
  { kind := "AwaitBlock", start, stop,
    fields := [("expression", .node e), ("value", sections.value), ("error", sections.error),
      ("pending", .node sections.pending), ("then", .node sections.fulfilled),
      ("catch", .node sections.rejected)] }

/-- An await block after its keyword. -/
inductive AwaitForm (i : Input) (content : Content) (start : Nat) (p : Progress) (n : Node)
    (p' : Progress) : Prop
  | intro {e value first q r children ending sections} (hhead : AwaitHead i p e value first q)
      (he : StandsFor i false e)
      (hcontent : Gives (content first.kind) i q (children, ending) r)
      (hrest : AwaitRest i content first
        ({ Sections.none start with value }.set first
          (sectionNode first q.cursor.offset r.cursor.offset children)) r ending sections p')
      (hn : n = awaitNode start p'.cursor.offset e sections)

theorem gives_awaitBlock (h : Gives (awaitBlock content start) i p n p') :
    AwaitForm i content start p n p' := by
  simp only [awaitBlock, gives_bind, gives_cursor, gives_scriptUpTo] at h
  obtain ⟨_, _, ⟨rfl, rfl⟩, text, p, ⟨htext, rfl⟩, h⟩ := h
  cases hmark : (p.cursor.skip text.length).peek? with
  | none => simp [hmark] at h
  | some mark =>
    simp only [hmark, gives_bind, gives_pass, Nat.add_zero] at h
    obtain ⟨e, q, he, _, _, rfl, h⟩ := h
    have hscript := gives_expression he
    by_cases hcompact : mark = '}'
    · subst hcompact
      simp only [bne_self_eq_false, Bool.false_eq_true, ↓reduceIte, gives_bind, gives_pure, gives_here,
        gives_finish] at h
      obtain ⟨_, r, hbrace, _, _, ⟨rfl, rfl⟩, _, _, ⟨rfl, rfl⟩, ⟨sections, ending⟩, s, hsection,
        sections', t, hrest, rfl, rfl⟩ := h
      obtain ⟨children, hcontent, rfl⟩ := gives_awaitSection hsection
      obtain ⟨tail, hsplit⟩ := rest_of_takeUntil htext
      exact ⟨.plain ((hscript.spells hsplit).append (spells_expect hbrace)) rfl, hscript.standsFor,
        hcontent, gives_awaitFulfilled hrest, rfl⟩
    · have hcompact' : (mark != '}') = true := by simpa using hcompact
      simp only [hcompact', ↓reduceIte, gives_bind, gives_skip, gives_here, gives_finish] at h
      obtain ⟨_, _, rfl, value, r, hvalue, _, _, ⟨rfl, rfl⟩, ⟨sections, ending⟩, s, hsection, sections',
        t, hrest, rfl, rfl⟩ := h
      obtain ⟨children, hcontent, rfl⟩ := gives_awaitSection hsection
      obtain ⟨tail, hsplit⟩ := split_of_takeUntil_keyword htext (by
        rw [Cursor.peek?] at hmark
        simpa [hmark] using hcompact)
      obtain ⟨hbound, hvalue⟩ := gives_branchValue hvalue
      have hthen := hscript.spells_mark hsplit
      rw [← Cursor.skip_skip] at hthen
      exact ⟨.compact (hthen.append hbound) hvalue, hscript.standsFor, hcontent,
        gives_awaitRejected (by decide) hrest, rfl⟩

theorem gives_debugIdentifiers {parts es} (h : Gives (debugIdentifiers start parts) i p es p') :
    Still p p' ∧ (∀ e ∈ es, StandsFor i false e) ∧ (parts ≠ [] → es ≠ []) ∧
      ∀ c tail, c.offset = start → c.rest = [','].intercalate parts ++ tail →
        Spelled c (listed es) (c.skip ([','].intercalate parts).length) := by
  induction parts generalizing start es p with
  | nil =>
    obtain ⟨rfl, rfl⟩ := gives_pure.mp h
    exact ⟨.refl _, by simp, by simp, fun c _ _ _ => by simpa [listed] using Spelled.nil c⟩
  | cons part parts ih =>
    simp only [debugIdentifiers, gives_bind, gives_ite, gives_refuse, gives_pure] at h
    obtain ⟨e, q, he, ⟨-, es, r, hmore, rfl, rfl⟩ | ⟨-, _, _, ⟨⟩, -⟩⟩ := h
    obtain ⟨hstill, hfor, hspan⟩ := gives_expression he
    obtain ⟨hstill', hes, hne, hspelled⟩ := ih hmore
    refine ⟨hstill.append hstill', List.forall_mem_cons.mpr ⟨hfor, hes⟩, by simp, ?_⟩
    rintro c tail rfl hrest
    cases parts with
    | nil =>
      obtain ⟨rfl, -⟩ := gives_pure.mp hmore
      rw [List.intercalate_singleton] at hrest ⊢
      exact spelled_script hrest hspan hfor.lt
    | cons part' parts =>
      rw [List.intercalate_cons_cons, List.append_assoc, List.append_assoc] at hrest
      have hrest' := Cursor.rest_skip_length hrest
      have hoffset : ((c.skip part.length).skip [','].length).offset = c.offset + byteLength part + 1 := by
        rw [Cursor.offset_skip_length hrest', Cursor.offset_skip_length hrest]
        rfl
      have hfirst := (spelled_script hrest hspan hfor.lt).append (.ofText hrest')
      have hall := hfirst.append (hspelled _ tail hoffset (Cursor.rest_skip_length hrest'))
      simp only [Cursor.skip_skip, ← List.length_append] at hall
      obtain ⟨e', es, rfl⟩ := List.exists_cons_of_ne_nil (hne (by simp))
      simpa [List.intercalate_cons_cons, listed] using hall

def debugNode (start stop : Nat) (es : List Node) : Node :=
  { kind := "DebugTag", start, stop, fields := [("identifiers", .nodes es)] }

inductive DebugForm (i : Input) (start : Nat) (p : Progress) (n : Node) (p' : Progress) : Prop
  | all {body} (hbody : body.all isBlank) (h : Spells p [.word body, .word ['}']] p')
      (hn : n = debugNode start p'.cursor.offset [])
  | names {es} (hne : es ≠ []) (hes : ∀ e ∈ es, StandsFor i false e)
      (h : Spells p (listed es ++ [.word ['}']]) p') (hn : n = debugNode start p'.cursor.offset es)

theorem gives_debugTag (h : Gives (debugTag start) i p n p') :
    DebugForm i start p n p' := by
  simp only [debugTag, gives_bind, gives_cursor] at h
  obtain ⟨_, p, ⟨rfl, rfl⟩, h⟩ := h
  cases hsplit : splitAt? ['}'] p.cursor.rest with
  | none => simp [hsplit] at h
  | some parts =>
    obtain ⟨body, rest⟩ := parts
    obtain ⟨hrest, hhead, -⟩ := splitAt?_singleton.mp hsplit
    obtain ⟨tail, rfl⟩ := List.head?_eq_some_iff.mp hhead
    have hbrace := Spelled.char (by rw [Cursor.rest_skip_length hrest]; exact hhead)
    rw [Cursor.skip_skip] at hbrace
    simp only [hsplit, gives_ite, gives_bind, gives_pure, gives_pass, gives_finish] at h
    obtain ⟨hblank, _, _, ⟨rfl, rfl⟩, _, _, rfl, rfl, rfl⟩ | ⟨-, es, q, hes, _, _, rfl, rfl, rfl⟩ := h
    · exact .all hblank (.goTo ((Spelled.ofText hrest).append hbrace)) rfl
    · obtain ⟨hstill, hes, hne, hspelled⟩ := gives_debugIdentifiers hes
      obtain ⟨hbody, hparts⟩ := intercalate_splitOn ',' body
      rw [hbody] at hspelled
      refine .names (hne hparts) hes ⟨?_, hstill.aside⟩ rfl
      rw [Progress.cursor_goTo, hstill.still]
      exact (hspelled _ _ rfl hrest).append hbrace

inductive MustacheForm (i : Input) (content : Content) (p : Progress) (n : Node) (p' : Progress) : Prop
  | ifBlock {condition node q r} (hopen : Spells p (opener '#' "if" ++ (loose condition ++ [.word ['}']])) q)
      (he : StandsFor i false condition)
      (hchain : IfChain i content p.cursor.offset condition false q node r)
      (hend : Spells r (closer "if") p') (hn : n = { node with stop := p'.cursor.offset })
  | each {q : Progress} (hopen : Spells p (opener '#' "each") q) (h : EachForm i content p.cursor.offset q n p')
  | await {q : Progress} (hopen : Spells p (opener '#' "await") q) (h : AwaitForm i content p.cursor.offset q n p')
  | raw {e} (h : Spells p (opener '@' "html" ++ (loose e ++ [.word ['}']])) p') (he : StandsFor i false e)
      (hn : n = expressionNode "RawMustacheTag" p.cursor.offset p'.cursor.offset e)
  | debug {q : Progress} (hopen : Spells p (opener '@' "debug") q) (h : DebugForm i p.cursor.offset q n p')
  | plain (h : ChunkForm i p n p')

theorem gives_mustache (hhead : p.cursor.rest.head? = some '{')
    (h : Gives (mustache content fuel) i p n p') : MustacheForm i content p n p' := by
  simp only [mustache, gives_bind, gives_here, gives_skip] at h
  obtain ⟨_, p, ⟨rfl, rfl⟩, _, _, rfl, _, q, hblanks, _, r, heat, h⟩ := h
  have hbrace := (Spells.goTo (.char hhead)).append (spells_skipBlanks hblanks)
  simp only [gives_ite] at h
  obtain ⟨rfl, h⟩ | ⟨hnot, h⟩ := h
  · obtain ⟨-, hmark⟩ | ⟨⟨⟩, -⟩ := spells_eat heat
    simp only [wordIn_eq, pure_bind, gives_bind, gives_cursor, gives_skip] at h
    obtain ⟨_, r, ⟨rfl, rfl⟩, _, _, rfl, h⟩ := h
    have hopen {keyword : String} (hword : word r.cursor.rest = keyword) :
        Spells p (opener '#' keyword) (r.goTo (r.cursor.skip keyword.length)) := by
      rw [← String.length_toList]
      exact hbrace.append (hmark.word_word (.goTo (.word (startsWith_of_word hword) (.nil _))))
    split at h
    · rename_i hword
      rw [hword] at h
      simp only [ifBlock, gives_bind, gives_here, gives_pure] at h
      obtain ⟨condition, q, hcondition, node, r, hchain, _, s, hend, _, _, ⟨rfl, rfl⟩, rfl, rfl⟩ := h
      obtain ⟨hcondition, he⟩ := gives_expressionToBrace hcondition
      exact .ifBlock ((hopen hword).append hcondition) he (gives_ifChain hchain) (gives_blockClose hend) rfl
    · rename_i hword
      rw [hword] at h
      exact .each (hopen hword) (gives_eachBlock h)
    · rename_i hword
      rw [hword] at h
      exact .await (hopen hword) (gives_awaitBlock h)
    · simp at h
  · obtain ⟨rfl, -⟩ | ⟨-, rfl⟩ := spells_eat heat
    · exact absurd rfl hnot
    simp only [gives_bind, gives_ite, gives_finish] at h
    obtain ⟨_, r, heat, ⟨rfl, e, s, he, rfl, rfl⟩ | ⟨hnot, _, s, heat', h⟩⟩ := h
    · obtain ⟨-, hmark⟩ | ⟨⟨⟩, -⟩ := spells_eat heat
      obtain ⟨hspells, he⟩ := gives_expressionToBrace he
      exact .raw ((hbrace.append hmark).append hspells) he rfl
    obtain ⟨rfl, -⟩ | ⟨-, rfl⟩ := spells_eat heat
    · exact absurd rfl hnot
    obtain ⟨rfl, h⟩ | ⟨hnot, e, s, he, rfl, rfl⟩ := h
    · obtain ⟨-, hmark⟩ | ⟨⟨⟩, -⟩ := spells_eat heat'
      exact .debug (hbrace.append hmark) (gives_debugTag h)
    · obtain ⟨rfl, -⟩ | ⟨-, rfl⟩ := spells_eat heat'
      · exact absurd rfl hnot
      obtain ⟨hspells, he⟩ := gives_expressionToBrace he
      exact .plain (.braces (hbrace.loosen [.word ['{']] hspells) he rfl)

end SvelteSyntax.Markup
