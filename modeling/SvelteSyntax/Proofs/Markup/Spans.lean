import SvelteSyntax.Proofs.Markup.Spans.Blocks
import SvelteSyntax.Proofs.Program.Convert

namespace SvelteSyntax.Markup

open Text Script

variable {i : Input} {source : List Char} {p p' q : Progress} {n : Node} {content : Content}
  {topLevel : Bool} {parent : String} {nodes ns : List Node} {ending : Ending} {c : Cursor}

theorem placed_node (hin : p.cursor.In source) (hcontent : PlacesContent source i content) {node}
    (h : NodeForm i content topLevel parent p node p') :
    SiblingPlaced source topLevel p node p' := by
  cases h with
  | comment h =>
    have hplaced := h.placed hin
    obtain ⟨h, -⟩ := h
    exact .node hplaced h.aside
  | tag h => exact h.placed hin hcontent
  | mustache h =>
    obtain ⟨hplaced, haside⟩ := h.placed hin hcontent
    exact .node hplaced haside
  | text h hne => exact .node (placed_text hin h.spelled hne) h.aside

theorem SiblingPlaced.placed {node} (h : SiblingPlaced source topLevel p node p') :
    ∃ n, Placed source p.cursor n p'.cursor := by
  cases h with
  | node h | aside _ h => exact ⟨_, h⟩

theorem placed_siblings {fuel} (hin : p.cursor.In source)
    (h : Gives (siblings fuel topLevel parent) i p (nodes, ending) p') :
    ∃ all, PlacedList source p.cursor all p'.cursor ∧ EndsWith p'.cursor ending ∧
      nodes.Sublist all ∧ (p'.sections ++ nodes).Perm (p.sections ++ all) ∧
      (topLevel = false → all = nodes ∧ p'.aside = p.aside) := by
  induction fuel generalizing topLevel parent p nodes ending p' with
  | zero => exact absurd h not_gives_exhausted
  | succ fuel ih =>
    obtain ⟨hends, rfl, rfl⟩ | ⟨node, rest, q, hnode, hrest, rfl⟩ := gives_siblings h
    · exact ⟨[], .nil _, hends, .slnil, .refl _, fun _ => ⟨rfl, rfl⟩⟩
    have hcontent : PlacesContent source i (siblings fuel false) := by
      intro kind q children ending r hq h
      obtain ⟨all, hplaced, hends, -, -, hall⟩ := ih hq h
      obtain ⟨rfl, haside⟩ := hall rfl
      exact ⟨hplaced, hends, haside⟩
    have hfirst := placed_node hin hcontent hnode
    obtain ⟨n, hn⟩ := hfirst.placed
    obtain ⟨all, hplaced, hends, hsub, hperm, hall⟩ := ih (hn.cursor_in hin) hrest
    cases hfirst with
    | @node n _ hn haside =>
      refine ⟨n :: all, .cons hn hplaced, hends, hsub.cons_cons n, ?_, fun htop => ?_⟩
      · rw [Progress.sections_of_aside haside] at hperm
        exact List.perm_middle.trans ((hperm.cons n).trans List.perm_middle.symm)
      · obtain ⟨rfl, haside'⟩ := hall htop
        exact ⟨rfl, haside'.trans haside⟩
    | @aside n _ htop hn hsections =>
      refine ⟨n :: all, .cons hn hplaced, hends, hsub.cons n, ?_, fun h => ?_⟩
      · simpa using hperm.trans (hsections.append_right all)
      · cases htop.symm.trans h

/-- The nodes at the top level: those of the fragment and the sections. -/
def Template.outermost (t : Template) : List Node :=
  t.html.children "children" ++ t.css.toList ++ t.instanceScript.toList ++ t.moduleScript.toList

/-- The roots of the trees of a template. -/
def Template.roots (t : Template) : List Node :=
  t.html :: (t.css.toList ++ t.instanceScript.toList ++ t.moduleScript.toList)

def fragmentNode (children : List Node) : Node :=
  { kind := "Fragment", start := (children.head?.map (·.start)).getD 0,
    stop := (children.getLast?.map (·.stop)).getD 0, fields := [("children", .nodes children)] }

theorem gives_fragment (h : Gives fragment i p n p') :
    ∃ children, n = fragmentNode children ∧
      Gives (siblings (p.cursor.rest.length + 1) true "Fragment") i p (children, .endOfText) p' := by
  simp only [fragment, gives_bind, gives_cursor] at h
  obtain ⟨_, p, ⟨rfl, rfl⟩, ⟨children, ending⟩, q, hchildren, h⟩ := h
  simp only at h
  split at h
  · obtain ⟨rfl, rfl⟩ := gives_pure.mp h
    exact ⟨children, rfl, hchildren⟩
  · simp at h
  · simp at h
  · simp at h

theorem gives_of_parse {parser parsed} (h : parse parser source = .ok parsed) :
    ∃ p, Gives fragment ⟨source, parser⟩ { cursor := .ofText source } parsed.template.html p ∧
      parsed.template = ⟨parsed.template.html, p.css, p.instanceScript, p.moduleScript⟩ := by
  obtain ⟨⟨html, p⟩, hgives, h⟩ := Run.bind_eq_ok.mp h
  cases h
  exact ⟨p, hgives, rfl⟩

theorem exact_fragmentNode {children lo hi} (h : InOrder lo hi children) :
    (fragmentNode children).Exact := by
  have horder : InOrder (fragmentNode children).start (fragmentNode children).stop children := by
    cases children with
    | nil => exact Nat.le_refl _
    | cons n ns =>
      have hfirst : InOrder n.start hi (n :: ns) := ⟨Nat.le_refl _, h.2.1, h.2.2⟩
      simpa [fragmentNode, List.getLast?_cons] using hfirst.toLast
  refine ⟨horder.le, fun m hm => ?_, fun key ns hns => ?_⟩
  · have hm := horder.mem (n := m) (by simpa [Node.HasChild, fragmentNode] using hm)
    exact ⟨hm.1, Nat.le_of_lt hm.2.1, hm.2.2⟩
  · obtain ⟨-, rfl⟩ : key = "children" ∧ ns = children := by simpa [fragmentNode] using hns
    exact horder

theorem Written.children {pieces} (h : Written n pieces) (hns : ("children", .nodes ns) ∈ n.fields) :
    ∃ opening closing, pieces = opening ++ joined ns ++ closing := by
  cases h with
  | text | comment | mustache | rawMustache | debug | debugAll => simp [textNode] at hns
  | bareDirective | ownDirective | valueDirective => exact absurd hns (fields_directiveNode.2 _ _)
  | spread | shorthandName | shorthand | bareAttribute | valueAttribute =>
    simp [plainAttribute] at hns
  | emptyElement =>
    obtain ⟨hkey, -⟩ | ⟨-, rfl⟩ := listed_elementNode hns
    · exact absurd hkey (by decide)
    exact ⟨_, [], by rw [List.append_nil, joined, List.map_nil, List.append_nil]⟩
  | element =>
    obtain ⟨hkey, -⟩ | ⟨-, rfl⟩ := listed_elementNode hns
    · exact absurd hkey (by decide)
    exact ⟨_, _, rfl⟩
  | emptyStyle | style | emptyScript | script => simp [styleNode, scriptNode] at hns
  | ifBlock =>
    obtain rfl := listed_ifNode hns
    exact ⟨_, _, List.append_assoc ..⟩
  | elseIf =>
    obtain rfl := listed_ifNode hns
    exact ⟨_, _, rfl⟩
  | otherwise =>
    obtain rfl : ns = _ := by simpa [elseNode] using hns
    exact ⟨_, [], (List.append_nil _).symm⟩
  | otherwiseIf =>
    obtain rfl : ns = _ := by simpa [elseNode] using hns
    exact ⟨opener ':' "else" ++ [.blank], [], rfl⟩
  | @each _ _ _ _ index key children other hindex hkey =>
    have hnot : ("children", Value.nodes ns) ∉ index ∧ ("children", Value.nodes ns) ∉ key :=
      ⟨fun h => absurd (hindex _ h) (by simp), fun h => absurd (hkey _ h) (by simp)⟩
    obtain rfl : ns = children := by cases other <;> simpa [eachNode, hnot] using hns
    exact ⟨_, _, List.append_assoc ..⟩
  | await | awaitThen => simp [awaitNode] at hns
  | skippedSection =>
    obtain rfl : ns = [] := by simpa [skippedNode] using hns
    exact ⟨[], [], rfl⟩
  | firstSection =>
    obtain rfl : ns = _ := by simpa [sectionNode] using hns
    exact ⟨[], [], (List.append_nil _).symm⟩
  | thenSection | catchSection =>
    obtain rfl : ns = _ := by simpa [sectionNode] using hns
    exact ⟨_, [], (List.append_nil _).symm⟩

/-- The nodes fill the text between the pieces before them and those after them. -/
def Encloses (source : List Char) (n : Node) (ns : List Node) : Prop :=
  ∃ opening closing c d d' c', Written n (opening ++ joined ns ++ closing) ∧ c.In source ∧
    c.offset = n.start ∧ Spelled c opening d ∧ Tiles d.offset d'.offset ns ∧ Spelled d' closing c' ∧
    c'.offset = n.stop

theorem WrittenIn.encloses (h : WrittenIn source n) (hns : ("children", .nodes ns) ∈ n.fields) :
    Encloses source n ns := by
  obtain ⟨c, c', pieces, hin, hstart, hstop, hwritten, hspelled⟩ := h
  obtain ⟨opening, closing, rfl⟩ := hwritten.children hns
  obtain ⟨d', hspelled, hclosing⟩ := hspelled.split
  obtain ⟨d, hopening, hchildren⟩ := hspelled.split
  exact ⟨opening, closing, c, d, d', c', hwritten, hin, hstart, hopening, hchildren.tiles, hclosing,
    hstop⟩

theorem offset_of_rest_eq_nil (hin : c.In source) (h : c.rest = []) :
    c.offset = byteLength source := by
  obtain ⟨before, hsource, hoffset, -⟩ := hin
  rw [hoffset, hsource, h, List.append_nil]

/-- A template that parses has exact spans. Its outermost nodes fill the source. Inside their trees
all nodes lie in their parents and beside their siblings, and apart from the fragment and the scripts,
which are not parsed yet, they are written as the grammar says, with the children between the pieces
around them. -/
theorem parse_spans_exact {parser : ScriptParser} {parsed : Parsed}
    (h : parse parser source = .ok parsed) :
    (∃ all, all.Perm parsed.template.outermost ∧ Tiles 0 (byteLength source) all) ∧
      ∀ root ∈ parsed.template.roots, ∀ n, root.InTree n → n.Exact ∧
        (n = parsed.template.html ∨ n.placeholder = true ∨
          WrittenIn source n ∧
            ∀ ns, ("children", .nodes ns) ∈ n.fields → Encloses source n ns) := by
  obtain ⟨p, hgives, htemplate⟩ := gives_of_parse h
  obtain ⟨children, hhtml, hsiblings⟩ := gives_fragment hgives
  obtain ⟨all, hplaced, hends, hsub, hperm, -⟩ :=
    placed_siblings (Cursor.in_ofText source) hsiblings
  have hsections : parsed.template.css.toList ++ parsed.template.instanceScript.toList ++
      parsed.template.moduleScript.toList = p.sections := by
    rw [htemplate]
    rfl
  replace hperm : (p.sections ++ children).Perm all := hperm
  have htiles : Tiles 0 (byteLength source) all := by
    have hend := hplaced.spelled.cursor_in (Cursor.in_ofText source)
    cases hends with
    | endOfText hrest => exact offset_of_rest_eq_nil hend hrest ▸ hplaced.spelled.tiles
  refine ⟨⟨all, ?_, htiles⟩, fun root hroot => ?_⟩
  · have hchildren : parsed.template.html.children "children" = children := by
      rw [hhtml]
      rfl
    rw [Template.outermost, hchildren, List.append_assoc, List.append_assoc, ← List.append_assoc _ _
      parsed.template.moduleScript.toList, hsections]
    exact hperm.symm.trans List.perm_append_comm
  · have hsound (m : Node) (hm : m ∈ all) (n : Node) (hn : m.InTree n) : n.Exact ∧
        (n = parsed.template.html ∨ n.placeholder = true ∨
          WrittenIn source n ∧
            ∀ ns, ("children", .nodes ns) ∈ n.fields → Encloses source n ns) := by
      obtain ⟨hexact, hfine⟩ := hplaced.sound m hm n hn
      exact ⟨hexact, .inr (hfine.imp_right fun h => ⟨h, fun _ hns => h.encloses hns⟩)⟩
    rw [Template.roots, hsections, List.mem_cons] at hroot
    rcases hroot with rfl | hroot
    · refine Node.forall_inTree.mpr ⟨⟨?_, .inl rfl⟩, fun m hm => ?_⟩
      · rw [hhtml]
        exact exact_fragmentNode (htiles.inOrder.sublist hsub)
      · refine hsound m (hsub.mem ?_)
        simpa [hhtml, Node.HasChild, fragmentNode] using hm
    · exact hsound root (hperm.mem_iff.mp (List.mem_append_left _ hroot))

/-- A text, a script and an element with a directive and an if block. -/
theorem parse_spans_exact_word :
    let source := "a<script>b</script><i use:c>\x7b#if d\x7de\x7b:else\x7d\x7bf\x7d\x7b/if\x7d</i>".toList
    ∃ parsed, parse Program.wordParser source = .ok parsed ∧
      parsed.template.outermost.map (fun n => (n.kind, n.start, n.stop)) =
        [("Text", 0, 1), ("Element", 19, 55), ("Script", 1, 19)] ∧
      (∃ all, all.Perm parsed.template.outermost ∧ Tiles 0 (byteLength source) all) ∧
      ∀ root ∈ parsed.template.roots, ∀ n, root.InTree n → n.Exact ∧
        (n = parsed.template.html ∨ n.placeholder = true ∨
          WrittenIn source n ∧
            ∀ ns, ("children", .nodes ns) ∈ n.fields → Encloses source n ns) := by
  intro source
  have hrun : (parse Program.wordParser source).toOption.map
      (fun parsed => parsed.template.outermost.map fun n => (n.kind, n.start, n.stop)) =
      some [("Text", 0, 1), ("Element", 19, 55), ("Script", 1, 19)] := by decide +kernel
  obtain ⟨parsed, hparsed, hspans⟩ := Option.map_eq_some_iff.mp hrun
  rw [Run.toOption_eq_some] at hparsed
  obtain ⟨htiles, hexact⟩ := parse_spans_exact hparsed
  exact ⟨parsed, hparsed, hspans, htiles, hexact⟩

end SvelteSyntax.Markup
