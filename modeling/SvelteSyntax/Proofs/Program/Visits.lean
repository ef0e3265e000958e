import Mathlib.Data.List.Nodup
import SvelteSyntax.Proofs.Program.Convert

namespace SvelteSyntax

open Run Text

/-- No node of the tree is marked, and none has two fields of one name. -/
def Node.Fresh (n : Node) : Prop := ∀ m, n.InTree m → m.visited = false ∧ m.fieldNames.Nodup

/-- The same for all nodes of the tree but its root, which may be marked. -/
structure Node.FreshBelow (n : Node) : Prop where
  names : n.fieldNames.Nodup
  children : ∀ c, n.HasChild c → c.Fresh

variable {v : Value} {depth : Nat} {parent : Option Parent} {α : Type} {n : Node}

namespace Node

variable {n m : Node}

theorem fresh_iff : n.Fresh ↔ n.visited = false ∧ n.FreshBelow := by
  rw [Fresh, forall_inTree]
  exact ⟨fun ⟨⟨hmark, hnames⟩, hchildren⟩ => ⟨hmark, hnames, hchildren⟩,
    fun ⟨hmark, hbelow⟩ => ⟨⟨hmark, hbelow.names⟩, hbelow.children⟩⟩

theorem fresh_leaf (hmark : n.visited = false) (hfields : n.fields = []) : n.Fresh := by
  refine fresh_iff.mpr ⟨hmark, ?_, fun c hc => ?_⟩
  · simp [fieldNames, Fields.names, hfields]
  · simp [HasChild, hfields] at hc

theorem Fresh.below (h : n.Fresh) : n.FreshBelow := (fresh_iff.mp h).2

theorem Fresh.congr (h : n.Fresh) (hmark : m.visited = n.visited) (hfields : m.fields = n.fields) :
    m.Fresh := by
  obtain ⟨hunmarked, hnames, hchildren⟩ := fresh_iff.mp h
  refine fresh_iff.mpr ⟨hmark.trans hunmarked, ?_, ?_⟩
  · rwa [fieldNames, hfields]
  · intro c hc
    rw [HasChild, hfields] at hc
    exact hchildren c hc

theorem FreshBelow.fields (h : n.FreshBelow) (hfields : m.fields = n.fields) : m.FreshBelow := by
  refine ⟨?_, fun c hc => ?_⟩
  · rw [fieldNames, hfields]
    exact h.names
  · rw [HasChild, hfields] at hc
    exact h.children c hc

theorem FreshBelow.set (h : n.FreshBelow) (key : String) (hv : ∀ c, v.Holds c → c.Fresh) :
    (n.set key v).FreshBelow :=
  ⟨Fields.nodup_names_set h.names, fun c hc => (Fields.hold_set hc).elim (hv c) (h.children c)⟩

theorem FreshBelow.erase (h : n.FreshBelow) (key : String) : (n.erase key).FreshBelow :=
  ⟨Fields.nodup_names_erase h.names, fun c hc => h.children c (Fields.hold_erase hc)⟩

theorem Fresh.set (h : n.Fresh) (key : String) (hv : ∀ c, v.Holds c → c.Fresh) :
    (n.set key v).Fresh :=
  fresh_iff.mpr ⟨(fresh_iff.mp h).1, h.below.set key hv⟩

theorem Fresh.erase (h : n.Fresh) (key : String) : (n.erase key).Fresh :=
  fresh_iff.mpr ⟨(fresh_iff.mp h).1, h.below.erase key⟩

theorem Fresh.child? (h : n.Fresh) {key : String} (hc : n.child? key = some m) : m.Fresh :=
  h.below.children m (hasChild_of_child? hc)

theorem Fresh.setNode (h : n.Fresh) (key : String) (hm : m.Fresh) : (n.set key (.node m)).Fresh :=
  h.set key fun c hc => by
    rw [Value.holds_node] at hc
    exact hc ▸ hm

theorem nodup_of_visitorKeys {kind keys} (h : childKeys? kind = some keys) :
    keys.Nodup := by
  have hall : ∀ entry ∈ visitorKeys, entry.2.Nodup := by decide
  obtain ⟨before, after, heq, -⟩ := List.lookup_eq_some_iff.mp h
  exact hall (kind, keys) (by simp [heq])

theorem nodup_traversalKeys (h : n.fieldNames.Nodup) : n.traversalKeys.Nodup := by
  unfold traversalKeys
  split
  · rename_i keys hkeys
    exact nodup_of_visitorKeys hkeys
  · exact (List.filter_sublist.map _).nodup h

end Node

/-- The trees that a template is made of. -/
def Markup.Template.sections (template : Markup.Template) : List Node :=
  template.html ::
    (template.css.toList ++ template.instanceScript.toList ++ template.moduleScript.toList)

/-- The template of a component that has not been converted. -/
def Markup.Template.Fresh (template : Markup.Template) : Prop := ∀ n ∈ template.sections, n.Fresh

/-- The parser gives trees without marks. -/
structure Script.ScriptParser.Fresh (parser : Script.ScriptParser) : Prop where
  expression : ∀ source start stop assignable parsed,
    parser.expressionAt source start stop assignable = .ok parsed → parsed.expression.Fresh
  program : ∀ source start stop parsed,
    parser.programAt source start stop = .ok parsed → parsed.program.Fresh

namespace Program

open Markup Script

section Walk

variable {σ ε : Type} {bad : ε → Prop} {f : Parent → Node → StateT σ (Except ε) Node} {n n' : Node}

theorem avoids_mapNodesM {g : Node → StateT σ (Except ε) Node} (hg : ∀ c, v.Holds c → Avoids bad (g c)) :
    Avoids bad (mapNodesM g v) := by
  cases v with
  | node c => exact .map (hg c .node)
  | nodes cs => exact .map (.mapM fun c hc => hg c (.nodes hc))
  | sparse cs =>
    refine .map (.mapM fun c hc => ?_)
    cases c with
    | none => exact .pure
    | some c => exact .map (hg c (.sparse hc))
  | _ => exact .pure

theorem avoids_foldlM_mapFieldM {keys : List String} (hnodup : keys.Nodup)
    (h : ∀ key ∈ keys, ∀ v, n.get? key = some v → ∀ c, v.Holds c → Avoids bad (f ⟨n.kind, key⟩ c)) :
    Avoids bad (keys.foldlM (mapFieldM f) n) := by
  induction keys generalizing n with
  | nil => exact .pure
  | cons key keys ih =>
    obtain ⟨hkey, hnodup⟩ := List.nodup_cons.mp hnodup
    rw [List.foldlM_cons]
    refine .bind ?_ fun n₁ h₁ => ih hnodup fun other hother v hv c hc => ?_
    · unfold mapFieldM
      split
      · rename_i v hv
        exact .map (avoids_mapNodesM (h key (List.mem_cons_self ..) v hv))
      · exact .pure
    · have hne : other ≠ key := fun he => hkey (he ▸ hother)
      rw [get?_mapFieldM_of_ne hne h₁] at hv
      rw [(samePlace_mapFieldM h₁).kind]
      exact h other (List.mem_cons_of_mem _ hother) v hv c hc

theorem avoids_mapChildrenM (hn : n.fieldNames.Nodup)
    (h : ∀ p c, n.HasChild c → Avoids bad (f p c)) : Avoids bad (mapChildrenM f n) :=
  avoids_foldlM_mapFieldM (Node.nodup_traversalKeys hn) fun _ _ _ hv c hc =>
    h _ c (Node.hasChild_of_get? hv hc)

theorem freshBelow_mapChildrenM (hf : ∀ p c c', c.Fresh → Yields (f p c) c' → c'.Fresh)
    (hn : n.FreshBelow) (h : Yields (mapChildrenM f n) n') : n'.FreshBelow := by
  unfold mapChildrenM at h
  generalize n.traversalKeys = keys at h
  induction keys generalizing n with
  | nil => exact h.pure ▸ hn
  | cons key keys ih =>
    rw [List.foldlM_cons] at h
    obtain ⟨n₁, h₁, h⟩ := h.bind
    refine ih ?_ h
    unfold mapFieldM at h₁
    split at h₁
    · rename_i v hv
      obtain ⟨v', hv', h₁⟩ := h₁.bind
      rw [h₁.pure]
      refine hn.set _ fun c' hc' => ?_
      rcases holds_of_mapNodesM hv' hc' with hc | ⟨c, hc, hyields⟩
      · exact hn.children c' (Node.hasChild_of_get? hv hc)
      · exact hf _ c c' (hn.children c (Node.hasChild_of_get? hv hc)) hyields
    · exact h₁.pure ▸ hn

theorem visited_mapChildrenM (h : Yields (mapChildrenM f n) n') : n'.visited = n.visited := by
  unfold mapChildrenM at h
  generalize n.traversalKeys = keys at h
  induction keys generalizing n with
  | nil => rw [h.pure]
  | cons key keys ih =>
    rw [List.foldlM_cons] at h
    obtain ⟨n₁, h₁, h⟩ := h.bind
    refine (ih h).trans ?_
    unfold mapFieldM at h₁
    split at h₁
    · obtain ⟨v, -, h₁⟩ := h₁.bind
      rw [h₁.pure]
      rfl
    · rw [h₁.pure]

theorem fresh_mapChildrenM (hf : ∀ p c c', c.Fresh → Yields (f p c) c' → c'.Fresh) (hn : n.Fresh)
    (h : Yields (mapChildrenM f n) n') : n'.Fresh :=
  Node.fresh_iff.mpr ⟨(visited_mapChildrenM h).trans (Node.fresh_iff.mp hn).1,
    freshBelow_mapChildrenM hf hn.below h⟩

end Walk

section Names

variable {ctx : NameContext} {n n' : Node}

theorem fresh_identifierNode (name : String) (start stop : Nat) :
    (identifierNode name start stop).Fresh := by
  have hleaf : (Node.new "Identifier" start stop).Fresh := Node.fresh_leaf rfl rfl
  exact hleaf.set _ fun c hc => nomatch hc

theorem Expanded.fresh {field} (h : Expanded field n n') (hn : n.Fresh) : n'.Fresh := by
  cases h with
  | name => exact hn.setNode _ (fresh_identifierNode _ _ _)
  | same => exact hn

theorem BindingMoved.fresh {binding field} (h : BindingMoved binding field n n') (hn : n.Fresh) :
    n'.Fresh := by
  have herase := hn.erase binding
  cases h with
  | dropped => exact herase
  | moved hinner hw =>
    refine herase.setNode _ ((herase.child? hinner).set _ fun c hc => ?_)
    rcases hw with ⟨name, start, stop, rfl⟩ | ⟨rfl, -⟩
    · rw [Value.holds_node] at hc
      exact hc ▸ fresh_identifierNode _ _ _
    · cases hget : n.get? binding with
      | none => simp [hget] at hc
      | some v =>
        rw [hget, Option.getD_some] at hc
        exact hn.below.children c (Node.hasChild_of_get? hget hc)

theorem fresh_dropSkipped (hn : n.Fresh) (field : String) : (dropSkipped n field).Fresh := by
  unfold dropSkipped
  split
  · exact hn.erase field
  · exact hn

theorem Named.fresh (h : Named n n') (hn : n.Fresh) : n'.Fresh := by
  cases h with
  | other | target => exact hn
  | component _ h | directive _ h => exact h.fresh hn
  | value _ he => exact hn.setNode _ ((hn.child? he).congr rfl rfl)
  | each _ hm h => exact h.fresh (hm.fresh hn)
  | await _ hm h =>
    refine h.fresh (hm.fresh ?_)
    exact fresh_dropSkipped (fresh_dropSkipped (fresh_dropSkipped hn _) _) _

theorem fresh_nameWithin (hn : n.Fresh) (h : Yields (nameWithin ctx depth parent n) n') : n'.Fresh := by
  induction depth generalizing parent n n' with
  | zero => exact Yields.pure h ▸ hn
  | succ depth ih =>
    obtain ⟨n₁, h₁, h⟩ := Yields.bind h
    exact fresh_mapChildrenM (fun p c c' hc => ih hc) (((publishes_nameNode parent n).yields n₁ h₁).fresh hn) h

theorem avoids_nameWithin (depth : Nat) (parent : Option Parent) (hn : n.Fresh) :
    Avoids WalkFault (nameWithin ctx depth parent n) := by
  induction depth generalizing parent n with
  | zero => exact .pure
  | succ depth ih =>
    refine .bind (publishes_nameNode parent n).avoids fun n₁ h₁ => ?_
    have hbelow := (((publishes_nameNode parent n).yields n₁ h₁).fresh hn).below
    exact avoids_mapChildrenM hbelow.names fun p c hc => ih _ (hbelow.children c hc)

end Names

section Scripts

variable {ctx : EmbedContext} {n n' : Node}

variable (hparser : ctx.parser.Fresh)
include hparser

theorem fresh_embedSlot {slot} (h : Yields (embedSlot ctx n slot) n') : n'.Fresh := by
  cases (publishes_embedSlot n slot).yields n' h with
  | expression hparsed => exact hparser.expression _ _ _ _ _ hparsed
  | program hparsed => exact hparser.program _ _ _ _ hparsed

theorem fresh_embedFrom {again} (hagain : ∀ n n', n.Fresh → Yields (again n) n' → n'.Fresh)
    (hn : n.Fresh) (h : Yields (embedFrom ctx again depth parent n) n') : n'.Fresh := by
  induction depth generalizing parent n n' with
  | zero => exact Yields.pure h ▸ hn
  | succ depth ih =>
    unfold embedFrom at h
    split at h
    · obtain ⟨n₁, h₁, h⟩ := h.bind
      exact hagain n₁ n' (fresh_embedSlot hparser h₁) h
    · exact fresh_mapChildrenM (fun p c c' hc => ih hc) hn h

theorem fresh_embedWithin {level} (hn : n.Fresh)
    (h : Yields (embedWithin ctx level depth parent n) n') : n'.Fresh := by
  induction level generalizing depth parent n n' with
  | zero => exact fresh_embedFrom hparser (fun n n' hn h => absurd h not_yields_refuseNested) hn h
  | succ level ih =>
    refine fresh_embedFrom hparser (fun n n' hn h => ?_) hn h
    exact fresh_mapChildrenM (fun p c c' hc => ih hc) hn h

theorem avoids_embedFrom {again} (depth : Nat) (parent : Option Parent)
    (hagain : ∀ n, n.Fresh → Avoids WalkFault (again n)) (hn : n.Fresh) :
    Avoids WalkFault (embedFrom ctx again depth parent n) := by
  induction depth generalizing parent n with
  | zero => exact .pure
  | succ depth ih =>
    unfold embedFrom
    split
    · exact .bind (publishes_embedSlot n _).avoids fun n₁ h₁ => hagain n₁ (fresh_embedSlot hparser h₁)
    · exact avoids_mapChildrenM hn.below.names fun p c hc => ih _ (hn.below.children c hc)

theorem avoids_embedWithin (level depth : Nat) (parent : Option Parent) (hn : n.Fresh) :
    Avoids WalkFault (embedWithin ctx level depth parent n) := by
  induction level generalizing depth parent n with
  | zero => exact avoids_embedFrom hparser depth parent (fun _ _ => .throw (by rintro ⟨⟩)) hn
  | succ level ih =>
    refine avoids_embedFrom hparser depth parent (fun n hn => ?_) hn
    exact avoids_mapChildrenM hn.below.names fun p c hc => ih _ _ (hn.below.children c hc)

end Scripts

section Normalize

variable {ctx : NormalizeContext} {n n' : Node}

abbrev SparesWalk {α : Type} (x : Except Fault α) : Prop :=
  Spares (fun f => WalkFault (.inconsistent f)) x

theorem spares_locateSpan (index : LineIndex) (start stop : Nat) :
    SparesWalk (locateSpan index start stop) := by
  have hlocate : ∀ offset, SparesWalk (locate index offset) := by
    intro offset
    unfold locate
    split
    · exact .ok
    · exact .error nofun
  exact .bind (hlocate start) fun _ _ => .bind (hlocate stop) fun _ _ => .ok

theorem spares_checkDisjoint [Spanned α] (what : String) (items : List α) :
    SparesWalk (checkDisjoint what items) := by
  induction items with
  | nil => exact .ok
  | cons a items ih =>
    cases items with
    | nil => exact .ok
    | cons b rest =>
      rw [checkDisjoint]
      split
      · exact .error nofun
      · exact ih

theorem spares_sortDisjoint [Spanned α] (what : String) (items : List α) :
    SparesWalk (sortDisjoint what items) :=
  .bind (spares_checkDisjoint what _) fun _ _ => .ok

theorem spares_locatedTokens (index : LineIndex) (tokens : List Token) :
    SparesWalk (locatedTokens index tokens) :=
  .bind (spares_sortDisjoint _ _) fun _ _ =>
    .mapM (fun _ => .bind (spares_locateSpan _ _ _) fun _ _ => .ok) _

theorem spares_locatedComments (index : LineIndex) (comments : List Comment) :
    SparesWalk (locatedComments index comments) :=
  .bind (spares_sortDisjoint _ _) fun _ _ =>
    .mapM (fun _ => .bind (spares_locateSpan _ _ _) fun _ _ => .ok) _

theorem avoids_checked {x : Except Fault α} (h : SparesWalk x) :
    Avoids WalkFault (checked x) :=
  .lift (.mapError h)

theorem avoids_finishRoot (n : Node) : Avoids WalkFault (finishRoot ctx n) := by
  unfold finishRoot
  cases n.child? "html" with
  | none => exact .throw nofun
  | some html =>
    refine .bind (avoids_checked (spares_sortDisjoint _ _)) fun _ _ => .bind (fun _ => .ok) fun _ _ => ?_
    refine .bind (avoids_checked (spares_locatedTokens _ _)) fun _ _ => ?_
    refine .bind (avoids_checked (spares_locatedComments _ _)) fun _ _ => ?_
    exact .bind (avoids_checked (spares_locateSpan _ _ _)) fun _ _ => .bind (fun _ => .ok) fun _ _ => .pure

theorem avoids_leaveNode (n : Node) : Avoids WalkFault (leaveNode ctx n) := by
  unfold leaveNode
  split
  · exact avoids_finishRoot n
  · exact .bind (avoids_checked (spares_locateSpan _ _ _)) fun _ _ => .pure

theorem freshBelow_relabelField (hn : n.FreshBelow) (kind field : String) :
    (relabelField kind n field).FreshBelow := by
  unfold relabelField Node.modifyChild?
  cases hc : n.child? field with
  | none => exact hn
  | some c =>
    refine hn.set _ fun m hm => ?_
    rw [Value.holds_node] at hm
    exact hm ▸ (hn.children c (Node.hasChild_of_child? hc)).congr rfl rfl

theorem freshBelow_relabelSections (hn : n.FreshBelow) : (relabelSections n).FreshBelow := by
  unfold relabelSections
  split
  · exact freshBelow_relabelField (freshBelow_relabelField (freshBelow_relabelField hn _ _) _ _) _ _
  · exact hn

theorem freshBelow_dropShorthand (hn : n.FreshBelow) : (dropShorthand n).FreshBelow := by
  unfold dropShorthand
  split
  · exact hn
  · split
    · split
      · exact hn.erase _
      · exact hn
    · exact hn

theorem avoids_normalizeWithin (depth : Nat) (hn : n.Fresh) :
    Avoids WalkFault (normalizeWithin ctx depth n) := by
  induction depth generalizing n with
  | zero => exact .pure
  | succ depth ih =>
    obtain ⟨hmark, hbelow⟩ := Node.fresh_iff.mp hn
    have henter : Avoids WalkFault (enterNode n) := by
      simp only [enterNode, hmark]
      exact .pure
    refine .bind henter fun n₀ h₀ => .bind ?_ fun n₁ _ => avoids_leaveNode n₁
    have hbelow₀ : n₀.FreshBelow := by
      rw [of_enterNode h₀]
      exact freshBelow_dropShorthand (freshBelow_relabelSections (hbelow.fields rfl))
    exact avoids_mapChildrenM hbelow₀.names fun _ c hc => ih (hbelow₀.children c hc)

theorem unmarked_of_enterNode (h : Yields (enterNode n) n') : n.visited ≠ true := by
  intro hmark
  simp only [enterNode, hmark, if_true] at h
  obtain ⟨_, h, _⟩ := h.bind
  exact h.throw

theorem visited_dropShorthand (n : Node) : (dropShorthand n).visited = n.visited := by
  unfold dropShorthand
  split
  · rfl
  · split
    · split <;> rfl
    · rfl

theorem visited_restoreShorthand (n : Node) : (restoreShorthand n).visited = n.visited := by
  unfold restoreShorthand
  split
  · rfl
  · split
    · rfl
    · split <;> rfl

theorem visited_normalizeWithin (hkind : n.kind ≠ "TemplateRoot")
    (h : Yields (normalizeWithin ctx (depth + 1) n) n') : n'.visited = true := by
  obtain ⟨n₁, loc, hmap, -, rfl⟩ := of_normalizeWithin hkind h
  exact (visited_restoreShorthand n₁).trans
    ((visited_mapChildrenM hmap).trans (visited_dropShorthand _))

end Normalize

/-- The elements that a conversion gives beside the program. -/
def Converted.elements (converted : Converted) : List Node :=
  converted.css.toList ++ converted.instanceScript.toList ++ converted.moduleScript.toList

section Convert

variable {parser : ScriptParser} {options : Options} {index : LineIndex} {source : List Char}
  {template : Template}

theorem fresh_rootOf (h : template.Fresh) (size : Nat) : (rootOf template size).Fresh := by
  refine Node.fresh_iff.mpr ⟨rfl, ?_, fun c hc => h c ?_⟩
  · simp [Node.fieldNames, Fields.names, rootOf]
  · simpa [Node.HasChild, rootOf, Template.sections, Option.mem_toList] using hc

theorem spares_convert (htemplate : template.Fresh) (hparser : parser.Fresh) :
    Spares WalkFault (convert parser options index source template) := by
  have hlex : Spares WalkFault (lex index source) := by
    unfold lex
    split
    · exact .ok
    · exact .error (not_walkFault_at _ _ _ _)
  have hroot := fresh_rootOf htemplate index.size
  refine .bind hlex fun lexemes _ => .bind ?names fun named hnamed => ?_
  case names =>
    rw [nameTree_eq]
    exact avoids_nameWithin _ none hroot {}
  rw [nameTree_eq] at hnamed
  have hnamed := fresh_nameWithin hroot ⟨_, _, hnamed⟩
  refine .bind ?scripts fun embedded hembedded => .bind ?final fun _ _ => .ok
  case scripts =>
    rw [embedTree_eq]
    exact avoids_embedWithin hparser _ _ none hnamed {}
  rw [embedTree_eq] at hembedded
  have hembedded := fresh_embedWithin hparser hnamed ⟨_, _, hembedded⟩
  rw [normalizeTree, Pass.traverse_eq_within, within_normalizePass]
  exact avoids_normalizeWithin _ hembedded _

section Passed

variable {nctx : NameContext} {ectx : EmbedContext} {zctx : NormalizeContext} {key : String}
  {c c₁ c₂ c₃ : Node}

theorem Passed.marked (h : Passed nctx ectx zctx key c c₁ c₂ c₃)
    (hkey : key ∈ ["css", "instance", "module"]) :
    c₃.kind ∈ ["StyleElement", "ScriptElement"] ∧ c₃.visited = true := by
  obtain ⟨d, hd⟩ := h.normalized
  have hkind : sectionKind key c₂.kind ∈ ["StyleElement", "ScriptElement"] := by
    simp only [List.mem_cons, List.not_mem_nil, or_false] at hkey
    rcases hkey with rfl | rfl | rfl <;> simp [sectionKind]
  have hroot : sectionKind key c₂.kind ≠ "TemplateRoot" := fun he => by simp [he] at hkind
  exact ⟨(samePlace_normalizeWithin hroot hd).kind ▸ hkind, visited_normalizeWithin hroot hd⟩

theorem Passed.unmarked (h : Passed nctx ectx zctx key c c₁ c₂ c₃) (hkey : key ∈ sectionKeys)
    (hkind : c.kind ∈ ["StyleElement", "ScriptElement"]) : c.visited ≠ true := by
  intro hmark
  obtain ⟨⟨d₁, -, h₁⟩, ⟨level, d₂, -, h₂⟩, ⟨d₃, h₃⟩⟩ := h
  have hmark₁ : c₁.visited = true := by
    cases d₁ with
    | zero => exact Yields.pure h₁ ▸ hmark
    | succ d₁ =>
      have hplain : c.kind ∈ ["Fragment", "Script", "Program", "StyleElement", "ScriptElement"] := by
        simp only [List.mem_cons, List.not_mem_nil, or_false] at hkind
        rcases hkind with hkind | hkind <;> simp [hkind]
      rw [nameWithin_of_plain hplain] at h₁
      exact (visited_mapChildrenM h₁).trans hmark
  have hmark₂ : c₂.visited = true := by
    cases d₂ with
    | zero =>
      rw [embedWithin_depth_zero] at h₂
      exact h₂.pure ▸ hmark₁
    | succ d₂ =>
      rw [embedWithin_eq_mapChildrenM (.inr (slot?_templateRoot hkey))] at h₂
      exact (visited_mapChildrenM h₂).trans hmark₁
  obtain ⟨c₀, h₀, -⟩ := Yields.bind h₃
  exact unmarked_of_enterNode h₀ hmark₂

end Passed

theorem mem_elements {converted : Converted} :
    n ∈ converted.elements ↔ converted.css = some n ∨ converted.instanceScript = some n ∨
      converted.moduleScript = some n := by
  simp [Converted.elements, Option.mem_toList]

theorem marked_of_convert {converted : Converted}
    (h : convert parser options index source template = .ok converted) (hn : n ∈ converted.elements) :
    n.kind ∈ ["StyleElement", "ScriptElement"] ∧ n.visited = true := by
  obtain ⟨nctx, root, -, ⟨hcss, hinstance, hmodule⟩, hsections⟩ := passed_of_convert h
  have hmarked : ∀ key ∈ ["css", "instance", "module"], root.child? key = some n →
      n.kind ∈ ["StyleElement", "ScriptElement"] ∧ n.visited = true := by
    intro key hkey hn
    have hsection := hsections key (List.mem_cons_of_mem _ hkey)
    rw [hn] at hsection
    generalize (rootOf template index.size).child? key = c at hsection
    cases hsection with
    | some hc =>
      obtain ⟨c₁, c₂, hpassed⟩ := hc
      exact hpassed.marked hkey
  rcases mem_elements.mp hn with hn | hn | hn
  · exact hmarked "css" (by simp) (hcss ▸ hn)
  · exact hmarked "instance" (by simp) (hinstance ▸ hn)
  · exact hmarked "module" (by simp) (hmodule ▸ hn)

theorem exists_section (hn : n ∈ template.sections) (size : Nat) :
    ∃ key ∈ sectionKeys, (rootOf template size).child? key = some n := by
  obtain ⟨html, css, instanceScript, moduleScript⟩ := template
  simp only [Template.sections, List.mem_cons, List.mem_append, Option.mem_toList] at hn
  rcases hn with rfl | (rfl | rfl) | rfl
  · exact ⟨"html", by simp [sectionKeys], rfl⟩
  · exact ⟨"css", by simp [sectionKeys], rfl⟩
  · exact ⟨"instance", by simp [sectionKeys], rfl⟩
  · exact ⟨"module", by simp [sectionKeys], rfl⟩

theorem not_convert_of_marked (hn : n ∈ template.sections)
    (hkind : n.kind ∈ ["StyleElement", "ScriptElement"]) (hmark : n.visited = true)
    (converted : Converted) : convert parser options index source template ≠ .ok converted := by
  intro h
  obtain ⟨nctx, root, -, -, hsections⟩ := passed_of_convert h
  obtain ⟨key, hkey, hchild⟩ := exists_section hn index.size
  have hsection := hsections key hkey
  rw [hchild] at hsection
  obtain ⟨_, _, c₁, c₂, hpassed⟩ := of_optionRel_some hsection
  exact hpassed.unmarked hkey hkind hmark

end Convert

/-- A walk never fails over a template without marks: no node is met twice, no node is replaced twice
and every field is left. And what a conversion has marked is refused by every other conversion. -/
theorem convert_visits_once :
    (∀ (parser : ScriptParser) (options : Options) (index : LineIndex) (source : List Char)
      (template : Template) (e : Error), template.Fresh → parser.Fresh →
      convert parser options index source template = .error e → ¬WalkFault e) ∧
    ∀ (parser parser' : ScriptParser) (options options' : Options) (index index' : LineIndex)
      (source source' : List Char) (template template' : Template) (converted converted' : Converted)
      (n : Node), convert parser options index source template = .ok converted →
      n ∈ converted.elements → n ∈ template'.sections →
      convert parser' options' index' source' template' ≠ .ok converted' := by
  refine ⟨fun parser options index source template e htemplate hparser h => ?_, ?_⟩
  · exact spares_convert htemplate hparser e h
  · intro parser parser' options options' index index' source source' template template' converted
      converted' n h hn hn'
    obtain ⟨hkind, hmark⟩ := marked_of_convert h hn
    exact not_convert_of_marked hn' hkind hmark converted'

theorem wordParser_fresh : wordParser.Fresh where
  expression source start stop assignable parsed h := by
    obtain ⟨text, -, h⟩ := bind_eq_ok.mp h
    cases h
    exact fresh_identifierNode _ _ _
  program source start stop parsed h := by
    obtain ⟨text, -, h⟩ := bind_eq_ok.mp h
    cases h
    have hleaf : ∀ kind, (Node.new kind start stop).Fresh := fun kind => Node.fresh_leaf rfl rfl
    have hstatement := (hleaf "ExpressionStatement").setNode "expression"
      (fresh_identifierNode (String.ofList text) start stop)
    refine (hleaf "Program").set "body" fun c hc => ?_
    rw [Value.holds_nodes, List.mem_singleton] at hc
    exact hc ▸ hstatement

/-- A style and a script with one word. -/
theorem convert_visits_once_word :
    let source := "<style></style><script>e</script>".toList
    let index := LineIndex.ofText source
    let template : Template :=
      { html := .new "Fragment" 0 0
        css := some (.new "Style" 0 15)
        instanceScript := some
          ((Node.new "Script" 15 33).set "content" (.node (.pending "Program" 23 24))) }
    template.Fresh ∧ wordParser.Fresh ∧
      (∀ e, convert wordParser {} index source template = .error e → ¬WalkFault e) ∧
      ∃ converted style script, convert wordParser {} index source template = .ok converted ∧
        converted.elements = [style, script] ∧
        ∀ again, convert wordParser {} index source { template with css := some style } ≠ .ok again := by
  intro source index template
  have htemplate : template.Fresh := by
    have hscript : ((Node.new "Script" 15 33).set "content" (.node (.pending "Program" 23 24))).Fresh :=
      (Node.fresh_leaf rfl rfl).setNode _ (Node.fresh_leaf rfl rfl)
    simp only [Template.Fresh, Template.sections, template]
    simpa using ⟨Node.fresh_leaf rfl rfl, Node.fresh_leaf rfl rfl, hscript⟩
  have hrun : ((convert wordParser {} index source template).toOption.map fun converted =>
      converted.elements.map (·.kind)) = some ["StyleElement", "ScriptElement"] := by
    simp only [convert, normalizeTree_eq, leaveNode, finishRoot, locatedTokens, locatedComments,
      sortDisjoint_eq_insertionSort]
    decide +kernel
  obtain ⟨converted, hconverted, helements⟩ := Option.map_eq_some_iff.mp hrun
  rw [toOption_eq_some] at hconverted
  obtain ⟨style, rest, hstyle, -, hrest⟩ := List.map_eq_cons_iff.mp helements
  obtain ⟨script, rest, rfl, -, hrest⟩ := List.map_eq_cons_iff.mp hrest
  rw [List.map_eq_nil_iff.mp hrest] at hstyle
  refine ⟨htemplate, wordParser_fresh, ?_, converted, style, script, hconverted, hstyle, ?_⟩
  · exact fun e => convert_visits_once.1 _ _ _ _ _ e htemplate wordParser_fresh
  · intro again
    refine convert_visits_once.2 _ _ _ _ _ _ _ _ _ _ _ again style hconverted ?_ ?_
    · simp [hstyle]
    · simp [Template.sections]

end Program

end SvelteSyntax
