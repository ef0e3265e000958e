import SvelteSyntax.Proofs.Program.Stages.Naming

namespace SvelteSyntax

open Run

/-- The parser gives trees of scripts, with no nodes of markup and nothing pending. -/
structure Script.ScriptParser.Plain (parser : Script.ScriptParser) (source : List Char) : Prop where
  expression : ∀ start stop assignable parsed,
    parser.expressionAt source start stop assignable = .ok parsed → Program.Scripted parsed.expression
  program : ∀ start stop parsed,
    parser.programAt source start stop = .ok parsed → Program.Scripted parsed.program

namespace Program

section Embed

variable {ctx : EmbedContext} {parent : Option Parent} {n n' : Node} {level d : Nat}

theorem Pending.not_scripted (hn : Pending n) : ¬Scripted n := by
  intro h
  have hnot := (scripted_iff.mp h).1.1
  rw [hn.placeholder] at hnot
  cases hnot

theorem Fits.slot {kind key v} (h : Fits .named kind key v) {c} (hc : v.Holds c)
    (hpending : Pending c) : ∃ slot, slot? ⟨kind, key⟩ = some slot := by
  have hleaf : Leaf .named kind key c → ∃ slot, slot? ⟨kind, key⟩ = some slot := by
    intro hleaf
    cases hleaf with
    | pending _ hslot => exact Option.isSome_iff_exists.mp hslot
    | scripted h => exact absurd h hpending.not_scripted
  cases h with
  | bare _ h => exact absurd hc (h c)
  | name h | pattern h | unboundYet h => cases h
  | unbound => simp at hc
  | script _ h =>
    rw [Value.holds_node] at hc
    exact hleaf (hc ▸ h)
  | scripts _ _ h =>
    rw [Value.holds_nodes] at hc
    exact hleaf (h c hc)
  | child hkey =>
    rw [Value.holds_node] at hc
    have hall : ∀ field ∈ branchFields, field.2.2 ∈ markupKinds := by decide
    exact absurd (hc ▸ hall _ hkey) hpending.kind
  | children _ _ h =>
    rw [Value.holds_nodes] at hc
    exact absurd (h c hc).1 hpending.kind

theorem scripted_embedWithin (hn : Scripted n) (h : Yields (embedWithin ctx level d parent n) n') :
    Scripted n' := by
  induction d generalizing parent n n' with
  | zero =>
    rw [embedWithin_depth_zero] at h
    exact h.pure ▸ hn
  | succ d ih =>
    rw [embedWithin_eq_mapChildrenM (.inl (scripted_iff.mp hn).1.1)] at h
    exact scripted_mapChildrenM (fun p c c' hc hyields => ih hc hyields) hn h

variable (hparser : ctx.parser.Plain ctx.source)
include hparser

theorem scripted_embedSlot {slot} (h : Yields (embedSlot ctx n slot) n') : Scripted n' := by
  cases (publishes_embedSlot n slot).yields n' h with
  | expression hparsed => exact hparser.expression _ _ _ _ hparsed
  | program hparsed => exact hparser.program _ _ _ hparsed

theorem scripted_of_pending {slot} (hn : Pending n) (hslot : parent.bind slot? = some slot)
    (hdepth : n.depth ≤ d) (h : Yields (embedWithin ctx level d parent n) n') : Scripted n' := by
  obtain ⟨d, rfl⟩ : ∃ e, d = e + 1 := Nat.exists_eq_add_one.mpr (Nat.lt_of_lt_of_le n.depth_pos hdepth)
  rw [embedWithin_of_pending hn.placeholder hslot] at h
  obtain ⟨n₁, h₁, h⟩ := h.bind
  have hscripted := scripted_embedSlot hparser h₁
  cases level with
  | zero => exact absurd h not_yields_refuseNested
  | succ level =>
    exact scripted_mapChildrenM (fun p c c' hc hyields => scripted_embedWithin hc hyields) hscripted h

theorem staged_embedWithin (hn : Staged .named n)
    (hslot : Pending n → ∃ slot, parent.bind slot? = some slot) (hdepth : n.depth ≤ d)
    (h : Yields (embedWithin ctx level d parent n) n') : Staged .embedded n' := by
  induction d generalizing parent n n' with
  | zero => exact absurd hdepth (Nat.not_le.mpr n.depth_pos)
  | succ d ih =>
    cases hn with
    | pending _ hn =>
      obtain ⟨slot, hslot⟩ := hslot hn
      exact .scripted (scripted_of_pending hparser hn hslot hdepth h)
    | scripted hn => exact .scripted (scripted_embedWithin hn h)
    | markup hn hchildren =>
      rw [embedWithin_eq_mapChildrenM (.inl hn.placeholder)] at h
      have hchild : ∀ c, n.HasChild c → c.depth ≤ d := fun c hc => by
        have hlt := Node.depth_lt_of_hasChild hc
        omega
      refine .markup (hn.walk (by decide) (fun key c c' hc hleaf hyields => ?_)
        (fun p c c' hc hkind hyields => ?_) h) fun c' hc' => ?_
      · cases hleaf with
        | pending _ hslot hpending =>
          obtain ⟨slot, hslot⟩ := Option.isSome_iff_exists.mp hslot
          have hbind : (some (Parent.mk n.kind key)).bind slot? = some slot := hslot
          exact .scripted (scripted_of_pending hparser hpending hbind (hchild c hc) hyields)
        | scripted hscripted => exact .scripted (scripted_embedWithin hscripted hyields)
      · have hformed := ((hchildren c hc).formed hkind).1
        exact (samePlace_embedWithin (.inl hformed.placeholder) hyields).kind
      · obtain ⟨key, v, c, hv, hc, hyields⟩ := hn.child_of_walk (by decide) h hc'
        have hmem := Node.hasChild_of_get? hv hc
        refine ih (hchildren c hmem) (fun hpending => ?_) (hchild c hmem) hyields
        exact (hn.fields key v hv).slot hc hpending

end Embed

section Normalize

variable {ctx : NormalizeContext} {n n' : Node} {d : Nat}

theorem Scripted.ne_templateRoot (h : Scripted n) : n.kind ≠ "TemplateRoot" := by
  intro hkind
  exact (scripted_iff.mp h).1.2 (hkind ▸ by decide)

theorem scripted_dropShorthand (h : Scripted n) : Scripted (dropShorthand n) := by
  unfold dropShorthand
  split
  · exact h
  · split
    · split
      · exact h.erase _
      · exact h
    · exact h

theorem scripted_restoreShorthand (h : Scripted n) : Scripted (restoreShorthand n) := by
  unfold restoreShorthand
  split
  · exact h
  · split
    · exact h
    · split
      · rename_i a ha
        refine h.set _ fun c hc => ?_
        rw [Value.holds_node] at hc
        exact hc ▸ h.child (Node.hasChild_of_child? ha)
      · exact h

theorem scripted_normalizeWithin (hn : Scripted n) (h : Yields (normalizeWithin ctx d n) n') :
    Scripted n' := by
  induction d generalizing n n' with
  | zero => exact Yields.pure h ▸ hn
  | succ d ih =>
    obtain ⟨n₁, loc, hmap, -, rfl⟩ := of_normalizeWithin hn.ne_templateRoot h
    have hvisited : Scripted { n with visited := true } := hn.congr rfl rfl rfl
    have hwalked := scripted_mapChildrenM (fun p c c' hc hyields => ih hc hyields)
      (scripted_dropShorthand hvisited) hmap
    exact (scripted_restoreShorthand hwalked).congr rfl rfl rfl

theorem Formed.congr {s} (h : Formed s n) (hplaceholder : n'.placeholder = n.placeholder)
    (hkind : n'.kind = n.kind) (hfields : n'.fields = n.fields) : Formed s n' := by
  have hget : ∀ key, n'.get? key = n.get? key := fun key => by rw [Node.get?, hfields, Node.get?]
  exact
    { placeholder := hplaceholder.trans h.placeholder
      kind := hkind ▸ h.kind
      inner := hkind ▸ h.inner
      names := by
        rw [Node.fieldNames, hfields]
        exact h.names
      fields := fun key v hv => by
        rw [hget] at hv
        exact hkind ▸ h.fields key v hv
      present := fun hs hsection => by
        rw [Node.flag, hget]
        exact h.present hs (hkind ▸ hsection)
      bound := fun hs key hkey => by
        rw [Node.has, hget]
        exact h.bound hs key (hkind ▸ hkey)
      declares := by
        refine ⟨fun he => ?_, fun he => ?_⟩
        · rw [hget]
          exact h.declares.context (hkind ▸ he)
        · simp only [hget]
          exact h.declares.target (hkind ▸ he) }

theorem shorthandFields?_of_markup {kind} (h : kind ∈ markupKinds) :
    shorthandFields? kind = none := by
  have hall : ∀ kind ∈ markupKinds, shorthandFields? kind = none := by decide
  exact hall kind h

theorem staged_normalizeWithin (hn : Staged .embedded n) (h : Yields (normalizeWithin ctx d n) n') :
    Staged .embedded n' := by
  induction d generalizing n n' with
  | zero => exact Yields.pure h ▸ hn
  | succ d ih =>
    cases hn with
    | pending hs => exact absurd rfl hs
    | scripted hn => exact .scripted (scripted_normalizeWithin hn h)
    | markup hn hchildren =>
      obtain ⟨n₁, hmap, hplace, hfields⟩ :=
        of_normalizeWithin_of_plain hn.inner (shorthandFields?_of_markup hn.kind) h
      have hvisited : Formed .embedded { n with visited := true } := hn.congr rfl rfl rfl
      have hformed : Formed .embedded n₁ := by
        refine hvisited.walk (by decide) (fun key c c' _ hleaf hyields => ?_)
          (fun p c c' hc hkind hyields => ?_) hmap
        · cases hleaf with
          | pending hs => exact absurd rfl hs
          | scripted hc => exact .scripted (scripted_normalizeWithin hc hyields)
        · have hinner := ((hchildren c hc).formed hkind).1.inner
          exact (samePlace_normalizeWithin hinner hyields).kind
      refine .markup (hformed.congr hplace.placeholder hplace.kind hfields) fun c' hc' => ?_
      rw [Node.HasChild, hfields] at hc'
      obtain ⟨key, v, c, hv, hc, hyields⟩ := hvisited.child_of_walk (by decide) hmap hc'
      exact ih (hchildren c (Node.hasChild_of_get? (n := { n with visited := true }) hv hc)) hyields

end Normalize

end Program

end SvelteSyntax
