import SvelteSyntax.Proofs.Component.Declared
import SvelteSyntax.Proofs.Program.Settled

namespace SvelteSyntax

open Run Text Markup Script

variable {n script : Node} {source : List Char}

namespace Program

section Parsed

variable {ctx : EmbedContext} {level depth : Nat} {parent : Option Parent} {n n' : Node}

theorem eq_of_embedWithin (hn : Scripted n) (h : Yields (embedWithin ctx level depth parent n) n') :
    n' = n := by
  induction depth generalizing parent n n' with
  | zero =>
    rw [embedWithin_depth_zero] at h
    exact h.pure
  | succ depth ih =>
    rw [embedWithin_eq_mapChildrenM (.inl (scripted_iff.mp hn).1.1)] at h
    exact eq_of_mapChildrenM h fun p c hc c' => ih (hn.child hc)

theorem eq_of_embedRest (hn : Scripted n) (h : Yields (embedRest ctx level n) n') : n' = n := by
  cases level with
  | zero => exact absurd h not_yields_refuseNested
  | succ level => exact eq_of_mapChildrenM h fun p c hc c' => eq_of_embedWithin (hn.child hc)

end Parsed

section Statements

variable {nctx : NameContext} {ectx : EmbedContext} {zctx : NormalizeContext} {js : Frontend}
  {options : Options}

theorem mem_body_of_programAt {content : Node} {parsed : ParsedProgram} {p : SyntaxProgram} {x : Syntax}
    (h : programAt js options source content.start content.stop = .ok parsed)
    (hp : js.program? options.dialect (content.text source) = some p) (hx : x ∈ p.statements) :
    parsed.program.kind = "Program" ∧
      Builder.place ⟨content.text source, content.start⟩ .statement x
        (Builder.build ⟨content.text source, content.start⟩ x) ∈ parsed.program.children "body" := by
  obtain ⟨text, htext, h⟩ := bind_eq_ok.mp h
  obtain rfl : text = content.text source := by
    unfold sliceAt at htext
    split at htext
    · next slice hslice =>
      cases htext
      rw [Node.text, hslice]
      rfl
    · cases htext
  rw [hp] at h
  obtain ⟨streams, -, h⟩ := bind_eq_ok.mp h
  cases h
  refine ⟨rfl, List.mem_append_right _ ?_⟩
  rw [Builder.list_eq_map]
  exact List.mem_map_of_mem hx

theorem Passed.renews {key : String} {s₁ s₂ s₃ : Node} (h : Passed nctx ectx zctx key script s₁ s₂ s₃)
    (hkey : key = "instance" ∨ key = "module") (hparser : ectx.parser = js.parser options)
    (hscript : ScriptDraft script) (hn : Component.TopLevel js options ectx.source script n) :
    ∃ n' ∈ statementsOf s₃, Renews zctx n n' := by
  obtain @⟨c, x, p, hc, hp, hx⟩ := hn
  obtain ⟨c₁, c₂, c₃, _, _, _, _, hc₃, hc_named, hc_embedded, hc_normalized⟩ :=
    h.content hkey hscript.kind hc
  have hplace := samePlace_nameWithin hc_named
  obtain ⟨parsed, hparsed, hrest⟩ :=
    embedWithin_program (hplace.placeholder.trans (hscript.content c hc)) rfl hc_embedded
  rw [hparser, hplace.start, hplace.stop] at hparsed
  obtain rfl := eq_of_embedRest ((parser_plain js options ectx.source).program _ _ _ hparsed) hrest
  obtain ⟨hkind, hbody⟩ := mem_body_of_programAt hparsed hp hx
  obtain ⟨n', hn', hrenews⟩ :=
    Renews.children ⟨_, hc_normalized⟩ (by rw [hkind]; decide : (_, "body") ∈ declaringLists) hbody
  exact ⟨n', by rwa [statementsOf, hc₃], hrenews⟩

theorem Finished.mem_body_of_script {root program before after}
    (h : Finished zctx root before after program)
    (hscript : root.child? "instance" = some script ∨ root.child? "module" = some script)
    (hn : n ∈ statementsOf script) : n ∈ program.children "body" := by
  obtain ⟨html, body, -, hsorted, hget⟩ := h.body
  rw [Node.children, hget]
  refine (perm_of_sortDisjoint hsorted).mem_iff.mpr (List.mem_append_right _ ?_)
  refine List.mem_flatMap.mpr ⟨script, List.mem_append.mpr ?_, hn⟩
  exact hscript.imp Option.mem_toList.mpr Option.mem_toList.mpr

theorem renews_of_convert {index template converted} (htemplate : TemplateDrafted template)
    (h : convert (js.parser options) options index source template = .ok converted)
    (hscript : Component.HasScript template script)
    (hn : Component.TopLevel js options source script n) :
    ∃ n' ∈ converted.ast.program.children "body", Renews { index, options } n n' := by
  obtain ⟨nctx, root, ⟨before, after, hfinished⟩, -, hsections⟩ := passed_of_convert h
  obtain ⟨-, hinstance, hmodule⟩ := child?_rootOf template index.size
  have hpassed : ∀ key, key = "instance" ∨ key = "module" →
      (rootOf template index.size).child? key = some script → ScriptDraft script →
      ∃ n' ∈ converted.ast.program.children "body", Renews { index, options } n n' := by
    intro key hkey hc hdraft
    have hsection := hsections key (by rcases hkey with rfl | rfl <;> decide)
    rw [hc] at hsection
    obtain ⟨s₃, hs₃, s₁, s₂, hpassed⟩ := of_optionRel_some hsection
    obtain ⟨n', hn', hrenews⟩ := hpassed.renews hkey rfl hdraft hn
    refine ⟨n', hfinished.mem_body_of_script ?_ hn', hrenews⟩
    rcases hkey with rfl | rfl
    · exact .inl hs₃
    · exact .inr hs₃
  rcases hscript with hscript | hscript
  · exact hpassed "module" (.inr rfl) (hmodule.trans hscript) (htemplate.moduleScript script hscript)
  · exact hpassed "instance" (.inl rfl) (hinstance.trans hscript)
      (htemplate.instanceScript script hscript)

end Statements

end Program

end SvelteSyntax
