import SvelteSyntax.Proofs.Scoping.Declared
import SvelteSyntax.Proofs.Scoping.Sites
import SvelteSyntax.Proofs.Scoping.Tables

namespace SvelteSyntax.Scoping

open Run

variable {g : Graph}

section Queue

variable {current : ScopeId} {outer : List ScopeId} {kind : ScopeKind} {b b' closed : Building}
  {r : Reactive}

theorem Finish.reactive_eq {id} (h : Finish id b kind b') : b'.reactive = b.reactive := by
  cases h with
  | stay => rfl
  | mark => rfl

theorem mem_reactive_closeScope (hclose : closeScope current b = .ok ((), closed)) (hr : r ∈ b.reactive)
    (hscope : r.scope ≠ current) : r ∈ closed.reactive := by
  rw [eq_of_closeScope hclose]
  exact List.mem_filter.mpr ⟨hr, bne_iff_ne.mpr hscope⟩

theorem Runs.mem_reactive (h : Runs current outer kind b b') (hb : Within current outer kind b.graph)
    (hr : r ∈ b.reactive) (hscope : r.scope < b.graph.scopes.length) : r ∈ b'.reactive := by
  induction h with
  | step h =>
    cases h with
    | queue => exact List.mem_append_left _ hr
    | _ => exact hr
  | trans h _ ih ih' =>
    obtain ⟨hb₁, hgrows⟩ := h.grows hb
    exact ih' hb₁ (ih hb hr hscope) (Nat.lt_of_lt_of_le hscope hgrows.scopes_le)
  | @inScope _ _ _ kind' block b _ _ _ _ _ hclose hfinish ih =>
    have hopened := hb.opened kind' block
    rw [hfinish.reactive_eq]
    refine mem_reactive_closeScope hclose (ih hopened hr ?_) (Nat.ne_of_lt hscope)
    rw [Building.opened, Grows.scopes_length_pushScope]
    exact Nat.lt_succ_of_lt hscope

theorem isSome_declareIn (h : Built (current :: outer) g) (hscope : r.scope = current) :
    ((r.declareIn g).variableIn? current r.name).isSome := by
  subst hscope
  unfold Reactive.declareIn
  split
  · next hknown => exact hknown
  · next hnew =>
    obtain ⟨s, hs⟩ := h.nested.1.exists_scope (List.mem_cons_self ..)
    rw [Graph.variableIn?_declare hs, if_pos ⟨rfl, rfl, by simpa using hnew⟩]
    rfl

theorem isSome_declared (h : Built (current :: outer) b.graph) (hr : r ∈ b.reactive)
    (hscope : r.scope = current) : ((b.declared current).variableIn? current r.name).isSome := by
  have hall : ∀ q ∈ b.reactive.filter (·.scope == current), q.scope = current := fun q hq =>
    beq_iff_eq.mp (List.mem_filter.mp hq).2
  have hmem : r ∈ b.reactive.filter (·.scope == current) :=
    List.mem_filter.mpr ⟨hr, beq_iff_eq.mpr hscope⟩
  obtain ⟨earlier, later, hsplit⟩ := List.append_of_mem hmem
  rw [hsplit] at hall
  rw [Building.declared, hsplit, List.foldl_append, List.foldl_cons]
  obtain ⟨hbuilt, -⟩ := @alters_foldl_declareIn _ (fun _ => False) _ _ earlier h
    fun q hq => hall q (List.mem_append_left _ hq)
  obtain ⟨hbuilt', -⟩ := @alters_foldl_declareIn _ (fun _ => False) _ _ [r] hbuilt
    fun q hq => List.mem_singleton.mp hq ▸ hscope
  obtain ⟨-, halters⟩ := @alters_foldl_declareIn _ (fun _ => False) _ _ later hbuilt'
    fun q hq => hall q (List.mem_append_right _ (List.mem_cons_of_mem _ hq))
  exact halters.isSome_variableIn? (isSome_declareIn hbuilt hscope)

theorem Within.isSome_left (hb : Within current outer kind b.graph)
    (hclose : closeScope current b = .ok ((), closed)) (hfinish : Finish current closed kind b')
    (hr : r ∈ b.reactive) (hscope : r.scope = current) :
    (b'.graph.variableIn? current r.name).isSome := by
  obtain ⟨hbuilt, halters⟩ := alters_closeScope hb.built hclose
  have hclosed : (closed.graph.variableIn? current r.name).isSome := by
    rw [eq_of_closeScope hclose]
    exact (Evolves.close (@alters_declared (fun _ => False) _ _ _ hb.built).1).isSome_variableIn?
      (isSome_declared hb.built hr hscope)
  cases hfinish with
  | stay => exact hclosed
  | mark context index =>
    exact (Alters.markIndex hbuilt (halters.kindAt? hb.kind) context index).2.isSome_variableIn? hclosed

theorem Ends.isSome_reactive (h : Ends g current outer b) (hr : r ∈ b.reactive)
    (hscope : r.scope ∈ current :: outer) : (g.variableIn? r.scope r.name).isSome := by
  induction h with
  | last hb hclose hg =>
    have hsame := List.mem_singleton.mp hscope
    rw [hsame, ← hg]
    exact hb.isSome_left hclose (.stay _) hr hsame
  | run hb h _ ih => exact ih (h.mem_reactive hb hr (hb.lt hscope)) hscope
  | @leave current _ _ _ _ _ _ hb hclose hfinish h ih =>
    by_cases hcurrent : r.scope = current
    · rw [hcurrent]
      exact h.evolves.isSome_variableIn? (hb.isSome_left hclose hfinish hr hcurrent)
    · refine ih (hfinish.reactive_eq ▸ mem_reactive_closeScope hclose hr hcurrent) ?_
      exact (List.mem_cons.mp hscope).resolve_left hcurrent

end Queue

def Graph.Lone (g : Graph) (opens : List ScopeId) : Prop :=
  ∀ v w, g.variableAt? v = some w → (∀ d ∈ w.definitions, d.kind ≠ .reactive) ∨
    ∃ d, w.definitions = [d] ∧ w.scope ∉ opens

section Lone

variable {current : ScopeId} {outer opens : List ScopeId} {kind : ScopeKind} {b b' closed : Building}
  {g g' : Graph}

theorem Graph.Lone.congr (h : g.Lone opens)
    (hvars : ∀ v w', g'.variableAt? v = some w' →
      ∃ w, g.variableAt? v = some w ∧ w'.scope = w.scope ∧ w'.definitions = w.definitions) :
    g'.Lone opens := by
  intro v w' hw'
  obtain ⟨w, hw, hscope, hdefinitions⟩ := hvars v w' hw'
  rw [hscope, hdefinitions]
  exact h v w hw

theorem Graph.Lone.declare {scope d} (h : g.Lone opens) (hg : Built opens g)
    (hscope : scope ∈ opens) (name : String) (hway : d.kind ≠ .reactive) :
    (g.declare scope name d).2.Lone opens := by
  intro v w' hw'
  rw [Graph.variableAt?_declare] at hw'
  split at hw'
  · split at hw'
    · cases hw'
      refine .inl fun e he => ?_
      rwa [List.mem_singleton.mp he]
    · exact h v w' hw'
  · next u hu =>
    obtain ⟨w, hw, rfl⟩ := Option.map_eq_some_iff.mp hw'
    by_cases huv : v = u
    · obtain ⟨w₀, hw₀, -, hscope₀⟩ := hg.registered.1 _ _ _ hu
      rw [huv] at hw
      cases hw.symm.trans hw₀
      rw [if_pos huv]
      refine .inl fun e he => ?_
      rcases List.mem_append.mp he with he | he
      · rcases h u w hw with hall | ⟨_, -, hclosed⟩
        · exact hall e he
        · exact absurd (hscope₀ ▸ hscope) hclosed
      · rwa [List.mem_singleton.mp he]
    · rw [if_neg huv]
      exact h v w hw

/-- A target is declared only if its scope does not have the name. -/
theorem Graph.Lone.declareIn {r : Reactive} (h : g.Lone opens) (hscope : r.scope ∉ opens) :
    (r.declareIn g).Lone opens := by
  unfold Reactive.declareIn
  split
  · exact h
  · next hnew =>
    intro v w' hw'
    have hnone : g.variableIn? r.scope r.name = none := by simpa using hnew
    rw [Graph.variableAt?_declare, hnone] at hw'
    dsimp only at hw'
    split at hw'
    · cases hw'
      exact .inr ⟨_, rfl, hscope⟩
    · exact h v w' hw'

theorem Graph.Lone.foldl_declareIn {rs : List Reactive} (h : g.Lone opens)
    (hrs : ∀ r ∈ rs, r.scope ∉ opens) : (rs.foldl Reactive.declareIn g).Lone opens := by
  induction rs generalizing g with
  | nil => exact h
  | cons r rs ih =>
    exact ih (h.declareIn (hrs r (List.mem_cons_self ..))) fun q hq => hrs q (List.mem_cons_of_mem _ hq)

theorem Within.lone_left (hb : Within current outer kind b.graph)
    (hclose : closeScope current b = .ok ((), closed)) (hfinish : Finish current closed kind b')
    (h : b.graph.Lone (current :: outer)) : b'.graph.Lone outer := by
  have hclosed : closed.graph.Lone outer := by
    obtain ⟨hbuilt, -⟩ := @alters_declared (fun _ => False) _ _ _ hb.built
    obtain ⟨s, hs⟩ := hbuilt.nested.1.exists_scope (List.mem_cons_self ..)
    have hcurrent : current ∉ outer := fun hm => Nat.lt_irrefl _ (hbuilt.nested.1.lt hbuilt.nested.2 hm)
    have houter : b.graph.Lone outer := by
      refine fun v w hw => (h v w hw).imp_right fun hone => ?_
      obtain ⟨d, hd, hscope⟩ := hone
      exact ⟨d, hd, fun hm => hscope (List.mem_cons_of_mem _ hm)⟩
    have hdeclared : (b.declared current).Lone outer := houter.foldl_declareIn fun r hr => by
      rwa [beq_iff_eq.mp (List.mem_filter.mp hr).2]
    rw [eq_of_closeScope hclose]
    refine hdeclared.congr fun v w' hw' => ?_
    rw [Graph.variableAt?_close hs] at hw'
    obtain ⟨w, hw, rfl⟩ := Option.map_eq_some_iff.mp hw'
    exact ⟨w, hw, rfl, rfl⟩
  cases hfinish with
  | stay => exact hclosed
  | mark context index =>
    refine hclosed.congr fun v w' hw' => ?_
    unfold markIndex at hw'
    split at hw'
    · rw [variableAt?_foldl_markUsed] at hw'
      obtain ⟨w, hw, rfl⟩ := Option.map_eq_some_iff.mp hw'
      refine ⟨w, hw, ?_⟩
      split
      · exact ⟨rfl, rfl⟩
      · exact ⟨rfl, rfl⟩
    · exact ⟨w', hw', rfl, rfl⟩

theorem Runs.lone (h : Runs current outer kind b b') (hb : Within current outer kind b.graph)
    (hlone : b.graph.Lone (current :: outer)) : b'.graph.Lone (current :: outer) := by
  induction h with
  | step h =>
    cases h with
    | declare name hscope hway => exact hlone.declare hb.built hscope name hway
    | refer => exact hlone.congr fun v w hw => ⟨w, by simpa using hw, rfl, rfl⟩
    | _ => exact hlone
  | trans h _ ih ih' => exact ih' (h.grows hb).1 (ih hb hlone)
  | @inScope _ _ _ kind' block b _ _ _ _ h hclose hfinish ih =>
    have hopened := hb.opened kind' block
    refine (h.grows hopened).1.lone_left hclose hfinish (ih hopened fun v w hw => ?_)
    have hold : b.graph.variableAt? v = some w := (Graph.variableAt?_pushScope ..).symm.trans hw
    refine (hlone v w hold).imp_right fun hone => ?_
    obtain ⟨d, hd, hscope⟩ := hone
    refine ⟨d, hd, fun hm => hscope ((List.mem_cons.mp hm).resolve_left ?_)⟩
    exact Nat.ne_of_lt (hb.built.tabled.scope_lt hold)

theorem Ends.lone (h : Ends g current outer b) (hlone : b.graph.Lone (current :: outer)) :
    g.Lone [] := by
  induction h with
  | last hb hclose hg => exact hg ▸ hb.lone_left hclose (.stay _) hlone
  | run hb h _ ih => exact ih (h.lone hb hlone)
  | leave hb hclose hfinish _ ih => exact ih (hb.lone_left hclose hfinish hlone)

end Lone

section Analyze

variable {options : Options} {program : Node} {g : Graph} {site : Site} {name : String}

theorem lone_of_analyze (h : analyze options program = .ok g) : g.Lone [] := by
  obtain ⟨b, -, hruns, hends, -⟩ := run_of_analyze h
  refine hends.lone (hruns.lone (within_rootGraph program) fun v w hw => ?_)
  rw [rootGraph, Graph.variableAt?_pushScope] at hw
  simp [Graph.variableAt?] at hw

theorem isSome_of_labeled (h : analyze options program = .ok g) (hsite : Visited options program site)
    (hkind : site.node.kind = "LabeledStatement")
    (htarget : (reactiveTarget? site.node).bind Node.identifier? = some name) :
    (g.variableIn? site.scope name).isSome := by
  obtain ⟨outer, kind, after, hb, hwalk, hends⟩ := hsite.ends h
  obtain ⟨target, hreactive, hname⟩ := Option.bind_eq_some_iff.mp htarget
  rw [visit_eq hb] at hwalk
  simp only [visitRule, hkind, visitLabeled, hreactive, hname] at hwalk
  obtain ⟨_, _, hread, hwalk⟩ := walk_bind_eq_ok.mp hwalk
  cases hread
  obtain ⟨_, queued, hqueue, hwalk⟩ := walk_bind_eq_ok.mp hwalk
  cases hqueue
  have hwalks : Walks False site.scope outer kind (visitField visit site.node "body") :=
    Adds.walks_forM (fun _ => walks_visit False.elim) _
  let r : Reactive := ⟨site.scope, name, target.start, target.stop⟩
  have hruns := (hwalks { site.before with reactive := site.before.reactive ++ [r] } hb).1 () after hwalk
  have hmem : r ∈ after.reactive := hruns.mem_reactive hb
    (List.mem_append_right _ (List.mem_singleton_self r)) (hb.lt (List.mem_cons_self ..))
  exact hends.isSome_reactive hmem (List.mem_cons_self ..)

/-- The target of a reactive assignment is in the scope of the assignment. A variable with a definition
by one has no other definition, and no node that is walked declares it in another way: neither in its
place nor, as `var` does, from a scope inside. -/
theorem reactive_declared_once (h : analyze options program = .ok g) :
    (∀ site name, Visited options program site → site.node.kind = "LabeledStatement" →
      (reactiveTarget? site.node).bind Node.identifier? = some name →
      (g.variableIn? site.scope name).isSome) ∧
    ∀ v w d, g.variableAt? v = some w → d ∈ w.definitions → d.kind = .reactive →
      w.definitions = [d] ∧
      ∀ site after, Visited options program site →
        visit site.node site.scope site.before = .ok ((), after) →
        ¬after.graph.Defines w.scope w.name ∧
        (site.node.Declares w.name → site.node.kind ≠ "ExportNamedDeclaration" →
          declaringScope site.before.graph site.node site.scope ≠ w.scope) := by
  refine ⟨fun _ _ hsite hkind htarget => isSome_of_labeled h hsite hkind htarget,
    fun v w d hw hd hway => ?_⟩
  have hone : w.definitions = [d] := by
    rcases lone_of_analyze h v w hw with hall | ⟨e, he, -⟩
    · exact absurd hway (hall d hd)
    · rw [he] at hd ⊢
      rw [List.mem_singleton.mp hd]
  refine ⟨hone, fun site after hsite hwalk => ?_⟩
  obtain ⟨outer, kind, after', hb, hwalk', hends⟩ := hsite.ends h
  cases hwalk'.symm.trans hwalk
  have hdefines : ¬after.graph.Defines w.scope w.name := by
    intro hdefines
    obtain ⟨u, w', hu, hw', e, he, hordinary⟩ := hends.evolves.defines hdefines
    cases ((built_of_analyze h).tabled.located v w hw).symm.trans hu
    cases hw.symm.trans hw'
    rw [hone] at he
    exact hordinary (List.mem_singleton.mp he ▸ hway)
  refine ⟨hdefines, fun hdeclares hexport hscope => hdefines ?_⟩
  rw [visit_eq hb] at hwalk
  rw [← hscope]
  exact defines_of_visitRule (fun _ => walks_visit False.elim) hdeclares hexport hb hwalk

/-- Two reactive assignments to one name, and one to a name that `var` declares in a block after it: the
first name has the definition of its first assignment, the second one that of the `var`. -/
theorem reactive_declared_once_hoisted :
    let name (name : String) (start : Nat) : Node :=
      { kind := "Identifier", start, stop := start + 1, fields := [("name", .string name)] }
    let around (kind : String) (key : String) (n : Node) : Node :=
      { kind, start := n.start, stop := n.stop, fields := [(key, n)] }
    let assignment (target : String) (start : Nat) : Node :=
      { kind := "AssignmentExpression", start, stop := start + 2,
        fields := [("operator", .string "="), ("left", name target start), ("right", name "x" (start + 1))] }
    let reactive (target : String) (start : Nat) : Node :=
      { kind := "LabeledStatement", start, stop := start + 3,
        fields := [("label", name "$" start),
          ("body", around "ExpressionStatement" "expression" (assignment target (start + 1)))] }
    let hoisted : Node :=
      { kind := "VariableDeclaration", start := 9, stop := 10, fields := [("kind", .string "var"),
          ("declarations", [around "VariableDeclarator" "id" (name "b" 9)])] }
    let program : Node :=
      { kind := "Program", start := 0, stop := 10, fields := [("body",
          [reactive "a" 0, reactive "b" 3, reactive "a" 6, around "BlockStatement" "body" hoisted])] }
    ∃ g w, analyze {} program = .ok g ∧ g.variableAt? 1 = some w ∧ w.name = "a" ∧
      g.vars.map (fun w => (w.name, w.definitions.map (·.kind))) =
        [("b", [.variableName]), ("a", [.reactive])] ∧
      w.definitions = [⟨.reactive, 1, 2, "LabeledStatement"⟩] ∧
      ∀ site after, Visited {} program site → visit site.node site.scope site.before = .ok ((), after) →
        ¬after.graph.Defines w.scope "a" := by
  intro name around assignment reactive hoisted program
  have hrun : (analyze {} program).toOption.map (fun g =>
      (g.vars.map (fun w => (w.name, w.definitions.map (·.kind))),
        (g.variableAt? 1).map fun w => (w.name, w.definitions))) =
      some ([("b", [.variableName]), ("a", [.reactive])],
        some ("a", [⟨.reactive, 1, 2, "LabeledStatement"⟩])) := by
    decide +kernel
  obtain ⟨g, hg, hrun⟩ := Option.map_eq_some_iff.mp hrun
  obtain ⟨hvars, hrun⟩ := Prod.mk.inj hrun
  obtain ⟨w, hw, hrun⟩ := Option.map_eq_some_iff.mp hrun
  obtain ⟨hname, hdefinitions⟩ := Prod.mk.inj hrun
  rw [toOption_eq_some] at hg
  obtain ⟨hone, hsites⟩ := (reactive_declared_once hg).2 1 w ⟨.reactive, 1, 2, "LabeledStatement"⟩ hw
    (hdefinitions ▸ List.mem_singleton_self _) rfl
  refine ⟨g, w, hg, hw, hname, hvars, hone, fun site after hsite hwalk => ?_⟩
  rw [← hname]
  exact (hsites site after hsite hwalk).1

end Analyze

end SvelteSyntax.Scoping
