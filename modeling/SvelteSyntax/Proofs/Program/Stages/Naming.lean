import SvelteSyntax.Proofs.Program.Stages

namespace SvelteSyntax

open Run

variable {c m n : Node} {key field : String} {s : Stage} {v : Value}

namespace Program

section Drafts

variable {s : Stage} {kind key : String} {n : Node} {v : Value}

theorem Formed.get?_of_hasChild (h : Formed s n) (hc : n.HasChild c) :
    ∃ key v, n.get? key = some v ∧ v.Holds c := by
  obtain ⟨key, v, hmem, hv⟩ := hc
  exact ⟨key, v, Fields.get?_of_mem h.names hmem, hv⟩

theorem Formed.set (h : Formed .drafted n) (hv : Fits .drafted n.kind key v)
    (hdeclares : Declares .drafted (n.set key v)) : Formed .drafted (n.set key v) where
  placeholder := h.placeholder
  kind := h.kind
  inner := h.inner
  names := Fields.nodup_names_set h.names
  fields := fun other u hu => by
    by_cases hother : other = key
    · rw [hother, Node.get?_set_self] at hu
      cases hu
      exact hother ▸ hv
    · rw [Node.get?_set_of_ne hother] at hu
      exact h.fields other u hu
  present := fun hs => absurd rfl hs
  bound := fun hs => absurd rfl hs
  declares := hdeclares

theorem Declares.set_node (h : Declares s n) (key : String) (c : Node) :
    Declares s (n.set key (.node c)) := by
  have hnode : ∀ other, (∃ d, n.get? other = some (.node d)) →
      ∃ d, (n.set key (.node c)).get? other = some (.node d) := by
    rintro other ⟨d, hd⟩
    by_cases hother : other = key
    · exact ⟨c, hother ▸ Node.get?_set_self ..⟩
    · exact ⟨d, (Node.get?_set_of_ne hother ..).trans hd⟩
  refine ⟨fun he => hnode _ (h.context he), fun he => ?_⟩
  rcases h.target he with ⟨other, hother, hd⟩ | ⟨hs, hnull, hname⟩
  · exact .inl ⟨other, hother, hnode other hd⟩
  · by_cases hkey : key ∈ ["expression", "name"]
    · exact .inl ⟨key, hkey, c, Node.get?_set_self ..⟩
    · simp only [List.mem_cons, List.not_mem_nil, or_false, not_or] at hkey
      rw [Node.get?_set_of_ne (Ne.symm hkey.1), Node.get?_set_of_ne (Ne.symm hkey.2)]
      exact .inr ⟨hs, hnull, hname⟩

theorem Leaf.advance (h : Leaf .drafted kind key c) : Leaf .named kind key c := by
  cases h with
  | pending _ hslot h => exact .pending (by decide) hslot h
  | scripted h => exact .scripted h

theorem mem_declaredFields_of_awaitBindings (h : (kind, key) ∈ awaitBindings) :
    (kind, key) ∈ declaredFields := by
  simp [declaredFields, h]

theorem mem_declaredFields_of_sectionBindings (h : (kind, key) ∈ sectionBindings) :
    (kind, key) ∈ declaredFields := by
  simp [declaredFields, h]

theorem Fits.advance (h : Fits .drafted kind key v) (hkey : (kind, key) ∉ declaredFields) :
    Fits .named kind key v := by
  cases h with
  | bare hother h => exact .bare hother h
  | name _ h => exact absurd h hkey
  | pattern _ h | unboundYet _ h => exact absurd (mem_declaredFields_of_awaitBindings h) hkey
  | unbound h => exact absurd (mem_declaredFields_of_sectionBindings h) hkey
  | script hscript h => exact .script hscript h.advance
  | scripts hscript hother h => exact .scripts hscript hother fun c hc => (h c hc).advance
  | child h => exact .child h
  | children hwalked hother h => exact .children hwalked hother h

theorem Formed.advance (h : Formed .drafted n)
    (hdeclared : ∀ key v, (n.kind, key) ∈ declaredFields → n.get? key = some v →
      Fits .named n.kind key v)
    (hpresent : n.kind ∈ sectionKinds → n.flag "skip" = false)
    (hbound : ∀ key, (n.kind, key) ∈ sectionBindings → n.has key) (hdeclares : Declares .named n) :
    Formed .named n where
  placeholder := h.placeholder
  kind := h.kind
  inner := h.inner
  names := h.names
  fields := fun key v hv => by
    by_cases hkey : (n.kind, key) ∈ declaredFields
    · exact hdeclared key v hkey hv
    · exact (h.fields key v hv).advance hkey
  present := fun _ => hpresent
  bound := fun _ => hbound
  declares := hdeclares

theorem Formed.advance_of_other (h : Formed .drafted n) (heach : n.kind ≠ "EachBlock")
    (hawait : n.kind ≠ "AwaitBlock") (hsection : n.kind ∉ sectionKinds)
    (hdeclares : Declares .named n) : Formed .named n := by
  have hdeclared : ∀ field ∈ declaredFields,
      field.1 = "EachBlock" ∨ field.1 = "AwaitBlock" ∨ field.1 ∈ sectionKinds := by decide
  have hbinding : ∀ field ∈ sectionBindings, field.1 ∈ sectionKinds := by decide
  refine h.advance (fun key v hkey _ => ?_) (fun h => absurd h hsection)
    (fun key hkey => absurd (hbinding _ hkey) hsection) hdeclares
  rcases hdeclared _ hkey with h | h | h
  · exact absurd h heach
  · exact absurd h hawait
  · exact absurd h hsection

theorem sectionKinds_subset {kind : String} (h : kind ∈ sectionKinds) : kind ∈ markupKinds := by
  have hall : ∀ kind ∈ sectionKinds, kind ∈ markupKinds := by decide
  exact hall kind h

theorem Leaf.not_markup (h : Leaf s kind key c) : c.kind ∉ markupKinds := by
  cases h with
  | pending _ _ h => exact h.kind
  | scripted h => exact (scripted_iff.mp h).1.2

theorem Fits.of_section (h : Fits s kind key v) (hc : v.Holds c) (hsection : c.kind ∈ sectionKinds) :
    v = .node c ∧ (kind, key, c.kind) ∈ branchFields := by
  have hmarkup := sectionKinds_subset hsection
  cases h with
  | bare _ h => exact absurd hc (h c)
  | name | unboundYet | unbound => simp at hc
  | pattern _ _ h =>
    rw [Value.holds_node] at hc
    exact absurd (hc ▸ hmarkup) h.kind
  | script _ h =>
    rw [Value.holds_node] at hc
    exact absurd (hc ▸ hmarkup) h.not_markup
  | scripts _ _ h =>
    rw [Value.holds_nodes] at hc
    exact absurd hmarkup (h c hc).not_markup
  | child hkey =>
    rw [Value.holds_node] at hc
    subst hc
    exact ⟨rfl, hkey⟩
  | children _ _ h =>
    rw [Value.holds_nodes] at hc
    exact absurd (List.mem_cons_of_mem _ hsection) (h c hc).2

theorem Formed.child_kind (h : Formed s n) (hawait : n.kind ≠ "AwaitBlock") (hc : n.HasChild c) :
    c.kind ∉ sectionKinds := by
  obtain ⟨key, v, hv, hc⟩ := h.get?_of_hasChild hc
  intro hsection
  have hall : ∀ field ∈ branchFields, field.1 ≠ "AwaitBlock" → field.2.2 ∉ sectionKinds := by decide
  exact hall _ ((h.fields key v hv).of_section hc hsection).2 hawait hsection

end Drafts

structure Redrafted (n n' : Node) : Prop where
  formed : Formed .drafted n'
  kind : n'.kind = n.kind
  children : ∀ c, n'.HasChild c → n.HasChild c ∨ Pending c ∨ Scripted c

theorem Redrafted.refl (h : Formed .drafted n) : Redrafted n n :=
  ⟨h, rfl, fun _ => .inl⟩

theorem Redrafted.trans {a b} (h : Redrafted a b) (h' : Redrafted b c) : Redrafted a c :=
  ⟨h'.formed, h'.kind.trans h.kind, fun d hd => (h'.children d hd).elim (h.children d) .inr⟩

theorem Redrafted.set (h : Formed .drafted n) (hkey : (n.kind, key) ∈ scriptFields)
    (hc : Leaf .drafted n.kind key c) :
    Redrafted n (n.set key (.node c)) where
  formed := h.set (.script hkey hc) (h.declares.set_node key c)
  kind := rfl
  children := fun d hd => by
    rcases Fields.hold_set hd with hd | hd
    · rw [Value.holds_node] at hd
      cases hc with
      | pending _ _ h => exact .inr (.inl (hd ▸ h))
      | scripted h => exact .inr (.inr (hd ▸ h))
    · exact .inl hd

section Names

variable {n n' : Node}

theorem Expanded.redrafted (h : Expanded field n n') (hn : Formed .drafted n)
    (hfield : (n.kind, field) ∈ nameFields) :
    Redrafted n n' ∧ (∀ name, n'.get? field ≠ some (.string name)) ∧
      ∀ key, key ≠ field → n'.get? key = n.get? key := by
  cases h with
  | name name start stop =>
    refine ⟨.set hn (List.mem_append_right _ hfield) (.scripted (scripted_identifierNode _ _ _)),
      fun other hother => ?_, fun key hkey => Node.get?_set_of_ne hkey ..⟩
    rw [Node.get?_set_self] at hother
    cases hother
  | same hnone => exact ⟨.refl hn, hnone, fun _ _ => rfl⟩

theorem Expanded.declares (h : Expanded "name" n n') (hn : Formed .drafted n)
    (heach : n.kind ≠ "EachBlock") : Declares .named n' := by
  refine ⟨fun he => absurd (h.samePlace.kind ▸ he) heach, fun he => .inl ?_⟩
  rw [h.samePlace.kind] at he
  cases h with
  | name name start stop => exact ⟨"name", by simp, _, Node.get?_set_self ..⟩
  | same hnone =>
    rcases hn.declares.target he with hnode | ⟨-, -, name, hname⟩
    · exact hnode
    · exact absurd hname (hnone name)

theorem Leaf.withStop {kind : String} (h : Leaf s kind key c) (stop : Nat) :
    Leaf s kind key { c with stop } := by
  cases h with
  | pending hs hslot h => exact .pending hs hslot ⟨h.placeholder, h.fields, h.kind⟩
  | scripted h => exact .scripted (h.congr rfl rfl rfl)

theorem Formed.leaf (h : Formed s n) (hdeclared : (n.kind, key) ∉ declaredFields)
    (hbranch : ∀ kind, (n.kind, key, kind) ∉ branchFields) (hc : n.get? key = some (.node c)) :
    Leaf s n.kind key c := by
  cases h.fields key _ hc with
  | bare _ h => exact absurd .node (h c)
  | pattern _ h => exact absurd (mem_declaredFields_of_awaitBindings h) hdeclared
  | script _ h => exact h
  | child h => exact absurd h (hbranch _)

theorem Node.get?_of_child? (h : n.child? key = some c) :
    n.get? key = some (.node c) := by
  obtain ⟨v, hget, hv⟩ := Option.bind_eq_some_iff.mp h
  cases v with
  | node m =>
    cases hv
    exact hget
  | _ => cases hv

theorem Redrafted.withStop {e} (hn : Formed .drafted n)
    (hkind : n.kind ∈ ["Binding", "Class", "EventHandler"]) (he : n.child? "expression" = some e)
    (stop : Nat) : Redrafted n (n.set "expression" (.node { e with stop })) := by
  have hfield : ∀ kind ∈ ["Binding", "Class", "EventHandler"], (kind, "expression") ∈ scriptFields ∧
      (kind, "expression") ∉ declaredFields ∧
      ∀ field ∈ branchFields, (field.1, field.2.1) ≠ (kind, "expression") := by decide
  obtain ⟨hscript, hdeclared, hbranch⟩ := hfield _ hkind
  have hleaf := hn.leaf hdeclared (fun other hother => hbranch _ hother rfl) (Node.get?_of_child? he)
  exact .set hn hscript (hleaf.withStop _)

theorem Redrafted.each (hn : Formed .drafted n) (hkind : n.kind = "EachBlock")
    (hm : Expanded "index" n m) (h : Expanded "key" m n') :
    Redrafted n n' ∧ ∀ key ∈ ["index", "key"], ∀ name, n'.get? key ≠ some (.string name) := by
  have hfield : ∀ key ∈ ["index", "key"], ("EachBlock", key) ∈ nameFields := by decide
  obtain ⟨hredrafted, hindex, -⟩ := hm.redrafted hn (hkind ▸ hfield "index" (by decide))
  obtain ⟨hredrafted', hkey, hsame⟩ := h.redrafted hredrafted.formed
    ((hredrafted.kind.trans hkind).symm ▸ hfield "key" (by decide))
  refine ⟨hredrafted.trans hredrafted', fun key hmem => ?_⟩
  simp only [List.mem_cons, List.not_mem_nil, or_false] at hmem
  rcases hmem with rfl | rfl
  · rw [hsame "index" (by decide)]
    exact hindex
  · exact hkey

theorem Formed.advance_each (h : Formed .drafted n) (hkind : n.kind = "EachBlock")
    (hnames : ∀ key ∈ ["index", "key"], ∀ name, n.get? key ≠ some (.string name)) :
    Formed .named n := by
  have hdeclared : ∀ field ∈ declaredFields, field.1 = "EachBlock" →
      field.2 ∈ ["index", "key"] ∧ field ∉ awaitBindings ∧ field ∉ sectionBindings := by decide
  have hsection : "EachBlock" ∉ sectionKinds := by decide
  have hbindings : ∀ field ∈ sectionBindings, field.1 ≠ "EachBlock" := by decide
  refine h.advance (fun key v hkey hv => ?_) (fun h => absurd (hkind ▸ h) hsection)
    (fun key hkey => absurd hkind (hbindings _ hkey))
    ⟨h.declares.context, fun he => absurd (hkind.symm.trans he) (by decide)⟩
  obtain ⟨hmem, hawait, hbinding⟩ := hdeclared _ hkey hkind
  cases h.fields key v hv with
  | bare hother | scripts _ hother | children _ hother => exact absurd hkey hother
  | name => exact absurd hv (hnames key hmem _)
  | pattern _ h | unboundYet _ h => exact absurd h hawait
  | unbound h => exact absurd h hbinding
  | script hscript h => exact .script hscript h.advance
  | child h => exact .child h

end Names

/-- What the walk through a draft meets with so much depth left. -/
inductive Ready : Nat → Node → Prop
  | pending {d : Nat} {n : Node} (h : Pending n) : Ready d n
  | scripted {d : Nat} {n : Node} (h : Scripted n) : Ready d n
  | draft {d : Nat} {n : Node} (h : Staged .drafted n) (hkind : n.kind ∉ sectionKinds)
      (hdepth : n.depth ≤ d) : Ready d n
  /-- A section that has got its form from its block. -/
  | moved {d : Nat} {n : Node} (h : Formed .named n) (hkind : n.kind ∈ sectionKinds)
      (hchildren : ∀ c, n.HasChild c → Ready d c) : Ready (d + 1) n

/-- What a section may bind. -/
inductive Bindable : Value → Prop
  | nothing : Bindable .null
  | pattern {c : Node} (h : Pending c) : Bindable (.node c)
  | name {c : Node} (h : Scripted c) : Bindable (.node c)

section Await

variable {n n' inner : Node} {d : Nat}

theorem Staged.formed (h : Staged s n) (hkind : n.kind ∈ markupKinds) :
    Formed s n ∧ ∀ c, n.HasChild c → Staged s c := by
  cases h with
  | pending _ h => exact absurd hkind h.kind
  | scripted h => exact absurd hkind (scripted_iff.mp h).1.2
  | markup h hchildren => exact ⟨h, hchildren⟩

theorem Redrafted.ready (h : Redrafted inner n) (hchildren : ∀ c, inner.HasChild c → Staged .drafted c)
    (hinner : Formed .drafted inner) (hdepth : inner.depth ≤ d) (hkind : inner.kind ∈ sectionKinds)
    (hskip : n.flag "skip" = false)
    (hbindings : ∀ key, (inner.kind, key) ∈ declaredFields → ∃ v, n.get? key = some v ∧ Bindable v) :
    Ready d n := by
  obtain ⟨d, rfl⟩ : ∃ e, d = e + 1 := Nat.exists_eq_add_one.mpr (Nat.lt_of_lt_of_le inner.depth_pos hdepth)
  have hawait : inner.kind ≠ "AwaitBlock" := by
    have hall : ∀ kind ∈ sectionKinds, kind ≠ "AwaitBlock" := by decide
    exact hall _ hkind
  have hfields : ∀ field ∈ declaredFields, field.1 ∈ sectionKinds → field ∈ sectionBindings ∧
      field ∈ scriptFields ∧ (slot? ⟨field.1, field.2⟩).isSome := by decide
  have hquiet : n.kind ∉ declaringKinds := by
    have hall : ∀ kind ∈ sectionKinds, kind ∉ declaringKinds := by decide
    exact hall _ (h.kind ▸ hkind)
  refine .moved (h.formed.advance (fun key v hkey hv => ?_) (fun _ => hskip) (fun key hkey => ?_)
    (.of_other hquiet)) (h.kind ▸ hkind) fun c hc => ?_
  · rw [h.kind] at hkey ⊢
    obtain ⟨hbinding, hscript, hslot⟩ := hfields _ hkey hkind
    obtain ⟨w, hw, hbindable⟩ := hbindings key hkey
    rw [hv] at hw
    cases hw
    cases hbindable with
    | nothing => exact .unbound hbinding
    | pattern h => exact .script hscript (.pending (by decide) hslot h)
    | name h => exact .script hscript (.scripted h)
  · rw [h.kind] at hkey
    obtain ⟨w, hw, -⟩ := hbindings key (mem_declaredFields_of_sectionBindings hkey)
    rw [Node.has, hw]
    rfl
  · rcases h.children c hc with hc | hpending | hscripted
    · have hlt := Node.depth_lt_of_hasChild hc
      exact .draft (hchildren c hc) (hinner.child_kind hawait hc) (by omega)
    · exact .pending hpending
    · exact .scripted hscripted

theorem Redrafted.bind {binding : String} {w} (h : Formed .drafted inner)
    (hbinding : (inner.kind, binding) ∈ sectionBindings) (hw : Bindable w) :
    Redrafted inner (inner.set binding w) := by
  have hfields : ∀ field ∈ sectionBindings, field ∈ scriptFields ∧
      (slot? ⟨field.1, field.2⟩).isSome := by decide
  obtain ⟨hscript, hslot⟩ := hfields _ hbinding
  cases hw with
  | nothing =>
    have hquiet : ∀ field ∈ sectionBindings, field.1 ∉ declaringKinds := by decide
    refine ⟨h.set (.unbound hbinding) (.of_other (hquiet _ hbinding)), rfl, fun c hc => ?_⟩
    rcases Fields.hold_set hc with hc | hc
    · exact absurd hc (by simp)
    · exact .inl hc
  | pattern hc => exact .set h hscript (.pending (by decide) hslot hc)
  | name hc => exact .set h hscript (.scripted hc)

theorem of_get?_dropSkipped (hnames : n.fieldNames.Nodup) (h : (dropSkipped n field).get? key = some v) :
    n.get? key = some v ∧ (key = field → ∀ c, v = .node c → c.flag "skip" = false) := by
  unfold dropSkipped at h
  split at h
  · have hne : key ≠ field := by
      rintro rfl
      have hnone : (n.erase key).get? key = none := Fields.get?_erase_self hnames
      rw [hnone] at h
      cases h
    exact ⟨(Fields.get?_erase_of_ne hne n.fields).symm.trans h, fun he => absurd he hne⟩
  · rename_i hskip
    refine ⟨h, fun he c hc => ?_⟩
    have hchild : n.child? field = some c := by rw [Node.child?, ← he, h, hc]; rfl
    simpa [hchild] using hskip

theorem nodup_dropSkipped (hnames : n.fieldNames.Nodup) :
    (dropSkipped n field).fieldNames.Nodup := by
  unfold dropSkipped
  split
  · exact Fields.nodup_names_erase hnames
  · exact hnames

theorem of_get?_foldl_dropSkipped {fields : List String} (hnames : n.fieldNames.Nodup)
    (h : (fields.foldl dropSkipped n).get? key = some v) :
    n.get? key = some v ∧ (key ∈ fields → ∀ c, v = .node c → c.flag "skip" = false) := by
  induction fields generalizing n with
  | nil => exact ⟨h, fun hkey => nomatch hkey⟩
  | cons field fields ih =>
    obtain ⟨hget, hlater⟩ := ih (nodup_dropSkipped hnames) h
    obtain ⟨hget, hfirst⟩ := of_get?_dropSkipped hnames hget
    exact ⟨hget, fun hkey => (List.mem_cons.mp hkey).elim hfirst hlater⟩

theorem nodup_foldl_dropSkipped {fields : List String} (hnames : n.fieldNames.Nodup) :
    (fields.foldl dropSkipped n).fieldNames.Nodup := by
  induction fields generalizing n with
  | nil => exact hnames
  | cons field fields ih => exact ih (nodup_dropSkipped hnames)

variable {binding field : String}

theorem Fits.bindable (h : Fits .drafted "AwaitBlock" binding v)
    (hbinding : ("AwaitBlock", binding) ∈ awaitBindings) (hname : ∀ name, v ≠ .string name) :
    Bindable v := by
  have hfields : ∀ field ∈ awaitBindings, field ∉ scriptFields ∧ field ∉ sectionBindings ∧
      ∀ branch ∈ branchFields, (branch.1, branch.2.1) ≠ field := by decide
  obtain ⟨hscript, hsection, hbranch⟩ := hfields _ hbinding
  have hdeclared := mem_declaredFields_of_awaitBindings hbinding
  cases h with
  | bare hother | scripts _ hother | children _ hother => exact absurd hdeclared hother
  | name => exact absurd rfl (hname _)
  | pattern _ _ h => exact .pattern h
  | unboundYet => exact .nothing
  | unbound h => exact absurd h hsection
  | script h => exact absurd h hscript
  | child h => exact absurd rfl (hbranch _ h)

theorem of_get?_moveBinding (hnames : n.fieldNames.Nodup)
    (hbinding : ("AwaitBlock", binding) ∈ awaitBindings) (hne : field ≠ binding)
    (hfits : ∀ v, n.get? binding = some v → Fits .drafted "AwaitBlock" binding v)
    (h : BindingMoved binding field n n') :
    n'.fieldNames.Nodup ∧ ∀ key v, n'.get? key = some v → key ≠ binding ∧
      ((n.get? key = some v ∧ (key = field → ∀ c, v ≠ .node c)) ∨
        key = field ∧ ∃ inner w, n.get? field = some (.node inner) ∧
          v = .node (inner.set binding w) ∧ Bindable w) := by
  have hself : (n.erase binding).get? binding = none := Fields.get?_erase_self hnames
  have hother : ∀ key, key ≠ binding → (n.erase binding).get? key = n.get? key := fun key hkey =>
    Fields.get?_erase_of_ne hkey n.fields
  have herase : (n.erase binding).fieldNames.Nodup := Fields.nodup_names_erase hnames
  cases h with
  | dropped hnone =>
    refine ⟨herase, fun key v hv => ?_⟩
    have hkey : key ≠ binding := by
      rintro rfl
      rw [hself] at hv
      cases hv
    refine ⟨hkey, .inl ⟨hother key hkey ▸ hv, ?_⟩⟩
    rintro rfl c rfl
    rw [Node.child?, hv] at hnone
    cases hnone
  | @moved inner w hinner hw =>
    refine ⟨Fields.nodup_names_set herase, fun key v hv => ?_⟩
    by_cases hfield : key = field
    · rw [hfield, Node.get?_set_self] at hv
      refine ⟨hfield ▸ hne, .inr ⟨hfield, inner, w, ?_, (Option.some.inj hv).symm, ?_⟩⟩
      · exact hother field hne ▸ Node.get?_of_child? hinner
      · rcases hw with ⟨name, start, stop, rfl⟩ | ⟨hw, hname⟩
        · exact .name (scripted_identifierNode _ _ _)
        · cases hget : n.get? binding with
          | none =>
            rw [hw, hget]
            exact .nothing
          | some u =>
            rw [hget, Option.getD_some] at hw
            exact hw ▸ (hfits u hget).bindable hbinding (hw ▸ hname)
    · rw [Node.get?_set_of_ne hfield] at hv
      have hkey : key ≠ binding := by
        rintro rfl
        rw [hself] at hv
        cases hv
      exact ⟨hkey, .inl ⟨hother key hkey ▸ hv, fun he => absurd he hfield⟩⟩

theorem of_get?_nameAwait (hn : Formed .drafted n) (hkind : n.kind = "AwaitBlock")
    (hm : BindingMoved "value" "then" (["pending", "then", "catch"].foldl dropSkipped n) m)
    (h : BindingMoved "error" "catch" m n') :
    n'.fieldNames.Nodup ∧ ∀ key v, n'.get? key = some v → key ∉ ["value", "error"] ∧
      ((n.get? key = some v ∧ (key ∈ ["then", "catch"] → ∀ c, v ≠ .node c) ∧
          (key = "pending" → ∀ c, v = .node c → c.flag "skip" = false)) ∨
        ∃ binding inner w, (key, binding) ∈ [("then", "value"), ("catch", "error")] ∧
          n.get? key = some (.node inner) ∧ inner.flag "skip" = false ∧
          v = .node (inner.set binding w) ∧ Bindable w) := by
  have hfits : ∀ key v, n.get? key = some v → Fits .drafted "AwaitBlock" key v := fun key v hv =>
    hkind ▸ hn.fields key v hv
  obtain ⟨hnames₁, hget₁⟩ := of_get?_moveBinding (nodup_foldl_dropSkipped hn.names) (by decide)
    (by decide) (fun v hv => hfits _ v (of_get?_foldl_dropSkipped hn.names hv).1) hm
  have hfits₁ : ∀ v, m.get? "error" = some v → Fits .drafted "AwaitBlock" "error" v := by
    intro v hv
    obtain ⟨-, ⟨hv, -⟩ | ⟨he, -⟩⟩ := hget₁ _ v hv
    · exact hfits _ v (of_get?_foldl_dropSkipped hn.names hv).1
    · exact absurd he (by decide)
  obtain ⟨hnames₂, hget₂⟩ := of_get?_moveBinding hnames₁ (by decide) (by decide) hfits₁ h
  refine ⟨hnames₂, fun key v hv => ?_⟩
  obtain ⟨herror, ⟨hv, hcatch⟩ | ⟨rfl, inner, w, hinner, rfl, hw⟩⟩ := hget₂ key v hv
  · obtain ⟨hvalue, ⟨hv, hthen⟩ | ⟨rfl, inner, w, hinner, rfl, hw⟩⟩ := hget₁ key v hv
    · obtain ⟨hv, hskip⟩ := of_get?_foldl_dropSkipped hn.names hv
      refine ⟨by simp [hvalue, herror], .inl ⟨hv, fun hkey => ?_, fun hkey => hskip (by simp [hkey])⟩⟩
      simp only [List.mem_cons, List.not_mem_nil, or_false] at hkey
      exact hkey.elim hthen hcatch
    · obtain ⟨hinner, hskip⟩ := of_get?_foldl_dropSkipped hn.names hinner
      exact ⟨by decide, .inr ⟨"value", inner, w, by decide, hinner, hskip (by decide) _ rfl, rfl, hw⟩⟩
  · obtain ⟨-, ⟨hinner, -⟩ | ⟨he, -⟩⟩ := hget₁ _ _ hinner
    · obtain ⟨hinner, hskip⟩ := of_get?_foldl_dropSkipped hn.names hinner
      exact ⟨by decide, .inr ⟨"error", inner, w, by decide, hinner, hskip (by decide) _ rfl, rfl, hw⟩⟩
    · exact absurd he (by decide)

theorem Fits.section_kind (h : Fits s "AwaitBlock" key (.node c))
    (hkey : key ∈ ["pending", "then", "catch"]) :
    ("AwaitBlock", key, c.kind) ∈ branchFields := by
  have hfields : ∀ key ∈ ["pending", "then", "catch"], ("AwaitBlock", key) ∉ scriptFields ∧
      ("AwaitBlock", key) ∉ awaitBindings := by decide
  obtain ⟨hscript, hbinding⟩ := hfields key hkey
  cases h with
  | bare _ h => exact absurd .node (h c)
  | pattern _ h => exact absurd h hbinding
  | script h => exact absurd h hscript
  | child h => exact h

theorem ready_nameAwait (hn : Formed .drafted n) (hchildren : ∀ c, n.HasChild c → Staged .drafted c)
    (hkind : n.kind = "AwaitBlock") (hdepth : n.depth ≤ d + 1)
    (hm : BindingMoved "value" "then" (["pending", "then", "catch"].foldl dropSkipped n) m)
    (h : BindingMoved "error" "catch" m n') :
    Formed .named n' ∧ ∀ c, n'.HasChild c → Ready d c := by
  have hplace := (Named.await hkind hm h).samePlace
  obtain ⟨hnames, hget⟩ := of_get?_nameAwait hn hkind hm h
  have hfits : ∀ key v, n.get? key = some v → Fits .drafted "AwaitBlock" key v := fun key v hv =>
    hkind ▸ hn.fields key v hv
  have hkind' := hplace.kind.trans hkind
  have hbindings : ∀ pair ∈ [("then", "value"), ("catch", "error")],
      pair.1 ∈ ["pending", "then", "catch"] ∧ ∀ kind, ("AwaitBlock", pair.1, kind) ∈ branchFields →
        kind ∈ sectionKinds ∧ (kind, pair.2) ∈ sectionBindings ∧
          ∀ key, (kind, key) ∈ declaredFields → key = pair.2 := by
    simp only [branchFields, declaredFields, awaitBindings, sectionBindings, sectionKinds]
    intro pair hpair
    simp only [List.mem_cons, List.not_mem_nil, or_false] at hpair
    rcases hpair with rfl | rfl
    all_goals
      refine ⟨by decide, fun kind h => ?_⟩
      obtain rfl | rfl : kind = "ThenBlock" ∨ kind = "CatchBlock" := by
        simp at h
        simp [h]
      all_goals simp at h ⊢
  refine ⟨?_, fun c hc => ?_⟩
  · refine
      { placeholder := hplace.placeholder.trans hn.placeholder
        kind := hplace.kind ▸ hn.kind
        inner := hplace.kind ▸ hn.inner
        names := hnames
        fields := fun key v hv => ?_
        present := fun _ hsection => absurd (hkind' ▸ hsection) (by decide)
        bound := fun _ key hkey => ?_
        declares := .of_other (by rw [hkind']; decide) }
    · rw [hkind']
      obtain ⟨hkey, ⟨hv, -⟩ | ⟨binding, inner, w, hpair, hinner, -, rfl, -⟩⟩ := hget key v hv
      · refine (hfits key v hv).advance fun hdeclared => hkey ?_
        simpa [declaredFields, awaitBindings, sectionBindings] using hdeclared
      · exact .child ((hfits key _ hinner).section_kind (hbindings _ hpair).1)
    · have hall : ∀ field ∈ sectionBindings, field.1 ≠ "AwaitBlock" := by decide
      exact absurd hkind' (hall _ hkey)
  · obtain ⟨key, v, hmem, hc⟩ := hc
    obtain ⟨-, ⟨hv, hbound, hpending⟩ | ⟨binding, inner, w, hpair, hinner, hskip, rfl, hw⟩⟩ :=
      hget key v (Fields.get?_of_mem hnames hmem)
    · have hchild := Node.hasChild_of_get? hv hc
      have hlt := Node.depth_lt_of_hasChild hchild
      by_cases hsection : c.kind ∈ sectionKinds
      · obtain ⟨rfl, hbranch⟩ := (hfits key v hv).of_section hc hsection
        have hpendingField : ∀ field ∈ branchFields, field.1 = "AwaitBlock" →
            field.2.1 ∉ ["then", "catch"] → field.2.1 = "pending" ∧
              ∀ declared ∈ declaredFields, declared.1 ≠ field.2.2 := by decide
        obtain ⟨hkey, hnone⟩ := hpendingField _ hbranch rfl fun hkey => hbound hkey c rfl
        obtain ⟨hformed, hinside⟩ := (hchildren c hchild).formed (sectionKinds_subset hsection)
        exact (Redrafted.refl hformed).ready hinside hformed (by omega) hsection
          (hpending hkey c rfl) fun other hother => absurd rfl (hnone _ hother)
      · exact .draft (hchildren c hchild) hsection (by omega)
    · obtain ⟨hkey, hpairs⟩ := hbindings _ hpair
      obtain ⟨hsection, hbinding, hdeclared⟩ := hpairs _ ((hfits key _ hinner).section_kind hkey)
      have hchild := Node.hasChild_of_get? hinner .node
      have hlt := Node.depth_lt_of_hasChild hchild
      obtain ⟨hformed, hinside⟩ := (hchildren inner hchild).formed (sectionKinds_subset hsection)
      rw [Value.holds_node] at hc
      rw [hc]
      refine (Redrafted.bind hformed hbinding hw).ready hinside hformed (by omega) hsection ?_
        fun other hother => ?_
      · have hne : "skip" ≠ binding := by
          rintro rfl
          exact absurd hbinding (by simp [sectionBindings])
        rw [Node.flag, Node.get?_set_of_ne hne]
        exact hskip
      · rw [hdeclared other hother]
        exact ⟨w, Node.get?_set_self .., hw⟩

end Await

section Pass

variable {ctx : NameContext} {parent : Option Parent} {n n' : Node} {d : Nat}

theorem Named.ready (h : Named n n') (hn : Formed .drafted n)
    (hchildren : ∀ c, n.HasChild c → Staged .drafted c) (hsection : n.kind ∉ sectionKinds)
    (hdepth : n.depth ≤ d + 1) : Formed .named n' ∧ ∀ c, n'.HasChild c → Ready d c := by
  have hready : n.kind ≠ "AwaitBlock" → Redrafted n n' → ∀ c, n'.HasChild c → Ready d c := by
    intro hawait hredrafted c hc
    rcases hredrafted.children c hc with hc | hpending | hscripted
    · have hlt := Node.depth_lt_of_hasChild hc
      exact .draft (hchildren c hc) (hn.child_kind hawait hc) (by omega)
    · exact .pending hpending
    · exact .scripted hscripted
  have hother : n.kind ≠ "EachBlock" → n.kind ≠ "AwaitBlock" → Redrafted n n' → Declares .named n' →
      Formed .named n' ∧ ∀ c, n'.HasChild c → Ready d c := by
    intro heach hawait hredrafted hdeclares
    refine ⟨hredrafted.formed.advance_of_other ?_ ?_ ?_ hdeclares, hready hawait hredrafted⟩
    all_goals rw [hredrafted.kind]; assumption
  have hquiet : Redrafted n n' → n.kind ∉ declaringKinds → Declares .named n' :=
    fun hredrafted hkind => .of_other (hredrafted.kind ▸ hkind)
  cases h with
  | other hkind =>
    simp only [List.mem_cons, List.not_mem_nil, or_false, not_or] at hkind
    exact hother hkind.1 hkind.2.1 (.refl hn) (hquiet (.refl hn) (by simp [declaringKinds, hkind]))
  | component hkind h =>
    have hredrafted := (h.redrafted hn (by rw [hkind]; decide)).1
    refine hother ?_ ?_ hredrafted (hquiet hredrafted ?_) <;> rw [hkind] <;> decide
  | directive hkind h =>
    have hall : ∀ kind ∈ ["Action", "Animation", "Let", "Transition"],
        (kind, "name") ∈ nameFields ∧ kind ≠ "EachBlock" ∧ kind ≠ "AwaitBlock" := by decide
    obtain ⟨hfield, heach, hawait⟩ := hall _ hkind
    exact hother heach hawait (h.redrafted hn hfield).1 (h.declares hn heach)
  | target hkind h =>
    have heach : n.kind ≠ "EachBlock" := by rw [hkind]; decide
    refine hother heach (by rw [hkind]; decide) (.refl hn) ⟨fun he => absurd he heach, fun _ => .inl ?_⟩
    rcases hn.declares.target hkind with hnode | ⟨-, hnull, -⟩
    · exact hnode
    · simp [hnull, Value.isNull] at h
  | @value _ stop hkind he =>
    have hall : ∀ kind ∈ ["Binding", "Class", "EventHandler"],
        kind ∉ declaringKinds ∧ kind ≠ "EachBlock" ∧ kind ≠ "AwaitBlock" := by decide
    obtain ⟨hdeclaring, heach, hawait⟩ := hall _ hkind
    have hredrafted := Redrafted.withStop hn hkind he stop
    exact hother heach hawait hredrafted (hquiet hredrafted hdeclaring)
  | each hkind hm h =>
    obtain ⟨hredrafted, hnames⟩ := Redrafted.each hn hkind hm h
    exact ⟨hredrafted.formed.advance_each (hredrafted.kind.trans hkind) hnames,
      hready (by rw [hkind]; decide) hredrafted⟩
  | await hkind hm h => exact ready_nameAwait hn hchildren hkind hdepth hm h

theorem nameNode_of_script (hkind : n.kind ∉ markupKinds) : nameNode ctx parent n = pure n := by
  unfold nameNode
  split
  case h_14 => rfl
  all_goals
    rename_i he
    rw [he] at hkind
    exact absurd (by decide) hkind

theorem scripted_nameWithin (hn : Scripted n) (h : Yields (nameWithin ctx d parent n) n') :
    Scripted n' := by
  induction d generalizing parent n n' with
  | zero => exact Yields.pure h ▸ hn
  | succ d ih =>
    rw [nameWithin, nameNode_of_script (scripted_iff.mp hn).1.2, pure_bind] at h
    exact scripted_mapChildrenM (fun p c c' hc hyields => ih hc hyields) hn h

theorem nameWithin_of_pending (hn : Pending n) : nameWithin ctx d parent n = pure n := by
  cases d with
  | zero => rfl
  | succ d => rw [nameWithin, nameNode_of_script hn.kind, pure_bind, mapChildrenM_of_fields_nil hn.fields]

theorem staged_named_of_walk {f : Parent → Node → Collect Node} (hn : Formed .named n)
    (hpending : ∀ p c, Pending c → f p c = pure c)
    (hscripted : ∀ p c c', Scripted c → Yields (f p c) c' → Scripted c')
    (hplace : ∀ p c c', Yields (f p c) c' → c'.kind = c.kind)
    (hchildren : ∀ p c c', n.HasChild c → Yields (f p c) c' → Staged .named c')
    (h : Yields (mapChildrenM f n) n') : Staged .named n' := by
  refine .markup (hn.walk (by decide) (fun key c c' _ hleaf hyields => ?_)
    (fun p c c' _ _ hyields => hplace p c c' hyields) h) fun c' hc' => ?_
  · cases hleaf with
    | pending hs hslot hc =>
      rw [hpending _ c hc] at hyields
      exact hyields.pure ▸ .pending hs hslot hc
    | scripted hc => exact .scripted (hscripted _ c c' hc hyields)
  · obtain ⟨key, v, c, hv, hc, hyields⟩ := hn.child_of_walk (by decide) h hc'
    exact hchildren _ c c' (Node.hasChild_of_get? hv hc) hyields

theorem Ready.staged (hn : Ready d n) (h : Yields (nameWithin ctx d parent n) n') :
    Staged .named n' := by
  induction d generalizing parent n n' with
  | zero =>
    rw [Yields.pure h]
    cases hn with
    | pending hn => exact .pending (by decide) hn
    | scripted hn => exact .scripted hn
    | draft _ _ hdepth => exact absurd hdepth (Nat.not_le.mpr n.depth_pos)
  | succ d ih =>
    have hwalk : ∀ {n}, Formed .named n → (∀ c, n.HasChild c → Ready d c) →
        Yields (mapChildrenM (fun p c => nameWithin ctx d (some p) c) n) n' → Staged .named n' :=
      fun hn hchildren h => staged_named_of_walk hn (fun p c hc => nameWithin_of_pending hc)
        (fun p c c' hc hyields => scripted_nameWithin hc hyields)
        (fun p c c' hyields => (samePlace_nameWithin hyields).kind)
        (fun p c c' hc hyields => ih (hchildren c hc) hyields) h
    cases hn with
    | pending hn =>
      rw [nameWithin_of_pending hn] at h
      exact h.pure ▸ .pending (by decide) hn
    | scripted hn => exact .scripted (scripted_nameWithin hn h)
    | draft hn hkind hdepth =>
      cases hn with
      | pending _ hn =>
        rw [nameWithin_of_pending hn] at h
        exact h.pure ▸ .pending (by decide) hn
      | scripted hn => exact .scripted (scripted_nameWithin hn h)
      | markup hn hchildren =>
        obtain ⟨n₁, h₁, h⟩ := Yields.bind h
        obtain ⟨hformed, hready⟩ :=
          ((publishes_nameNode parent n).yields n₁ h₁).ready hn hchildren hkind hdepth
        exact hwalk hformed hready h
    | moved hn hkind hchildren =>
      have hnode : nameNode ctx parent n = pure n := by
        unfold nameNode
        split
        case h_14 => rfl
        all_goals
          rename_i he
          rw [he] at hkind
          exact absurd hkind (by decide)
      rw [nameWithin, hnode, pure_bind] at h
      exact hwalk hn hchildren h

theorem staged_nameWithin (hn : Staged .drafted n) (hkind : n.kind ∉ sectionKinds)
    (hdepth : n.depth ≤ d) (h : Yields (nameWithin ctx d parent n) n') : Staged .named n' :=
  (Ready.draft hn hkind hdepth).staged h

end Pass

end Program

end SvelteSyntax
