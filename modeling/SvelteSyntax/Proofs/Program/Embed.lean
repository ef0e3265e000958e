import SvelteSyntax.Program.Embed
import SvelteSyntax.Proofs.Program.Names

namespace SvelteSyntax

open Run Text

/-- All tokens that the parser gives for parts of the source are the text at their places. -/
structure Script.ScriptParser.Faithful (parser : Script.ScriptParser) (source : List Char) : Prop where
  expression : ∀ start stop assignable parsed,
    parser.expressionAt source start stop assignable = .ok parsed → parsed.streams.Faithful source
  program : ∀ start stop parsed,
    parser.programAt source start stop = .ok parsed → parsed.streams.Faithful source

variable {parent : Option Parent} {key : String} {hs : List Handler} {n : Node}

namespace Program

/-- How a script in a field is read. -/
def slot? (p : Parent) : Option Slot :=
  match p.field with
  | "expression" =>
    if expressionParents.contains p.kind then some .expression
    else if p.kind = "Let" then some .letTarget
    else none
  | "context" => if p.kind = "EachBlock" then some .pattern else none
  | "key" => if p.kind = "EachBlock" then some .expression else none
  | "value" => if p.kind = "ThenBlock" then some .pattern else none
  | "error" => if p.kind = "CatchBlock" then some .pattern else none
  | "identifiers" => if p.kind = "DebugTag" then some .expression else none
  | "content" => if p.kind = "Script" || p.kind = "ScriptElement" then some .program else none
  | _ => none

/-- Parses what is pending in a tree in a field of a parent, and goes on with what it becomes. -/
def embedFrom (ctx : EmbedContext) (again : Node → Collect Node) :
    Nat → Option Parent → Node → Collect Node
  | 0, _, n => return n
  | depth + 1, parent, n =>
    match n.placeholder, parent.bind slot? with
    | true, some slot => do again (← embedSlot ctx n slot)
    | _, _ => mapChildrenM (fun p c => embedFrom ctx again depth (some p) c) n

/-- Parses what is pending in a tree in a field of a parent, and in what that becomes. -/
def embedWithin (ctx : EmbedContext) : (level : Nat) → (depth : Nat) → Option Parent → Node →
    Collect Node
  | 0 => embedFrom ctx refuseNested
  | level + 1 => embedFrom ctx fun n =>
    mapChildrenM (fun p c => embedWithin ctx level n.depth (some p) c) n

/-- Parses what is pending in a parsed tree. -/
def embedRest (ctx : EmbedContext) : (level : Nat) → Node → Collect Node
  | 0, n => refuseNested n
  | level + 1, n => mapChildrenM (fun p c => embedWithin ctx level n.depth (some p) c) n

theorem not_yields_refuseNested {n n' : Node} : ¬Yields (refuseNested n : Collect Node) n' := by
  rintro ⟨s, s', h⟩
  cases h

/-- The handlers exclude one another: those for a field are one or none. -/
theorem handlers_for_field (p : Parent) :
    (embedHandlers.filter (·.covers p)).map Handler.slot = (slot? p).toList := by
  obtain ⟨kind, field⟩ := p
  have hlet : "Let" ∉ expressionParents := by decide
  unfold slot?
  dsimp only
  split
  case h_1 =>
    by_cases hparent : kind ∈ expressionParents
    · have hne : kind ≠ "Let" := fun he => hlet (he ▸ hparent)
      simp [embedHandlers, Handler.covers, hparent, hne]
    · by_cases hkind : kind = "Let"
      · simp [embedHandlers, Handler.covers, hkind, hlet]
      · simp [embedHandlers, Handler.covers, hparent, hkind]
  case h_8 h₁ h₂ h₃ h₄ h₅ h₆ h₇ =>
    simp [embedHandlers, Handler.covers, Ne.symm h₁, Ne.symm h₂, Ne.symm h₃, Ne.symm h₄, Ne.symm h₅,
      Ne.symm h₆, Ne.symm h₇]
  case h_7 =>
    by_cases hkind : kind = "Script" ∨ kind = "ScriptElement"
    · simp [embedHandlers, Handler.covers, hkind]
    · simp [embedHandlers, Handler.covers, hkind]
  all_goals
    split
    · rename_i hkind
      simp [embedHandlers, Handler.covers, hkind]
    · rename_i hkind
      simp [embedHandlers, Handler.covers, hkind]

variable {ctx : EmbedContext}

theorem runHandlers_of_not_covered (h : ∀ x ∈ hs, parent.any x.covers = false) (replaced : Bool)
    (n : Node) :
    runHandlers ctx parent hs replaced n = return if replaced then .replaced n else .kept n := by
  induction hs with
  | nil => rfl
  | cons x hs ih =>
    rw [runHandlers, h x (List.mem_cons_self ..), Bool.false_and, if_neg Bool.false_ne_true]
    exact ih fun y hy => h y (List.mem_cons_of_mem _ hy)

theorem runHandlers_of_not_pending (h : n.placeholder = false) (hs : List Handler) :
    runHandlers ctx parent hs false n = return .kept n := by
  induction hs with
  | nil => rfl
  | cons x hs ih =>
    rw [runHandlers, h, Bool.and_false, if_neg Bool.false_ne_true]
    exact ih

theorem runHandlers_of_filter {p x} (h : hs.filter (·.covers p) = [x])
    (hpending : n.placeholder = true) :
    runHandlers ctx (some p) hs false n = Step.replaced <$> embedSlot ctx n x.slot := by
  induction hs with
  | nil => cases h
  | cons y hs ih =>
    rw [List.filter_cons] at h
    rw [runHandlers, Option.any_some, hpending, Bool.and_true]
    split at h
    · rename_i hy
      rw [if_pos hy]
      obtain ⟨rfl, hrest⟩ := List.cons.inj h
      have hnone : ∀ z ∈ hs, (some p).any z.covers = false := by
        intro z hz
        have hnot := List.filter_eq_nil_iff.mp hrest z hz
        simpa using hnot
      simp [runHandlers_of_not_covered hnone]
    · rename_i hy
      rw [if_neg hy]
      exact ih h

theorem runHandlers_eq (parent : Option Parent) (n : Node) :
    runHandlers ctx parent embedHandlers false n =
      match n.placeholder, parent.bind slot? with
      | true, some slot => Step.replaced <$> embedSlot ctx n slot
      | _, _ => return .kept n := by
  cases hpending : n.placeholder with
  | false => exact runHandlers_of_not_pending hpending _
  | true =>
    cases parent with
    | none => exact runHandlers_of_not_covered (fun x _ => rfl) false n
    | some p =>
      have hfield := handlers_for_field p
      cases hslot : slot? p with
      | none =>
        rw [hslot, Option.toList_none, List.map_eq_nil_iff] at hfield
        simp only [Option.bind_some, hslot]
        refine runHandlers_of_not_covered (fun x hx => ?_) false n
        simpa using List.filter_eq_nil_iff.mp hfield x hx
      | some slot =>
        rw [hslot, Option.toList_some] at hfield
        obtain ⟨x, hx, hxslot⟩ := List.map_eq_singleton_iff.mp hfield
        simp only [Option.bind_some, hslot]
        rw [runHandlers_of_filter hx hpending, hxslot]

theorem withinFrom_embedPass (again : Node → Collect Node) (depth : Nat) (parent : Option Parent)
    (n : Node) : (embedPass ctx).withinFrom again depth parent n = embedFrom ctx again depth parent n := by
  induction depth generalizing parent n with
  | zero => rfl
  | succ depth ih =>
    have hchildren : (fun p c => (embedPass ctx).withinFrom again depth (some p) c) =
        fun p c => embedFrom ctx again depth (some p) c := by
      funext p c
      exact ih _ c
    have henter : (embedPass ctx).enter parent n = runHandlers ctx parent embedHandlers false n := rfl
    rw [Pass.withinFrom, hchildren, henter, runHandlers_eq, embedFrom]
    split
    · simp
    · simp [embedPass]

theorem within_embedPass (level depth : Nat) (parent : Option Parent) (n : Node) :
    (embedPass ctx).within level depth parent n = embedWithin ctx level depth parent n := by
  induction level generalizing depth parent n with
  | zero => exact withinFrom_embedPass refuseNested depth parent n
  | succ level ih =>
    have hagain : (fun n => mapChildrenM (fun p c => (embedPass ctx).within level n.depth (some p) c) n >>=
        (embedPass ctx).leave) = fun n => mapChildrenM (fun p c => embedWithin ctx level n.depth (some p) c) n := by
      funext n
      have hchildren : (fun p c => (embedPass ctx).within level n.depth (some p) c) =
          fun p c => embedWithin ctx level n.depth (some p) c := by
        funext p c
        exact ih _ _ c
      rw [hchildren]
      simp [embedPass]
    rw [Pass.within, hagain, embedWithin]
    exact withinFrom_embedPass _ depth parent n

theorem embedTree_eq (n : Node) :
    embedTree ctx n = embedWithin ctx (byteLength ctx.source + 1) n.depth none n := by
  rw [embedTree, Pass.traverse_eq_within, within_embedPass]

section Cases

variable {level depth : Nat} {parent : Option Parent} {n : Node}

@[simp] theorem embedWithin_depth_zero : embedWithin ctx level 0 parent n = pure n := by
  cases level <;> rfl

theorem embedWithin_eq_mapChildrenM (h : n.placeholder = false ∨ parent.bind slot? = none) :
    embedWithin ctx level (depth + 1) parent n =
      mapChildrenM (fun p c => embedWithin ctx level depth (some p) c) n := by
  cases level <;> rcases h with h | h <;> simp [embedWithin, embedFrom, h]

theorem embedWithin_of_pending {slot} (hpending : n.placeholder = true)
    (hslot : parent.bind slot? = some slot) :
    embedWithin ctx level (depth + 1) parent n = embedSlot ctx n slot >>= embedRest ctx level := by
  cases level <;> simp only [embedWithin, embedFrom, hpending, hslot] <;> rfl

end Cases

inductive Given (ctx : EmbedContext) : Node → Prop
  | expression {start stop assignable parsed}
      (h : ctx.parser.expressionAt ctx.source start stop assignable = .ok parsed) :
    Given ctx parsed.expression
  | program {start stop parsed}
      (h : ctx.parser.programAt ctx.source start stop = .ok parsed) : Given ctx parsed.program

/-- A step of the pass, for a parser whose tokens fit. -/
abbrev EmbedContext.Publishes {α : Type} (ctx : EmbedContext) (x : Collect α) (Q : α → Prop) : Prop :=
  Program.Publishes ctx.source (ctx.parser.Faithful ctx.source) x Q

theorem publishes_lift {α : Type} (result : Except Script.ScriptError α) :
    ctx.Publishes (ctx.lift result) (result = .ok ·) :=
  (Publishes.lift (.mapError fun _ _ => not_walkFault_at _ _ _ _)).imp fun _ => mapError_eq_ok.mp

theorem publishes_embedExpression (n : Node) (expected : String) (assignable : Bool) :
    ctx.Publishes (embedExpression ctx n expected assignable) (Given ctx) := by
  refine .bind (publishes_lift _) fun parsed hparsed => ?_
  have hgiven : ctx.Publishes (do modify (· ++ parsed.streams); return parsed.expression) (Given ctx) :=
    .bind (.modify fun hparser _ hs => hs.append (hparser.expression _ _ _ _ hparsed))
      fun _ _ => .pure (.expression hparsed)
  dsimp only
  split
  · exact hgiven
  · exact .bind (P := fun _ => True) (.throw nofun) fun _ _ => hgiven

theorem publishes_embedSlot (n : Node) (slot : Slot) : ctx.Publishes (embedSlot ctx n slot) (Given ctx) := by
  cases slot with
  | expression | pattern => exact publishes_embedExpression n _ _
  | program =>
    refine .bind (publishes_lift _) fun parsed hparsed => ?_
    exact .bind (.modify fun hparser _ hs => hs.append (hparser.program _ _ _ hparsed))
      fun _ _ => .pure (.program hparsed)
  | letTarget =>
    unfold embedSlot embedLet
    dsimp only
    split
    · exact publishes_embedExpression n _ _
    · exact .throw (not_walkFault_at _ _ _ _)

section Keeps

variable (hparser : ctx.parser.Faithful ctx.source)
include hparser

theorem keeps_embedFrom {again} (hagain : ∀ n, Keeps (Streams.Faithful ctx.source) (again n))
    (depth : Nat) (parent : Option Parent) (n : Node) :
    Keeps (Streams.Faithful ctx.source) (embedFrom ctx again depth parent n) := by
  induction depth generalizing parent n with
  | zero => exact .pure fun _ hs => hs
  | succ depth ih =>
    unfold embedFrom
    split
    · exact .bind ((publishes_embedSlot n _).keeps hparser) fun n => hagain n
    · exact keeps_mapChildrenM (fun p c => ih _ c) n

theorem keeps_embedWithin (level depth : Nat) (parent : Option Parent) (n : Node) :
    Keeps (Streams.Faithful ctx.source) (embedWithin ctx level depth parent n) := by
  induction level generalizing depth parent n with
  | zero => exact keeps_embedFrom hparser (fun _ => .throw) depth parent n
  | succ level ih =>
    exact keeps_embedFrom hparser (fun n => keeps_mapChildrenM (fun p c => ih _ _ c) n) depth parent n

theorem keeps_embedTree (n : Node) : Keeps (Streams.Faithful ctx.source) (embedTree ctx n) := by
  rw [embedTree_eq]
  exact keeps_embedWithin hparser _ _ none n

end Keeps

variable {n n' : Node} {level depth : Nat}

theorem samePlace_embedWithin (hslot : n.placeholder = false ∨ parent.bind slot? = none)
    (h : Yields (embedWithin ctx level depth parent n) n') : SamePlace n n' := by
  cases depth with
  | zero =>
    rw [embedWithin_depth_zero] at h
    rw [h.pure]
  | succ depth =>
    rw [embedWithin_eq_mapChildrenM hslot] at h
    exact samePlace_mapChildrenM h

theorem slot?_of_listFields {kind} (hkey : (kind, key) ∈ listFields) :
    (some (Parent.mk kind key)).bind slot? = none := by
  simp only [listFields, List.mem_cons, List.not_mem_nil, or_false, Prod.mk.injEq] at hkey
  rcases hkey with ⟨-, rfl⟩ | ⟨-, rfl⟩ <;> rfl

theorem keptList_embedWithin (hkey : (n.kind, key) ∈ listFields)
    (hslot : n.placeholder = false ∨ parent.bind slot? = none)
    (h : Yields (embedWithin ctx level depth parent n) n') : KeptList key n n' := by
  cases depth with
  | zero =>
    rw [embedWithin_depth_zero] at h
    rw [h.pure]
    exact .refl n
  | succ depth =>
    have hnone := slot?_of_listFields hkey
    rw [embedWithin_eq_mapChildrenM hslot] at h
    exact keptList_mapChildrenM h (childKeys?_of_listFields hkey) fun c c' hc _ =>
      samePlace_embedWithin (.inr hnone) hc

theorem embedWithin_program {parent : Parent} (hpending : n.placeholder = true)
    (hslot : slot? parent = some .program)
    (h : Yields (embedWithin ctx level (depth + 1) (some parent) n) n') :
    ∃ parsed, ctx.parser.programAt ctx.source n.start n.stop = .ok parsed ∧
      Yields (embedRest ctx level parsed.program) n' := by
  have hbind : (some parent).bind slot? = some .program := hslot
  rw [embedWithin_of_pending hpending hbind, embedSlot] at h
  obtain ⟨program, hprogram, h⟩ := h.bind
  obtain ⟨parsed, hparsed, hprogram⟩ := hprogram.bind
  obtain ⟨-, -, hprogram⟩ := hprogram.bind
  rw [hprogram.pure] at h
  exact ⟨parsed, mapError_eq_ok.mp hparsed.lift, h⟩

theorem keptList_embedRest (hkey : (n.kind, key) ∈ listFields) (h : Yields (embedRest ctx level n) n') :
    KeptList key n n' := by
  cases level with
  | zero => exact absurd h not_yields_refuseNested
  | succ level =>
    have hnone := slot?_of_listFields hkey
    exact keptList_mapChildrenM h (childKeys?_of_listFields hkey) fun c c' hc _ =>
      samePlace_embedWithin (.inr hnone) hc

end Program

end SvelteSyntax
