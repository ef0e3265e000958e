import SvelteSyntax.Script.Syntax

namespace SvelteSyntax.Script.Syntax

variable {P : Syntax → Prop} {x y : Syntax} {xs : List Syntax}

/-- What stands directly below the root. -/
def parts : Syntax → List Syntax
  | .reference .. | .binding .. | .word .. | .privateName .. | .boolean .. | .null _ | .number ..
  | .bigint _ | .regex _ | .string .. | .chunk .. | .this _ | .super _ | .debugger _ | .empty _ => []
  | .template _ xs ys | .functionBody _ xs ys => xs ++ ys
  | .metaProperty _ x y | .assignment _ _ x y | .binary _ _ x y | .logical _ _ x y | .privateIn _ x y
  | .property _ x y _ _ _ _ | .staticMember _ x y _ | .computedMember _ x y _
  | .privateMember _ x y _ | .bindingProperty _ x y _ _ | .assignmentPattern _ x y
  | .targetProperty _ x y _ | .targetDefault _ x y | .doWhile _ x y | .labeled _ x y
  | .whileStatement _ x y | .withStatement _ x y | .importSpecifier _ x y
  | .exportSpecifier _ x y => [x] ++ [y]
  | .array _ elements => elements.filterMap id
  | .spread _ x | .directive _ x _ | .await _ x | .chain _ x | .parenthesised _ x | .unary _ _ x
  | .update _ _ _ x | .nonNull _ x | .targetRest _ x | .expressionStatement _ x
  | .throwStatement _ x | .importDefault _ x | .importNamespace _ x | .exportDefault _ x => [x]
  | .object _ xs | .classBody _ xs | .staticBlock _ xs | .otherElement _ xs | .sequence _ xs
  | .block _ xs | .variables _ _ xs | .typeDeclaration _ xs => xs
  | .parameter _ x xs | .typeAs _ x xs | .satisfies _ x xs | .instantiation _ x xs
  | .restElement _ x xs | .switchStatement _ x xs => [x] ++ xs
  | .arrow _ types params rest returns body _ _ => types ++ params ++ rest.toList ++ returns ++ [body]
  | .function _ _ id types params rest returns body _ _ =>
    id.toList ++ types ++ params ++ rest.toList ++ returns ++ body.toList
  | .classLike _ _ decorators id types superClass heritage body =>
    decorators ++ id.toList ++ types ++ superClass.toList ++ heritage ++ [body]
  | .method _ xs key value _ _ _ => xs ++ [key] ++ [value]
  | .field _ xs key types value _ _ => xs ++ [key] ++ types ++ value.toList
  | .call _ callee types xs _ | .new _ callee types xs => [callee] ++ types ++ xs
  | .conditional _ x y z | .forIn _ x y z | .forOf _ _ x y z => [x] ++ [y] ++ [z]
  | .importCall _ x o | .targetShorthand _ x o => [x] ++ o.toList
  | .tagged _ tag types quasi => [tag] ++ types ++ [quasi]
  | .yield _ _ o | .breakStatement _ o | .continueStatement _ o | .returnStatement _ o => o.toList
  | .typeAssertion _ xs x | .importDeclaration _ xs x => xs ++ [x]
  | .objectPattern _ xs rest | .objectTarget _ xs rest => xs ++ rest.toList
  | .arrayPattern _ elements rest | .arrayTarget _ elements rest =>
    elements.filterMap id ++ rest.toList
  | .forStatement _ init test step body => init.toList ++ test.toList ++ step.toList ++ [body]
  | .ifStatement _ test consequent alternate => [test] ++ [consequent] ++ alternate.toList
  | .switchCase _ test consequent => test.toList ++ consequent
  | .tryStatement _ body handler finalizer => [body] ++ handler.toList ++ finalizer.toList
  | .catchClause _ param types body => param.toList ++ types ++ [body]
  | .declarator _ id types init => [id] ++ types ++ init.toList
  | .exportNamed _ declaration specifiers source => declaration.toList ++ specifiers ++ source.toList
  | .exportAll _ exported source => exported.toList ++ [source]

theorem innerList_eq (xs : List Syntax) : innerList xs = xs.flatMap nodes := by
  induction xs with
  | nil => rfl
  | cons x xs ih => exact congrArg (nodes x ++ ·) ih

theorem innerOption_eq (o : Option Syntax) : innerOption o = o.toList.flatMap nodes := by
  cases o with
  | none => rfl
  | some x => exact (List.append_nil (nodes x)).symm

theorem innerSparse_eq (xs : List (Option Syntax)) :
    innerSparse xs = (xs.filterMap id).flatMap nodes := by
  induction xs with
  | nil => rfl
  | cons o xs ih =>
    cases o with
    | none => exact ih
    | some x => exact congrArg (nodes x ++ ·) ih

theorem mem_nodes_self (x : Syntax) : x ∈ x.nodes := List.mem_cons_self ..

/-- The list has the trees and all that is below them, tree by tree. -/
def Lists (inner parts : List Syntax) : Prop := inner = parts.flatMap nodes

theorem lists_one (x : Syntax) : Lists (x :: inner x) [x] := (List.append_nil (nodes x)).symm

theorem lists_append {xs ys parts parts' : List Syntax} (h : Lists xs parts) (h' : Lists ys parts') :
    Lists (xs ++ ys) (parts ++ parts') := by
  rw [Lists, h, h', List.flatMap_append]

theorem lists_parts (x : Syntax) : Lists x.inner x.parts := by
  cases x
  all_goals
    repeat' first
      | exact lists_one _
      | exact innerList_eq _
      | exact innerOption_eq _
      | exact innerSparse_eq _
      | refine lists_append ?_ ?_
      | exact rfl

theorem inner_eq (x : Syntax) : x.inner = x.parts.flatMap nodes := lists_parts x

section

variable (step : ∀ x : Syntax, (∀ y ∈ x.inner, P y) → P x)
include step

mutual

theorem forall_inner : ∀ x : Syntax, ∀ y ∈ x.inner, P y := by
  intro x
  cases x
  all_goals
    repeat' first
      | exact List.forall_mem_nil _
      | refine List.forall_mem_append.mpr ⟨?_, ?_⟩
      | refine List.forall_mem_cons.mpr ⟨step _ (forall_inner _), ?_⟩
      | exact forall_innerList _
      | exact forall_innerOption _
      | exact forall_innerSparse _
      | exact forall_inner _

theorem forall_innerList : ∀ xs : List Syntax, ∀ y ∈ innerList xs, P y
  | [] => List.forall_mem_nil _
  | x :: xs => List.forall_mem_append.mpr
    ⟨List.forall_mem_cons.mpr ⟨step x (forall_inner x), forall_inner x⟩, forall_innerList xs⟩

theorem forall_innerOption : ∀ o : Option Syntax, ∀ y ∈ innerOption o, P y
  | none => List.forall_mem_nil _
  | some x => List.forall_mem_cons.mpr ⟨step x (forall_inner x), forall_inner x⟩

theorem forall_innerSparse : ∀ xs : List (Option Syntax), ∀ y ∈ innerSparse xs, P y
  | [] => List.forall_mem_nil _
  | none :: xs => forall_innerSparse xs
  | some x :: xs => List.forall_mem_append.mpr
    ⟨List.forall_mem_cons.mpr ⟨step x (forall_inner x), forall_inner x⟩, forall_innerSparse xs⟩

end

end

theorem mem_inner_of_mem_parts (hy : y ∈ x.parts) : y ∈ x.inner := by
  rw [inner_eq]
  exact List.mem_flatMap.mpr ⟨y, hy, mem_nodes_self y⟩

/-- What holds of a tree if it holds of all that stands below its root holds of every tree. -/
theorem induct (step : ∀ x : Syntax, (∀ y ∈ x.inner, P y) → P x) (x : Syntax) : P x :=
  step x (forall_inner step x)

theorem nodes_subset (x : Syntax) : ∀ y ∈ x.inner, y.nodes ⊆ x.nodes := by
  induction x using induct with
  | step x ih =>
    intro y hy
    rw [inner_eq] at hy
    obtain ⟨c, hc, hy⟩ := List.mem_flatMap.mp hy
    have hsub : c.nodes ⊆ x.nodes := fun z hz => by
      rw [nodes, inner_eq]
      exact List.mem_cons_of_mem _ (List.mem_flatMap.mpr ⟨c, hc, hz⟩)
    rcases List.mem_cons.mp hy with rfl | hy
    · exact hsub
    · exact List.Subset.trans (ih c (mem_inner_of_mem_parts hc) y hy) hsub

theorem mem_inner_trans {z : Syntax} (hy : y ∈ x.inner) (hz : z ∈ y.inner) : z ∈ x.inner := by
  rw [inner_eq] at hy ⊢
  obtain ⟨c, hc, hy⟩ := List.mem_flatMap.mp hy
  refine List.mem_flatMap.mpr ⟨c, hc, ?_⟩
  rcases List.mem_cons.mp hy with rfl | hy
  · exact List.mem_cons_of_mem _ hz
  · exact nodes_subset c y hy (List.mem_cons_of_mem _ hz)

end SvelteSyntax.Script.Syntax
