import SvelteSyntax.Proofs.Program.Walk
import SvelteSyntax.Script.Builder

namespace SvelteSyntax.Node

inductive Role
  | bound | evaluated | key
  deriving DecidableEq

/-- The trees that a pattern is made of: a pattern, the properties of an object pattern or the
elements of an array pattern, which may have holes. -/
inductive Shape
  | pattern (n : Node)
  | properties (ns : List Node)
  | elements (ns : List (Option Node))

/-- The pieces of a pattern from left to right, each with what it is there for. -/
inductive Pieces : Shape → List (Role × Node) → Prop
  | identifier {n} (hkind : n.kind = "Identifier") : Pieces (.pattern n) [(.bound, n)]
  | member {n} (hkind : n.kind = "MemberExpression") : Pieces (.pattern n) [(.evaluated, n)]
  -- The target of an assignment under type operators is left out of the tree.
  | unsupported {n} (hkind : n.kind = "UnsupportedPattern") : Pieces (.pattern n) []
  | object {n} {ns pieces} (hkind : n.kind = "ObjectPattern")
      (hfields : n.fields = [("properties", .nodes ns)])
      (h : Pieces (.properties ns) pieces) : Pieces (.pattern n) pieces
  | array {n} {ns pieces} (hkind : n.kind = "ArrayPattern")
      (hfields : n.fields = [("elements", .ofSparse ns)])
      (h : Pieces (.elements ns) pieces) : Pieces (.pattern n) pieces
  | withDefault {n left right} {pieces} (hkind : n.kind = "AssignmentPattern")
      (hfields : n.fields = [("left", .node left), ("right", .node right)])
      (h : Pieces (.pattern left) pieces) : Pieces (.pattern n) (pieces ++ [(.evaluated, right)])
  | rest {n argument} {pieces} (hkind : n.kind = "RestElement")
      (hfields : n.fields = [("argument", .node argument)])
      (h : Pieces (.pattern argument) pieces) : Pieces (.pattern n) pieces
  | noProperty : Pieces (.properties []) []
  | property {p key value} {ns shorthand computed pieces others} (hkind : p.kind = "Property")
      (hfields : p.fields = Script.patternProperty key value shorthand computed)
      (h : Pieces (.pattern value) pieces) (hns : Pieces (.properties ns) others) :
      Pieces (.properties (p :: ns))
        ((if computed then .evaluated else .key, key) :: (pieces ++ others))
  | restProperty {p argument} {ns pieces others} (hkind : p.kind = "RestElement")
      (hfields : p.fields = [("argument", .node argument)])
      (h : Pieces (.pattern argument) pieces) (hns : Pieces (.properties ns) others) :
      Pieces (.properties (p :: ns)) (pieces ++ others)
  | noElement : Pieces (.elements []) []
  | hole {ns others} (hns : Pieces (.elements ns) others) : Pieces (.elements (none :: ns)) others
  | element {n ns pieces others}
      (h : Pieces (.pattern n) pieces) (hns : Pieces (.elements ns) others) :
      Pieces (.elements (some n :: ns)) (pieces ++ others)

/-- The pieces that are there for one thing. -/
def inRole (role : Role) (pieces : List (Role × Node)) : List Node :=
  (pieces.filter (·.1 = role)).map Prod.snd

variable {role : Role} {pieces others : List (Role × Node)}

@[simp] theorem inRole_nil : inRole role [] = [] := rfl

@[simp] theorem inRole_cons {piece} :
    inRole role (piece :: pieces) =
      if piece.1 = role then piece.2 :: inRole role pieces else inRole role pieces := by
  simp only [inRole, List.filter_cons, decide_eq_true_eq]
  split <;> rfl

@[simp] theorem inRole_append : inRole role (pieces ++ others) = inRole role pieces ++ inRole role others := by
  simp [inRole]

theorem toNodes_ofSparse (ns : List (Option Node)) :
    (Value.ofSparse ns).toNodes = ns.filterMap id := by
  unfold Value.ofSparse
  split <;> rfl

theorem depth_ofSparse (ns : List (Option Node)) : (Value.ofSparse ns).depth = depthOfSparse ns := by
  unfold Value.ofSparse
  split
  · next hall =>
    induction ns with
    | nil => rfl
    | cons n ns ih =>
      rw [List.all_cons, Bool.and_eq_true] at hall
      obtain ⟨n, rfl⟩ := Option.isSome_iff_exists.mp hall.1
      simpa [Value.depth, depthOfList, depthOfSparse] using congrArg (max n.depth) (ih hall.2)
  · rfl

namespace Shape

def depth : Shape → Nat
  | pattern n => n.depth
  | properties ns => depthOfList ns
  | elements ns => depthOfSparse ns

/-- What the two functions on patterns make of a shape. -/
def split (depth : Nat) : Shape → List Node × List Node
  | pattern n => (n.boundWithin depth, n.evaluatedWithin depth)
  | properties ns =>
    (ns.flatMap fun p =>
      ((p.child? (if p.is "RestElement" then "argument" else "value")).map
        (boundWithin depth)).getD [],
     ns.flatMap fun p => (if p.flag "computed" then (p.child? "key").toList else []) ++
      (((p.child? "value").or (p.child? "argument")).map (evaluatedWithin depth)).getD [])
  | elements ns =>
    ((ns.filterMap id).flatMap (boundWithin depth),
     (ns.filterMap id).flatMap (evaluatedWithin depth))

end Shape

theorem exists_level {n : Node} {depth : Nat} (h : n.depth ≤ depth) :
    ∃ d, depth = d + 1 ∧ depthOfFields n.fields ≤ d := by
  rw [n.depth_eq] at h
  exact ⟨depth - 1, by omega, by omega⟩

theorem Pieces.split_eq {s : Shape} (h : Pieces s pieces) {depth : Nat} (hdepth : s.depth ≤ depth) :
    s.split depth = (inRole .bound pieces, inRole .evaluated pieces) := by
  induction h generalizing depth with
  | identifier hkind | member hkind | unsupported hkind =>
    obtain ⟨d, rfl, -⟩ := exists_level hdepth
    simp [Shape.split, boundWithin, evaluatedWithin, hkind]
  | object hkind hfields _ ih =>
    obtain ⟨d, rfl, hd⟩ := exists_level hdepth
    rw [hfields] at hd
    simp only [depthOfFields, Value.depth, Nat.max_zero] at hd
    simpa [Shape.split, boundWithin, evaluatedWithin, hkind, children, get?, hfields, Fields.get?]
      using ih hd
  | array hkind hfields _ ih =>
    obtain ⟨d, rfl, hd⟩ := exists_level hdepth
    rw [hfields] at hd
    simp only [depthOfFields, depth_ofSparse, Nat.max_zero] at hd
    simpa [Shape.split, boundWithin, evaluatedWithin, hkind, nodesAt, get?, hfields, Fields.get?,
      toNodes_ofSparse] using ih hd
  | withDefault hkind hfields _ ih =>
    obtain ⟨d, rfl, hd⟩ := exists_level hdepth
    rw [hfields] at hd
    simp only [depthOfFields, Value.depth] at hd
    have hleft := @ih d (by simp only [Shape.depth]; omega)
    simp only [Shape.split, Prod.mk.injEq] at hleft
    simp [Shape.split, boundWithin, evaluatedWithin, hkind, child?, get?, hfields, Fields.get?,
      Value.toNode?, hleft]
  | rest hkind hfields _ ih =>
    obtain ⟨d, rfl, hd⟩ := exists_level hdepth
    rw [hfields] at hd
    simp only [depthOfFields, Value.depth, Nat.max_zero] at hd
    simpa [Shape.split, boundWithin, evaluatedWithin, hkind, child?, get?, hfields, Fields.get?,
      Value.toNode?] using ih hd
  | noProperty | noElement => rfl
  | @property p key value ns shorthand computed pieces others hkind hfields _ _ ih ihns =>
    simp only [Shape.depth, depthOfList, p.depth_eq, hfields, Script.patternProperty, Script.propertyFields, depthOfFields,
      Value.depth] at hdepth
    have hpieces := @ih depth (by simp only [Shape.depth]; omega)
    have hothers := @ihns depth (by simp only [Shape.depth]; omega)
    simp only [Shape.split, Prod.mk.injEq] at hpieces hothers
    have hkey : p.child? "key" = some key := by
      simp [child?, get?, hfields, Script.patternProperty, Script.propertyFields, Fields.get?, Value.toNode?]
    have hvalue : p.child? "value" = some value := by
      simp [child?, get?, hfields, Script.patternProperty, Script.propertyFields, Fields.get?, Value.toNode?]
    have hcomputed : p.flag "computed" = computed := by
      simp [flag, get?, hfields, Script.patternProperty, Script.propertyFields, Fields.get?]
    have hrest : p.is "RestElement" = false := by simp [is, hkind]
    cases computed <;>
      simp [Shape.split, hkey, hvalue, hcomputed, hrest, hpieces, hothers]
  | @restProperty p argument ns pieces others hkind hfields _ _ ih ihns =>
    simp only [Shape.depth, depthOfList, p.depth_eq, hfields, depthOfFields, Value.depth] at hdepth
    have hpieces := @ih depth (by simp only [Shape.depth]; omega)
    have hothers := @ihns depth (by simp only [Shape.depth]; omega)
    simp only [Shape.split, Prod.mk.injEq] at hpieces hothers
    have hargument : p.child? "argument" = some argument := by
      simp [child?, get?, hfields, Fields.get?, Value.toNode?]
    have hvalue : p.child? "value" = none := by simp [child?, get?, hfields, Fields.get?]
    have hcomputed : p.flag "computed" = false := by simp [flag, get?, hfields, Fields.get?]
    have hrest : p.is "RestElement" = true := by simp [is, hkind]
    simp [Shape.split, hargument, hvalue, hcomputed, hrest, hpieces, hothers]
  | hole _ ih => simpa [Shape.split] using ih hdepth
  | @element n ns _ _ _ _ ih ihns =>
    simp only [Shape.depth, depthOfSparse] at hdepth
    have hpieces := @ih depth (by simp only [Shape.depth]; omega)
    have hothers := @ihns depth (by simp only [Shape.depth]; omega)
    simp only [Shape.split, Prod.mk.injEq] at hpieces hothers
    have hcons : (some n :: ns).filterMap id = n :: ns.filterMap id := rfl
    simp only [Shape.split, hcons, List.flatMap_cons, hpieces, hothers, inRole_append]

theorem perm_inRole (pieces : List (Role × Node)) :
    (inRole .bound pieces ++ inRole .evaluated pieces).Perm
      ((pieces.filter (·.1 ≠ .key)).map Prod.snd) := by
  induction pieces with
  | nil => exact .nil
  | cons piece pieces ih =>
    obtain ⟨role, n⟩ := piece
    cases role with
    | bound => simpa using ih
    | evaluated => simpa using List.perm_middle.trans (ih.cons n)
    | key => simpa using ih

/-- A pattern binds the pieces that are there to be bound and evaluates those that are there to be
evaluated, each once and from left to right. Together that is every piece but the plain keys. -/
theorem pattern_split {n : Node} (h : Pieces (.pattern n) pieces) :
    n.boundIdentifiers = inRole .bound pieces ∧ n.evaluatedExpressions = inRole .evaluated pieces ∧
      (n.boundIdentifiers ++ n.evaluatedExpressions).Perm
        ((pieces.filter (·.1 ≠ .key)).map Prod.snd) := by
  have hsplit := h.split_eq (Nat.le_refl n.depth)
  simp only [Shape.split, Prod.mk.injEq] at hsplit
  obtain ⟨hbound, hevaluated⟩ := hsplit
  rw [boundIdentifiers, evaluatedExpressions, hbound, hevaluated]
  exact ⟨rfl, rfl, perm_inRole pieces⟩

/-- The pattern `{a, [k]: [b = d, , ...o.p], ...r}`, whose plain key is the name it binds. -/
theorem pattern_split_nested :
    let name := fun (s : String) (start : Nat) =>
      ({ kind := "Identifier", start, stop := start + 1, fields := [("name", .string s)] } : Node)
    let withDefault : Node :=
      { kind := "AssignmentPattern", start := 10, stop := 15,
        fields := [("left", .node (name "b" 10)), ("right", .node (name "d" 14))] }
    let member := new "MemberExpression" 22 25
    let rest : Node :=
      { kind := "RestElement", start := 19, stop := 25, fields := [("argument", .node member)] }
    let array : Node :=
      { kind := "ArrayPattern", start := 9, stop := 26,
        fields := [("elements", .ofSparse [some withDefault, none, some rest])] }
    let pattern : Node :=
      { kind := "ObjectPattern", start := 0, stop := 33,
        fields := [("properties", .nodes [
          { kind := "Property", start := 1, stop := 2,
            fields := Script.patternProperty (name "a" 1) (name "a" 1) true false },
          { kind := "Property", start := 4, stop := 26,
            fields := Script.patternProperty (name "k" 5) array false true },
          { kind := "RestElement", start := 28, stop := 32,
            fields := [("argument", .node (name "r" 31))] }])] }
    pattern.boundIdentifiers = [name "a" 1, name "b" 10, name "r" 31] ∧
      pattern.evaluatedExpressions = [name "k" 5, name "d" 14, member] := by
  intro name withDefault member rest array pattern
  have hdefault := Pieces.withDefault (n := withDefault) rfl rfl (.identifier rfl)
  have hrest := Pieces.rest (n := rest) rfl rfl (.member rfl)
  have harray := Pieces.array (n := array) rfl rfl (.element hdefault (.hole (.element hrest .noElement)))
  have hpattern : Pieces (.pattern pattern) _ :=
    .object rfl rfl (.property rfl rfl (.identifier rfl) (.property rfl rfl harray
      (.restProperty rfl rfl (.identifier rfl) .noProperty)))
  obtain ⟨hbound, hevaluated, -⟩ := pattern_split hpattern
  exact ⟨hbound, hevaluated⟩

end SvelteSyntax.Node
