import SvelteSyntax.Proofs.Program.Stages.Parsing
import SvelteSyntax.Proofs.Script.Syntax

namespace SvelteSyntax.Script

open Program

def patternKinds : List String :=
  ["ObjectPattern", "ArrayPattern", "AssignmentPattern", "RestElement"]

namespace Builder

variable {b : Builder} {x y : Syntax} {spot : Spot} {n c : Node} {s : Span} {kind key : String}
  {fields : List (String × Value)}

theorem list_eq_map (b : Builder) (spot : Spot) (xs : List Syntax) :
    b.list spot xs = xs.map fun x => b.place spot x (b.build x) := by
  induction xs with
  | nil => rfl
  | cons x xs ih => exact congrArg (b.place spot x (b.build x) :: ·) ih

theorem all_eq_map (b : Builder) (xs : List Syntax) : b.all xs = xs.map b.build := by
  induction xs with
  | nil => rfl
  | cons x xs ih => exact congrArg (b.build x :: ·) ih

theorem sparse_eq_map (b : Builder) (spot : Spot) (xs : List (Option Syntax)) :
    b.sparse spot xs = xs.map (Option.map fun x => b.place spot x (b.build x)) := by
  induction xs with
  | nil => rfl
  | cons o xs ih =>
    cases o with
    | none => exact congrArg (none :: ·) ih
    | some x => exact congrArg (some (b.place spot x (b.build x)) :: ·) ih

theorem place_of_admits (h : spot.admits.contains x.category) (n : Node) : b.place spot x n = n :=
  if_pos h

/-- What an arrow function gives: an expression, or a block. -/
theorem build_arrow (s : Span) (types params : List Syntax) (rest : Option Syntax)
    (returns : List Syntax) (body : Syntax) (async expression : Bool) :
    (∃ e ∈ body.nodes, ∀ b : Builder,
      b.build (.arrow s types params rest returns body async expression) =
        b.node "ArrowFunctionExpression" s
          (functionFields .null (b.all params ++ (b.option? rest).toList)
            (.node (b.place .expression e (b.build e))) async false expression)) ∨
    ∀ b : Builder, b.build (.arrow s types params rest returns body async expression) =
      b.node "ArrowFunctionExpression" s
        (functionFields .null (b.all params ++ (b.option? rest).toList) (.node (b.build body)) async
          false expression) := by
  cases body
  case functionBody s₁ directives statements =>
    cases statements with
    | nil => exact .inr fun _ => rfl
    | cons x xs =>
      cases x
      case expressionStatement s₂ e =>
        cases expression with
        | false => exact .inr fun _ => rfl
        | true =>
          refine .inl ⟨e, List.mem_cons_of_mem _ (List.mem_append_right _ ?_), fun _ => rfl⟩
          exact List.mem_append_left _ (.tail _ (.head _))
      all_goals exact .inr fun _ => rfl
  all_goals exact .inr fun _ => rfl

theorem node_kind_not_pattern (hkind : kind ∉ patternKinds) : (b.node kind s fields).kind ∉ patternKinds :=
  hkind

theorem kind_place_not_pattern (h : spot.admits.contains x.category → n.kind ∉ patternKinds) :
    (b.place spot x n).kind ∉ patternKinds := by
  unfold place
  split
  · exact h ‹_›
  · refine node_kind_not_pattern ?_
    cases spot <;> decide

/-- What can be a key is not published as a pattern. -/
theorem kind_build_not_pattern (b : Builder) (x : Syntax) (h : Spot.key.admits.contains x.category) :
    (b.build x).kind ∉ patternKinds := by
  induction x using Syntax.induct with
  | step x ih =>
    cases x
    case parenthesised s x =>
      have hx : x ∈ (Syntax.parenthesised s x).inner := Syntax.mem_inner_of_mem_parts (by simp [Syntax.parts])
      exact kind_place_not_pattern fun hspot => ih x hx (by simpa [Spot.admits] using .inr (by simpa [Spot.admits] using hspot))
    case arrow =>
      rcases build_arrow .. with ⟨e, -, h⟩ | h
      · rw [h]
        exact node_kind_not_pattern (by decide)
      · rw [h]
        exact node_kind_not_pattern (by decide)
    case function s declares id types params rest returns body async generator =>
      cases declares
      · exact node_kind_not_pattern (by decide)
      · exact Bool.noConfusion h
    case classLike s declares decorators id types superClass heritage body =>
      cases declares
      · exact node_kind_not_pattern (by decide)
      · exact Bool.noConfusion h
    all_goals
      first
      | exact Bool.noConfusion h
      | exact node_kind_not_pattern (by decide)

/-- What is known about a published node, if all that is published is from syntax in `S`. -/
structure Made (b : Builder) (S : Syntax → Prop) (m : Node) : Prop where
  placeholder : m.placeholder = false
  kind : m.kind ∉ markupKinds
  span : ∃ y, S y ∧ m.start = b.offset y.span.start ∧ m.stop = b.offset y.span.stop
  identifier : m.kind = "Identifier" → ∃ y name, S y ∧ y.name? = some name ∧ m = b.identifier y.span name
  /-- What may be a shorthand has each of its fields once, and no pattern in the first of them. -/
  fieldNames : (shorthandFields? m.kind).isSome → m.fieldNames.Nodup
  first : ∀ first second k, shorthandFields? m.kind = some (first, second) →
    m.child? first = some k → k.kind ∉ patternKinds

def Makes (b : Builder) (S : Syntax → Prop) (n : Node) : Prop := ∀ m, n.InTree m → b.Made S m

section Makes

variable {S : Syntax → Prop} {v : Value} {xs : List Syntax}

/-- All that stands in a field. -/
def MakesIn (b : Builder) (S : Syntax → Prop) (_ : String) (v : Value) : Prop :=
  ∀ c, v.Holds c → b.Makes S c

theorem makes_of_made (h : b.Made S n) (hfields : Fields.All (b.MakesIn S) n.fields) : b.Makes S n :=
  Node.forall_inTree.mpr ⟨h, fun c ⟨_, _, hmem, hc⟩ => hfields _ hmem c hc⟩

def plainKinds (kind : String) : Bool :=
  kind != "Identifier" && (shorthandFields? kind).isNone && !markupKinds.contains kind

theorem made_node (hx : S x) (hkind : plainKinds kind) : b.Made S (b.node kind x.span fields) := by
  simp only [plainKinds, Bool.and_eq_true, bne_iff_ne, ne_eq, Option.isNone_iff_eq_none, Bool.not_eq_true',
    List.contains_eq_mem, decide_eq_false_iff_not] at hkind
  obtain ⟨⟨hidentifier, hshort⟩, hmarkup⟩ := hkind
  exact
    { placeholder := rfl
      kind := hmarkup
      span := ⟨x, hx, rfl, rfl⟩
      identifier := fun h => absurd h hidentifier
      fieldNames := fun h => by rw [show (b.node kind x.span fields).kind = kind from rfl, hshort] at h; cases h
      first := fun _ _ _ h => by rw [show (b.node kind x.span fields).kind = kind from rfl, hshort] at h; cases h }

theorem makes_node (hx : S x) (hs : x.span = s) (hkind : plainKinds kind)
    (hfields : Fields.All (b.MakesIn S) fields) : b.Makes S (b.node kind s fields) :=
  makes_of_made (hs ▸ made_node hx hkind) hfields

theorem makes_place (hx : S x) (h : b.Makes S n) : b.Makes S (b.place spot x n) := by
  unfold place
  split
  · exact h
  · refine makes_node hx rfl ?_ .nil
    cases spot <;> decide

theorem makesIn_node (h : b.Makes S n) : b.MakesIn S key (.node n) := by
  rintro c ⟨⟩
  exact h

theorem makesIn_nodes {ns : List Node} (h : ∀ n ∈ ns, b.Makes S n) : b.MakesIn S key (.nodes ns) :=
  fun c hc => h c (Value.holds_nodes.mp hc)

theorem makesIn_ofOption {o : Option Node} (h : ∀ n ∈ o, b.Makes S n) :
    b.MakesIn S key (.ofOption o) :=
  fun c hc => h c (Value.holds_ofOption.mp hc)

theorem makesIn_ofSparse {ns : List (Option Node)} (h : ∀ n, some n ∈ ns → b.Makes S n) :
    b.MakesIn S key (.ofSparse ns) := by
  intro c hc
  unfold Value.ofSparse at hc
  split at hc
  · rw [Value.holds_nodes, List.mem_filterMap] at hc
    obtain ⟨o, ho, rfl⟩ := hc
    exact h c ho
  · exact h c (Value.holds_sparse.mp hc)

theorem makesIn_plain (h : ∀ c, ¬v.Holds c) : b.MakesIn S key v := fun c hc => absurd hc (h c)

/-- A part of the syntax, and what is published for it. -/
def Knows (b : Builder) (S : Syntax → Prop) (y : Syntax) : Prop := S y ∧ b.Makes S (b.build y)

theorem Knows.place (h : b.Knows S y) : b.Makes S (b.place spot y (b.build y)) := makes_place h.1 h.2

theorem makes_list (h : ∀ y ∈ xs, b.Knows S y) : ∀ n ∈ b.list spot xs, b.Makes S n := by
  rw [list_eq_map, List.forall_mem_map]
  exact fun y hy => (h y hy).place

theorem makes_all (h : ∀ y ∈ xs, b.Knows S y) : ∀ n ∈ b.all xs, b.Makes S n := by
  rw [all_eq_map, List.forall_mem_map]
  exact fun y hy => (h y hy).2

theorem makes_option {o : Option Syntax} (h : ∀ y ∈ o.toList, b.Knows S y) :
    ∀ n ∈ b.option spot o, b.Makes S n := by
  cases o with
  | none => exact nofun
  | some y =>
    rintro n ⟨⟩
    exact (h y (by simp)).place

theorem makes_option? {o : Option Syntax} (h : ∀ y ∈ o.toList, b.Knows S y) :
    ∀ n ∈ b.option? o, b.Makes S n := by
  cases o with
  | none => exact nofun
  | some y =>
    rintro n ⟨⟩
    exact (h y (by simp)).2

theorem makes_sparse {xs : List (Option Syntax)} (h : ∀ y ∈ xs.filterMap id, b.Knows S y) :
    ∀ n, some n ∈ b.sparse spot xs → b.Makes S n := by
  intro n hn
  rw [sparse_eq_map, List.mem_map] at hn
  obtain ⟨o, ho, hn⟩ := hn
  obtain ⟨y, rfl, rfl⟩ := Option.map_eq_some_iff.mp hn
  exact (h y (by simpa using ho)).place

theorem makesIn_append_option? {o : Option Syntax} {ns : List Node} (h : ∀ n ∈ ns, b.Makes S n)
    (ho : ∀ y ∈ o.toList, b.Knows S y) : b.MakesIn S key (.nodes (ns ++ (b.option? o).toList)) :=
  makesIn_nodes (List.forall_mem_append.mpr ⟨h, fun n hn => makes_option? ho n (Option.mem_toList.mp hn)⟩)

theorem makesIn_sparse_append {xs : List (Option Syntax)} {o : Option Syntax}
    (h : ∀ y ∈ xs.filterMap id, b.Knows S y) (ho : ∀ y ∈ o.toList, b.Knows S y) :
    b.MakesIn S key (.ofSparse (b.sparse spot xs ++ (b.option? o).toList.map some)) := by
  refine makesIn_ofSparse fun n hn => ?_
  rcases List.mem_append.mp hn with hn | hn
  · exact makes_sparse h n hn
  · obtain ⟨m, hm, hsome⟩ := List.mem_map.mp hn
    cases hsome
    exact makes_option? ho n (Option.mem_toList.mp hm)

theorem makes_identifier {name : String} (hx : S x) (hs : x.span = s) (hname : x.name? = some name) :
    b.Makes S (b.identifier s name) := by
  subst hs
  refine makes_of_made ?_ (.one (makesIn_plain (by simp)))
  exact
    { placeholder := rfl
      kind := by simp only [identifier, node]; decide
      span := ⟨x, hx, rfl, rfl⟩
      identifier := fun _ => ⟨x, name, hx, hname, rfl⟩
      fieldNames := nofun
      first := nofun }

theorem makes_literal {value : Value} {extra : List (String × Value)} (hx : S x) (hs : x.span = s)
    (hvalue : ∀ c, ¬value.Holds c) (hextra : Fields.All (b.MakesIn S) extra) :
    b.Makes S (b.literal s value extra) :=
  makes_node hx hs (by decide)
    (.append (.cons (makesIn_plain hvalue) (.one (makesIn_plain (by simp)))) hextra)

theorem makes_property {k value : Node} {kind' : String} {method shorthand computed : Bool} (hx : S x)
    (hs : x.span = s) (hkey : k.kind ∉ patternKinds) (hk : b.Makes S k) (hvalue : b.Makes S value) :
    b.Makes S (b.node "Property" s (propertyFields k value kind' method shorthand computed)) := by
  subst hs
  refine makes_of_made ?_ (.cons (makesIn_node hk) (.cons (makesIn_node hvalue)
    (.cons (makesIn_plain (by simp)) (.cons (makesIn_plain (by simp))
      (.cons (makesIn_plain (by simp)) (.one (makesIn_plain (by simp))))))))
  refine
    { placeholder := rfl
      kind := by simp only [node]; decide
      span := ⟨x, hx, rfl, rfl⟩
      identifier := fun h => absurd h (by simp only [node]; decide)
      fieldNames := fun _ => ?_
      first := fun first second k' hshort hk' => ?_ }
  · simp [Node.fieldNames, Fields.names, node, propertyFields]
  · cases hshort
    cases hk'
    exact hkey

theorem makes_importSpecifier {imported name : Node} (hx : S x) (hs : x.span = s)
    (hkey : imported.kind ∉ patternKinds) (himported : b.Makes S imported) (hname : b.Makes S name) :
    b.Makes S (b.node "ImportSpecifier" s [("imported", .node imported), ("local", .node name)]) := by
  subst hs
  refine makes_of_made ?_ (.cons (makesIn_node himported) (.one (makesIn_node hname)))
  refine
    { placeholder := rfl
      kind := by simp only [node]; decide
      span := ⟨x, hx, rfl, rfl⟩
      identifier := fun h => absurd h (by simp only [node]; decide)
      fieldNames := fun _ => ?_
      first := fun first second k' hshort hk' => ?_ }
  · simp [Node.fieldNames, Fields.names, node]
  · cases hshort
    cases hk'
    exact hkey

theorem makesIn_functionFields {id body : Value} {params : List Syntax} {rest : Option Syntax}
    {async generator expression : Bool} (hid : b.MakesIn S "id" id)
    (hparams : ∀ y ∈ params, b.Knows S y) (hrest : ∀ y ∈ rest.toList, b.Knows S y)
    (hbody : b.MakesIn S "body" body) :
    Fields.All (b.MakesIn S)
      (functionFields id (b.all params ++ (b.option? rest).toList) body async generator expression) :=
  .cons hid (.cons (makesIn_append_option? (makes_all hparams) hrest) (.cons hbody
    (.cons (makesIn_plain (by simp)) (.cons (makesIn_plain (by simp)) (.one (makesIn_plain (by simp)))))))

theorem kind_key_not_pattern (b : Builder) (y : Syntax) :
    (b.place .key y (b.build y)).kind ∉ patternKinds :=
  kind_place_not_pattern (kind_build_not_pattern b y)

theorem makes_build (x : Syntax) (hS : ∀ y ∈ x.nodes, S y) : b.Makes S (b.build x) := by
  induction x using Syntax.induct with
  | step x ih =>
    have hx : S x := hS x (Syntax.mem_nodes_self x)
    have hinner : ∀ y ∈ x.inner, b.Knows S y := fun y hy =>
      ⟨hS y (List.mem_cons_of_mem _ hy), ih y hy fun z hz => hS z (Syntax.nodes_subset x y hy hz)⟩
    have hp : ∀ y ∈ x.parts, b.Knows S y := fun y hy => hinner y (Syntax.mem_inner_of_mem_parts hy)
    cases x
    case reference | binding | word => exact makes_identifier hx rfl rfl
    case boolean | null | number | string =>
      exact makes_literal hx rfl (by simp) .nil
    case bigint =>
      exact makes_literal hx rfl (by simp) (.one (makesIn_plain (by simp)))
    case regex =>
      exact makes_literal hx rfl (by simp) (.one (makesIn_plain (by simp)))
    case chunk s raw cooked tail =>
      refine makes_node hx rfl (by decide) (.cons (makesIn_plain fun c => ?_) (.one (makesIn_plain (by simp))))
      cases cooked <;> simp
    case parenthesised | parameter =>
      exact (hp _ (by simp [Syntax.parts])).place
    case property | bindingProperty | targetProperty =>
      exact makes_property hx rfl (kind_key_not_pattern b _) (hp _ (by simp [Syntax.parts])).place
        (hp _ (by simp [Syntax.parts])).place
    case importSpecifier =>
      exact makes_importSpecifier hx rfl (kind_key_not_pattern b _) (hp _ (by simp [Syntax.parts])).place
        (hp _ (by simp [Syntax.parts])).2
    case targetShorthand s name value =>
      have hname := hp name (by simp [Syntax.parts])
      cases value with
      | none =>
        exact makes_property hx rfl (kind_key_not_pattern b _) hname.place hname.2
      | some value =>
        refine makes_property hx rfl (kind_key_not_pattern b _) hname.place
          (makes_node hx rfl (by decide) (.cons (makesIn_node hname.2) (.one (makesIn_node ?_))))
        exact (hp value (by simp [Syntax.parts])).place
    case arrow s types params rest returns body async expression =>
      have hparams : ∀ y ∈ params, b.Knows S y := fun y hy => hp y (by simp [Syntax.parts, hy])
      have hrest : ∀ y ∈ rest.toList, b.Knows S y := fun y hy =>
        hp y (by simp [Syntax.parts, Option.mem_toList.mp hy])
      have hbody : body ∈ (Syntax.arrow s types params rest returns body async expression).inner :=
        Syntax.mem_inner_of_mem_parts (by simp [Syntax.parts])
      rcases build_arrow s types params rest returns body async expression with ⟨e, he, h⟩ | h
      · have he : e ∈ (Syntax.arrow s types params rest returns body async expression).inner := by
          rcases List.mem_cons.mp he with rfl | he
          · exact hbody
          · exact Syntax.mem_inner_trans hbody he
        rw [h]
        exact makes_node hx rfl (by decide) (makesIn_functionFields (makesIn_plain (by simp)) hparams hrest
          (makesIn_node (hinner e he).place))
      · rw [h]
        exact makes_node hx rfl (by decide) (makesIn_functionFields (makesIn_plain (by simp)) hparams hrest
          (makesIn_node (hinner body hbody).2))
    case function s declares id types params rest returns body async generator =>
      refine makes_node hx rfl (by cases declares <;> decide) (makesIn_functionFields
        (makesIn_ofOption (makes_option? fun y hy => ?_)) (fun y hy => ?_) (fun y hy => ?_)
        (makesIn_ofOption (makes_option? fun y hy => ?_)))
      · exact hp y (by simp [Syntax.parts, Option.mem_toList.mp hy])
      · exact hp y (by simp [Syntax.parts, hy])
      · exact hp y (by simp [Syntax.parts, Option.mem_toList.mp hy])
      · exact hp y (by simp [Syntax.parts, Option.mem_toList.mp hy])
    case classLike s declares decorators id types superClass heritage body =>
      refine makes_node hx rfl (by cases declares <;> decide) (.cons
        (makesIn_ofOption (makes_option? fun y hy => ?_)) (.cons
          (makesIn_ofOption (makes_option fun y hy => ?_)) (.one (makesIn_node ?_))))
      · exact hp y (by simp [Syntax.parts, Option.mem_toList.mp hy])
      · exact hp y (by simp [Syntax.parts, Option.mem_toList.mp hy])
      · exact (hp body (by simp [Syntax.parts])).2
    case functionBody s directives statements =>
      refine makes_node hx rfl (by decide) (.one (makesIn_nodes (List.forall_mem_append.mpr
        ⟨makes_all fun y hy => ?_, makes_list fun y hy => ?_⟩)))
      · exact hp y (by simp [Syntax.parts, hy])
      · exact hp y (by simp [Syntax.parts, hy])
    case arrayPattern s elements rest | arrayTarget s elements rest =>
      refine makes_node hx rfl (by decide) (.one (makesIn_sparse_append (fun y hy => ?_) fun y hy => ?_))
      · exact hp y (List.mem_append_left _ hy)
      · exact hp y (List.mem_append_right _ hy)
    all_goals
      refine makes_node hx rfl (by decide) ?_
      repeat' first
        | exact Fields.All.nil
        | refine Fields.All.cons ?_ ?_
      all_goals
        first
        | exact makesIn_node (hp _ (by simp [Syntax.parts])).place
        | exact makesIn_node (hp _ (by simp [Syntax.parts])).2
        | exact makesIn_nodes (makes_list fun y hy => hp y (by simp [Syntax.parts, hy]))
        | exact makesIn_nodes (makes_all fun y hy => hp y (by simp [Syntax.parts, hy]))
        | exact makesIn_ofOption (makes_option fun y hy => hp y (by simp [Syntax.parts, Option.mem_toList.mp hy]))
        | exact makesIn_ofOption (makes_option? fun y hy => hp y (by simp [Syntax.parts, Option.mem_toList.mp hy]))
        | exact makesIn_ofSparse (makes_sparse fun y hy => hp y (by simpa [Syntax.parts] using hy))
        | exact makesIn_append_option? (makes_all fun y hy => hp y (by simp [Syntax.parts, hy]))
            fun y hy => hp y (by simp [Syntax.parts, Option.mem_toList.mp hy])
        | exact makesIn_plain (by simp)

end Makes

theorem Makes.scripted {S : Syntax → Prop} (h : b.Makes S n) : Scripted n := fun m hm =>
  ⟨(h m hm).placeholder, (h m hm).kind⟩

theorem knows (b : Builder) (x : Syntax) : b.Knows (fun _ => True) x :=
  ⟨trivial, makes_build x fun _ _ => trivial⟩

theorem scripted_program (b : Builder) (p : SyntaxProgram) (start stop : Nat) (sourceType : String) :
    Scripted (b.program p start stop sourceType) := by
  refine Node.forall_inTree.mpr ⟨⟨rfl, by simp only [program]; decide⟩, fun c hc => ?_⟩
  have hbody : b.Makes (fun _ => True) c := by
    simp only [Node.HasChild, program, Fields.hold_cons, Value.not_holds_string, Value.holds_nodes,
      Fields.hold_nil, or_false, false_or] at hc
    rcases List.mem_append.mp hc with hc | hc
    · exact makes_all (fun y _ => b.knows y) c hc
    · exact makes_list (fun y _ => b.knows y) c hc
  exact hbody.scripted

end Builder

theorem exists_param_of_readPattern {js : Frontend} {options : Options} {start : Nat} {text : List Char}
    {n : Node} (h : readPattern js options start text = .ok n) :
    ∃ x param, js.expression? options.dialect (patternPrefix ++ text ++ patternSuffix) = some x ∧
      x.params? = some [param] ∧
      n = Builder.build ⟨patternPrefix ++ text ++ patternSuffix,
        start - Text.byteLength patternPrefix⟩ param := by
  unfold readPattern at h
  extract_lets wrapped at h
  split at h
  · cases h
  · next x hx =>
    split at h
    · cases h
    · next param hparams =>
      cases h
      exact ⟨x, param, hx, hparams, rfl⟩
    · cases h

theorem parser_plain (js : Frontend) (options : Options) (source : List Char) :
    (js.parser options).Plain source where
  expression start stop assignable parsed h := by
    change expressionAt js options source start stop assignable = .ok parsed at h
    unfold expressionAt at h
    obtain ⟨text, -, h⟩ := Run.bind_eq_ok.mp h
    dsimp only at h
    split at h
    · cases h
    · obtain ⟨streams, -, h⟩ := Run.bind_eq_ok.mp h
      split at h
      · next n hread =>
        cases h
        split at hread
        · obtain ⟨x, param, -, -, rfl⟩ := exists_param_of_readPattern hread
          exact (Builder.knows _ _).2.scripted
        · unfold readExpression at hread
          split at hread
          · cases hread
          · cases hread
            exact (Builder.knows _ _).place.scripted
      · cases h
  program start stop parsed h := by
    change programAt js options source start stop = .ok parsed at h
    unfold programAt at h
    obtain ⟨text, -, h⟩ := Run.bind_eq_ok.mp h
    cases hp : js.program? options.dialect text with
    | none =>
      rw [hp] at h
      cases h
    | some p =>
      rw [hp] at h
      obtain ⟨streams, -, h⟩ := Run.bind_eq_ok.mp h
      cases h
      exact Builder.scripted_program _ _ _ _ _

end SvelteSyntax.Script
