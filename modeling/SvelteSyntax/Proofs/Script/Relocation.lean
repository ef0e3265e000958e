import SvelteSyntax.Proofs.Script.Builder

namespace SvelteSyntax

mutual

/-- The tree moved `d` bytes to the right. -/
def Node.shift (d : Nat) : Node → Node
  | { kind, start, stop, loc, fields, placeholder, visited } =>
    { kind, start := start + d, stop := stop + d, loc,
      fields := Node.shiftFields d fields, placeholder, visited }

def Node.shiftFields (d : Nat) : List (String × Value) → List (String × Value)
  | [] => []
  | (k, v) :: fs => (k, v.shift d) :: Node.shiftFields d fs

def Value.shift (d : Nat) : Value → Value
  | .node n => .node (n.shift d)
  | .nodes ns => .nodes (Node.shiftList d ns)
  | .sparse ns => .sparse (Node.shiftSparse d ns)
  | .object es => .object (Node.shiftFields d es)
  | .null => .null
  | .bool b => .bool b
  | .number n => .number n
  | .string s => .string s
  | .strings ss => .strings ss

def Node.shiftList (d : Nat) : List Node → List Node
  | [] => []
  | n :: ns => n.shift d :: Node.shiftList d ns

def Node.shiftSparse (d : Nat) : List (Option Node) → List (Option Node)
  | [] => []
  | none :: ns => none :: Node.shiftSparse d ns
  | some n :: ns => some (n.shift d) :: Node.shiftSparse d ns

end

theorem Node.shiftList_eq_map (d : Nat) (ns : List Node) : Node.shiftList d ns = ns.map (Node.shift d) := by
  induction ns with
  | nil => rw [Node.shiftList, List.map_nil]
  | cons n ns ih => rw [Node.shiftList, ih, List.map_cons]

theorem Node.shiftSparse_eq_map (d : Nat) (ns : List (Option Node)) :
    Node.shiftSparse d ns = ns.map (Option.map (Node.shift d)) := by
  induction ns with
  | nil => rw [Node.shiftSparse, List.map_nil]
  | cons n ns ih =>
    cases n with
    | none => rw [Node.shiftSparse, ih, List.map_cons, Option.map_none]
    | some n => rw [Node.shiftSparse, ih, List.map_cons, Option.map_some]

def Token.shift (d : Nat) (t : Token) : Token := { t with start := t.start + d, stop := t.stop + d }

def Comment.shift (d : Nat) (c : Comment) : Comment := { c with start := c.start + d, stop := c.stop + d }

def Streams.shift (d : Nat) (s : Streams) : Streams :=
  ⟨s.tokens.map (Token.shift d), s.comments.map (Comment.shift d)⟩

namespace Script

open Text

namespace Builder

/-- The builder for the same text at a place `d` bytes further on. -/
def moved (d : Nat) (b : Builder) : Builder := { b with shift := b.shift + d }

/-- No end of the span is cut off. -/
def Clear (b : Builder) (s : Span) : Prop := 0 ≤ s.start + b.shift ∧ 0 ≤ s.stop + b.shift

variable {b : Builder} {d : Nat} {x y : Syntax} {s : Span} {spot : Spot} {kind key : String}
  {xs : List Syntax} {fields fields' : List (String × Value)} {v v' : Value} {n n' : Node}

theorem node_moved (hs : b.Clear s) (h : fields' = Node.shiftFields d fields) :
    (b.moved d).node kind s fields' = (b.node kind s fields).shift d := by
  obtain ⟨hstart, hstop⟩ := hs
  rw [h, node, node, Node.shift]
  congr 1
  · simp only [offset, moved]
    omega
  · simp only [offset, moved]
    omega

theorem place_moved (hx : b.Clear x.span) (h : n' = n.shift d) :
    (b.moved d).place spot x n' = (b.place spot x n).shift d := by
  unfold place
  split
  · exact h
  · exact node_moved hx (by rw [Node.shiftFields])

/-- What is published for the syntax at the other place. -/
structure Moves (b : Builder) (d : Nat) (x : Syntax) : Prop where
  clear : b.Clear x.span
  build : (b.moved d).build x = (b.build x).shift d

theorem Moves.place (h : b.Moves d x) :
    (b.moved d).place spot x ((b.moved d).build x) = (b.place spot x (b.build x)).shift d :=
  place_moved h.clear h.build

section Fields

theorem fields_nil : [] = Node.shiftFields d [] := by rw [Node.shiftFields]

theorem fields_cons (hv : v' = v.shift d) (h : fields' = Node.shiftFields d fields) :
    (key, v') :: fields' = Node.shiftFields d ((key, v) :: fields) := by
  rw [hv, h, Node.shiftFields]

theorem value_node (h : n' = n.shift d) : Value.node n' = (Value.node n).shift d := by
  rw [h, Value.shift]

theorem value_nodes {ns ns' : List Node} (h : ns' = ns.map (Node.shift d)) :
    Value.nodes ns' = (Value.nodes ns).shift d := by
  rw [h, Value.shift, Node.shiftList_eq_map]

theorem value_ofOption {o o' : Option Node} (h : o' = o.map (Node.shift d)) :
    Value.ofOption o' = (Value.ofOption o).shift d := by
  subst h
  cases o <;> rfl

theorem value_ofSparse {ns ns' : List (Option Node)} (h : ns' = ns.map (Option.map (Node.shift d))) :
    Value.ofSparse ns' = (Value.ofSparse ns).shift d := by
  subst h
  unfold Value.ofSparse
  have hall : (ns.map (Option.map (Node.shift d))).all Option.isSome = ns.all Option.isSome := by
    simp [List.all_map, Function.comp_def]
  rw [hall]
  split
  · rw [Value.shift, Node.shiftList_eq_map]
    congr 1
    simp [List.filterMap_map, List.map_filterMap]
  · rw [Value.shift, Node.shiftSparse_eq_map]

theorem list_moved (h : ∀ y ∈ xs, b.Moves d y) :
    (b.moved d).list spot xs = (b.list spot xs).map (Node.shift d) := by
  rw [list_eq_map, list_eq_map, List.map_map]
  exact List.map_congr_left fun y hy => (h y hy).place

theorem all_moved (h : ∀ y ∈ xs, b.Moves d y) :
    (b.moved d).all xs = (b.all xs).map (Node.shift d) := by
  rw [all_eq_map, all_eq_map, List.map_map]
  exact List.map_congr_left fun y hy => (h y hy).build

theorem option_moved {o : Option Syntax} (h : ∀ y ∈ o.toList, b.Moves d y) :
    (b.moved d).option spot o = (b.option spot o).map (Node.shift d) := by
  cases o with
  | none => rfl
  | some y => exact congrArg some (h y (by simp)).place

theorem option?_moved {o : Option Syntax} (h : ∀ y ∈ o.toList, b.Moves d y) :
    (b.moved d).option? o = (b.option? o).map (Node.shift d) := by
  cases o with
  | none => rfl
  | some y => exact congrArg some (h y (by simp)).build

theorem sparse_moved {xs : List (Option Syntax)} (h : ∀ y ∈ xs.filterMap id, b.Moves d y) :
    (b.moved d).sparse spot xs = (b.sparse spot xs).map (Option.map (Node.shift d)) := by
  rw [sparse_eq_map, sparse_eq_map, List.map_map]
  refine List.map_congr_left fun o ho => ?_
  cases o with
  | none => rfl
  | some y => exact congrArg some (h y (by simpa using ho)).place

theorem append_option?_moved {ns ns' : List Node} {o : Option Syntax}
    (h : ns' = ns.map (Node.shift d)) (ho : ∀ y ∈ o.toList, b.Moves d y) :
    Value.nodes (ns' ++ ((b.moved d).option? o).toList) =
      (Value.nodes (ns ++ (b.option? o).toList)).shift d := by
  refine value_nodes ?_
  rw [h, option?_moved ho, List.map_append]
  cases b.option? o <;> rfl

theorem sparse_append_moved {xs : List (Option Syntax)} {o : Option Syntax}
    (h : ∀ y ∈ xs.filterMap id, b.Moves d y) (ho : ∀ y ∈ o.toList, b.Moves d y) :
    Value.ofSparse ((b.moved d).sparse spot xs ++ ((b.moved d).option? o).toList.map some) =
      (Value.ofSparse (b.sparse spot xs ++ (b.option? o).toList.map some)).shift d := by
  refine value_ofSparse ?_
  rw [sparse_moved h, option?_moved ho, List.map_append]
  cases b.option? o <;> rfl

theorem functionFields_moved {id id' body body' : Value} {params : List Syntax} {rest : Option Syntax}
    {async generator expression : Bool} (hid : id' = id.shift d) (hparams : ∀ y ∈ params, b.Moves d y)
    (hrest : ∀ y ∈ rest.toList, b.Moves d y) (hbody : body' = body.shift d) :
    functionFields id' ((b.moved d).all params ++ ((b.moved d).option? rest).toList) body' async
        generator expression =
      Node.shiftFields d (functionFields id (b.all params ++ (b.option? rest).toList) body async generator
        expression) :=
  fields_cons hid (fields_cons (append_option?_moved (all_moved hparams) hrest)
    (fields_cons hbody (fields_cons rfl (fields_cons rfl (fields_cons rfl fields_nil)))))

theorem propertyFields_moved {k k' value value' : Node} {method shorthand computed : Bool}
    (hk : k' = k.shift d) (hvalue : value' = value.shift d) :
    propertyFields k' value' kind method shorthand computed =
      Node.shiftFields d (propertyFields k value kind method shorthand computed) :=
  fields_cons (value_node hk) (fields_cons (value_node hvalue)
    (fields_cons rfl (fields_cons rfl (fields_cons rfl (fields_cons rfl fields_nil)))))

end Fields

/-- A tree is moved by moving every span in it, if no span is cut off. -/
theorem build_moved (x : Syntax) (h : ∀ y ∈ x.nodes, b.Clear y.span) :
    (b.moved d).build x = (b.build x).shift d := by
  induction x using Syntax.induct with
  | step x ih =>
    have hx : b.Clear x.span := h x (Syntax.mem_nodes_self x)
    have hinner : ∀ y ∈ x.inner, b.Moves d y := fun y hy =>
      ⟨h y (List.mem_cons_of_mem _ hy), ih y hy fun z hz => h z (Syntax.nodes_subset x y hy hz)⟩
    have hp : ∀ y ∈ x.parts, b.Moves d y := fun y hy => hinner y (Syntax.mem_inner_of_mem_parts hy)
    cases x
    case parenthesised | parameter =>
      exact (hp _ (by simp [Syntax.parts])).place
    case property | bindingProperty | targetProperty =>
      exact node_moved hx (propertyFields_moved (hp _ (by simp [Syntax.parts])).place
        (hp _ (by simp [Syntax.parts])).place)
    case chunk s raw cooked tail =>
      refine node_moved hx (fields_cons ?_ (fields_cons rfl fields_nil))
      cases cooked <;> rfl
    case targetShorthand s name value =>
      have hname := hp name (by simp [Syntax.parts])
      cases value with
      | none =>
        exact node_moved hx (propertyFields_moved hname.place hname.build)
      | some value =>
        refine node_moved hx (propertyFields_moved hname.place (node_moved hx
          (fields_cons (value_node hname.build) (fields_cons (value_node ?_) fields_nil))))
        exact (hp value (by simp [Syntax.parts])).place
    case arrow s types params rest returns body async expression =>
      have hparams : ∀ y ∈ params, b.Moves d y := fun y hy => hp y (by simp [Syntax.parts, hy])
      have hrest : ∀ y ∈ rest.toList, b.Moves d y := fun y hy =>
        hp y (by simp [Syntax.parts, Option.mem_toList.mp hy])
      have hbody : body ∈ (Syntax.arrow s types params rest returns body async expression).inner :=
        Syntax.mem_inner_of_mem_parts (by simp [Syntax.parts])
      rcases build_arrow s types params rest returns body async expression with ⟨e, he, h⟩ | h
      · have he : e ∈ (Syntax.arrow s types params rest returns body async expression).inner := by
          rcases List.mem_cons.mp he with rfl | he
          · exact hbody
          · exact Syntax.mem_inner_trans hbody he
        rw [h, h]
        exact node_moved hx (functionFields_moved rfl hparams hrest (value_node (hinner e he).place))
      · rw [h, h]
        exact node_moved hx (functionFields_moved rfl hparams hrest (value_node (hinner body hbody).build))
    case function s declares id types params rest returns body async generator =>
      refine node_moved hx (functionFields_moved (value_ofOption (option?_moved fun y hy => ?_))
        (fun y hy => ?_) (fun y hy => ?_) (value_ofOption (option?_moved fun y hy => ?_)))
      · exact hp y (by simp [Syntax.parts, Option.mem_toList.mp hy])
      · exact hp y (by simp [Syntax.parts, hy])
      · exact hp y (by simp [Syntax.parts, Option.mem_toList.mp hy])
      · exact hp y (by simp [Syntax.parts, Option.mem_toList.mp hy])
    case functionBody s directives statements =>
      refine node_moved hx (fields_cons (value_nodes ?_) fields_nil)
      rw [all_moved fun y hy => hp y (by simp [Syntax.parts, hy]),
        list_moved fun y hy => hp y (by simp [Syntax.parts, hy]), List.map_append]
    case arrayPattern s elements rest | arrayTarget s elements rest =>
      refine node_moved hx (fields_cons (sparse_append_moved (fun y hy => ?_) fun y hy => ?_) fields_nil)
      · exact hp y (List.mem_append_left _ hy)
      · exact hp y (List.mem_append_right _ hy)
    all_goals
      refine node_moved hx ?_
      repeat' first
        | exact fields_nil
        | refine fields_cons ?_ ?_
      all_goals
        first
        | rfl
        | exact value_node (hp _ (by simp [Syntax.parts])).place
        | exact value_node (hp _ (by simp [Syntax.parts])).build
        | exact value_nodes (list_moved fun y hy => hp y (by simp [Syntax.parts, hy]))
        | exact value_nodes (all_moved fun y hy => hp y (by simp [Syntax.parts, hy]))
        | exact value_ofOption (option_moved fun y hy => hp y (by simp [Syntax.parts, Option.mem_toList.mp hy]))
        | exact value_ofOption (option?_moved fun y hy => hp y (by simp [Syntax.parts, Option.mem_toList.mp hy]))
        | exact value_ofSparse (sparse_moved fun y hy => hp y (by simpa [Syntax.parts] using hy))
        | exact append_option?_moved (all_moved fun y hy => hp y (by simp [Syntax.parts, hy]))
            fun y hy => hp y (by simp [Syntax.parts, Option.mem_toList.mp hy])

end Builder

theorem streamsFrom_add (d : Nat) (pieces : List Chunk) (offset : Nat) :
    streamsFrom (offset + d) pieces = (streamsFrom offset pieces).shift d := by
  induction pieces generalizing offset with
  | nil => rfl
  | cons chunk rest ih =>
    cases chunk with
    | blank c => rw [streamsFrom, streamsFrom, Nat.add_right_comm, ih]
    | comment kind body =>
      rw [streamsFrom, streamsFrom, Nat.add_right_comm, ih]
      rfl
    | token kind text =>
      rw [streamsFrom, streamsFrom, Nat.add_right_comm, ih]
      rfl

def ParsedExpression.shift (d : Nat) (e : ParsedExpression) : ParsedExpression :=
  ⟨e.expression.shift d, e.streams.shift d⟩

def ParsedProgram.shift (d : Nat) (p : ParsedProgram) : ParsedProgram :=
  ⟨p.program.shift d, p.streams.shift d⟩

/-- What comes of a text that stands `d` bytes further on. -/
def relocated {α : Type} (move : Nat → α → α) (d : Nat) (outcome : Except ScriptError α) :
    Except ScriptError α :=
  (outcome.map (move d)).mapError (·.shift d)

variable {α β : Type} {move : Nat → α → α} {move' : Nat → β → β} {d : Nat}

theorem tokenize_eq_relocated (d : Nat) (cs : List Char) :
    tokenize d cs = relocated Streams.shift d (tokenize 0 cs) := by
  unfold tokenize
  cases chunks cs with
  | error e => simp [relocated, Except.map, Except.mapError, ScriptError.shift]
  | ok pieces =>
    refine congrArg Except.ok ?_
    rw [← streamsFrom_add, Nat.zero_add]

theorem sliceAt_append (before text after : List Char) :
    sliceAt (before ++ text ++ after) (byteLength before) (byteLength before + byteLength text) =
      .ok text := by
  rw [sliceAt, slice?_append]

theorem sliceAt_whole (text : List Char) : sliceAt text 0 (byteLength text) = .ok text := by
  simpa using sliceAt_append [] text []

theorem relocated_bind {x : Except ScriptError α} {f f' : α → Except ScriptError β}
    (hf : ∀ a, f' (move d a) = relocated move' d (f a)) :
    relocated move d x >>= f' = relocated move' d (x >>= f) := by
  cases x with
  | error e => rfl
  | ok a => exact hf a

theorem relocated_error (message : String) :
    relocated move d (.error ⟨message, 0⟩) = .error ⟨message, d⟩ := by
  simp [relocated, Except.map, Except.mapError, ScriptError.shift]

variable {js : Frontend} {options : Options} {text : List Char}

/-- The parameter is behind the parenthesis that was put before the text. -/
theorem clear_of_params? {x param : Syntax} (start : Nat)
    (hx : js.expression? options.dialect (patternPrefix ++ text ++ patternSuffix) = some x)
    (hparams : x.params? = some [param]) :
    ∀ y ∈ param.nodes, Builder.Clear ⟨patternPrefix ++ text ++ patternSuffix,
      start - byteLength patternPrefix⟩ y.span := by
  intro y hy
  have hbehind := js.params_behind hx hparams param (List.mem_singleton_self param) y hy
  have hlead : byteLength patternPrefix = 1 := by decide
  simp only [Builder.Clear, hlead]
  omega

theorem readPattern_moved (js : Frontend) (options : Options) (d : Nat) (text : List Char) :
    readPattern js options d text = (readPattern js options 0 text).map (Node.shift d) := by
  unfold readPattern
  extract_lets wrapped
  cases hx : js.expression? options.dialect wrapped with
  | none => rfl
  | some x =>
    dsimp only
    split
    · rfl
    · next param hparams =>
      refine congrArg Except.ok ?_
      rw [← Builder.build_moved param (clear_of_params? 0 hx hparams)]
      congr 2
    · rfl

theorem moved_zero (text : List Char) (d : Nat) : Builder.moved d ⟨text, (0 : Nat)⟩ = ⟨text, d⟩ := by
  simp [Builder.moved]

theorem clear_natCast (text : List Char) (start : Nat) (s : Span) : Builder.Clear ⟨text, start⟩ s := by
  simp only [Builder.Clear]
  omega

theorem moves_whole (text : List Char) (d : Nat) (x : Syntax) : Builder.Moves ⟨text, (0 : Nat)⟩ d x :=
  ⟨clear_natCast .., Builder.build_moved x fun _ _ => clear_natCast ..⟩

theorem readExpression_moved (js : Frontend) (options : Options) (d : Nat) (text : List Char) :
    readExpression js options d text = (readExpression js options 0 text).map (Node.shift d) := by
  unfold readExpression
  split
  · rfl
  · next x hx =>
    refine congrArg Except.ok ?_
    rw [← moved_zero text d]
    exact (moves_whole text d x).place

theorem program_moved (text : List Char) (d : Nat) (p : SyntaxProgram) (sourceType : String) :
    Builder.program ⟨text, d⟩ p d (d + byteLength text) sourceType =
      (Builder.program ⟨text, (0 : Nat)⟩ p 0 (byteLength text) sourceType).shift d := by
  rw [← moved_zero text d, Builder.program, Builder.program, Node.shift]
  congr 1
  · omega
  · omega
  · refine Builder.fields_cons rfl (Builder.fields_cons (Builder.value_nodes ?_) Builder.fields_nil)
    rw [List.map_append, Builder.all_moved fun y _ => moves_whole text d y,
      Builder.list_moved fun y _ => moves_whole text d y]

theorem expressionAt_append (js : Frontend) (options : Options) (before text after : List Char)
    (assignable : Bool) :
    expressionAt js options (before ++ text ++ after) (byteLength before)
        (byteLength before + byteLength text) assignable =
      relocated ParsedExpression.shift (byteLength before)
        (expressionAt js options text 0 (byteLength text) assignable) := by
  unfold expressionAt
  rw [sliceAt_append, sliceAt_whole]
  change (if text.all isBlank = true then _ else _) =
    relocated _ _ (if text.all isBlank = true then _ else _)
  split
  · exact (relocated_error _).symm
  · rw [tokenize_eq_relocated]
    refine relocated_bind fun streams => ?_
    rw [readPattern_moved, readExpression_moved js options (byteLength before)]
    cases assignable with
    | true =>
      cases readPattern js options 0 text with
      | error message => exact (relocated_error _).symm
      | ok n => rfl
    | false =>
      cases readExpression js options 0 text with
      | error message => exact (relocated_error _).symm
      | ok n => rfl

theorem programAt_append (js : Frontend) (options : Options) (before text after : List Char) :
    programAt js options (before ++ text ++ after) (byteLength before)
        (byteLength before + byteLength text) =
      relocated ParsedProgram.shift (byteLength before)
        (programAt js options text 0 (byteLength text)) := by
  unfold programAt
  rw [sliceAt_append, sliceAt_whole]
  dsimp only [bind, Except.bind]
  cases hprogram : js.program? options.dialect text with
  | none => exact (relocated_error _).symm
  | some p =>
    change (tokenize (byteLength before) text >>= _) = relocated _ _ (tokenize 0 text >>= _)
    rw [tokenize_eq_relocated]
    refine relocated_bind fun streams => congrArg (fun p => Except.ok (ParsedProgram.mk p _)) ?_
    exact program_moved text _ p _

/-- Every node of the tree has a span of the syntax, which counts from `lead` bytes before `start`. -/
def Sits (lead start : Nat) (xs : List Syntax) (n : Node) : Prop :=
  ∀ m, n.InTree m → ∃ y ∈ xs,
    m.start + lead = y.span.start + start ∧ m.stop + lead = y.span.stop + start

theorem sits_of_makes {b : Builder} {lead start : Nat} {xs : List Syntax} {n : Node}
    (hshift : b.shift = start - lead) (hclear : ∀ y ∈ xs, b.Clear y.span)
    (h : b.Makes (· ∈ xs) n) : Sits lead start xs n := by
  intro m hm
  obtain ⟨y, hy, hstart, hstop⟩ := (h m hm).span
  have hspan := hclear y hy
  refine ⟨y, hy, ?_⟩
  simp only [Builder.Clear, Builder.offset] at hspan hstart hstop
  omega

theorem sits_of_readPattern {start : Nat} {n : Node} (h : readPattern js options start text = .ok n) :
    ∃ x param, js.expression? options.dialect (patternPrefix ++ text ++ patternSuffix) = some x ∧
      x.params? = some [param] ∧ Sits (byteLength patternPrefix) start param.nodes n := by
  obtain ⟨x, param, hx, hparams, rfl⟩ := exists_param_of_readPattern h
  exact ⟨x, param, hx, hparams,
    sits_of_makes rfl (clear_of_params? start hx hparams) (Builder.makes_build param fun _ hy => hy)⟩

theorem sits_of_readExpression {start : Nat} {n : Node}
    (h : readExpression js options start text = .ok n) :
    ∃ x, js.expression? options.dialect text = some x ∧ Sits 0 start x.nodes n := by
  unfold readExpression at h
  split at h
  · cases h
  · next x hx =>
    cases h
    have hmakes : Builder.Makes ⟨text, start⟩ (· ∈ x.nodes) (Builder.expression ⟨text, start⟩ x) :=
      Builder.makes_place (Syntax.mem_nodes_self x) (Builder.makes_build x fun _ hy => hy)
    exact ⟨x, hx, sits_of_makes (by simp) (fun _ _ => clear_natCast ..) hmakes⟩

theorem sits_of_program {start stop : Nat} {sourceType : String} {p : SyntaxProgram} {c : Node}
    (hc : c ∈ (Builder.program ⟨text, start⟩ p start stop sourceType).children "body") :
    Sits 0 start p.nodes c := by
  have hknows : ∀ y ∈ p.directives ++ p.statements,
      Builder.Knows ⟨text, start⟩ (· ∈ p.nodes) y := fun y hy =>
    have hnodes : ∀ z ∈ y.nodes, z ∈ p.nodes := fun z hz => List.mem_flatMap.mpr ⟨y, hy, hz⟩
    ⟨hnodes y (Syntax.mem_nodes_self y), Builder.makes_build y hnodes⟩
  rw [List.forall_mem_append] at hknows
  have hmakes : Builder.Makes ⟨text, start⟩ (· ∈ p.nodes) c := by
    rcases List.mem_append.mp hc with hc | hc
    · exact Builder.makes_all hknows.1 c hc
    · exact Builder.makes_list hknows.2 c hc
  exact sits_of_makes (by simp) (fun _ _ => clear_natCast ..) hmakes

/-- Parsing a slice is parsing its text and moving all that comes of it: trees, tokens, comments and
errors. No span is cut off at the start of the source, and what a pattern is put into is taken off
exactly. -/
theorem parser_relocates (js : Frontend) (options : Options) (before text after : List Char) :
    (∀ assignable,
      (js.parser options).expressionAt (before ++ text ++ after) (byteLength before)
          (byteLength before + byteLength text) assignable =
        relocated ParsedExpression.shift (byteLength before)
          ((js.parser options).expressionAt text 0 (byteLength text) assignable)) ∧
    (js.parser options).programAt (before ++ text ++ after) (byteLength before)
        (byteLength before + byteLength text) =
      relocated ParsedProgram.shift (byteLength before)
        ((js.parser options).programAt text 0 (byteLength text)) ∧
    (∀ start n, readPattern js options start text = .ok n →
      ∃ x param, js.expression? options.dialect (patternPrefix ++ text ++ patternSuffix) = some x ∧
        x.params? = some [param] ∧ Sits (byteLength patternPrefix) start param.nodes n) ∧
    (∀ start n, readExpression js options start text = .ok n →
      ∃ x, js.expression? options.dialect text = some x ∧ Sits 0 start x.nodes n) ∧
    ∀ (start stop : Nat) sourceType p, js.program? options.dialect text = some p →
      ∀ c ∈ (Builder.program ⟨text, start⟩ p start stop sourceType).children "body",
        Sits 0 start p.nodes c :=
  ⟨expressionAt_append js options before text after, programAt_append js options before text after,
    fun _ _ => sits_of_readPattern, fun _ _ => sits_of_readExpression,
    fun _ _ _ _ _ _ => sits_of_program⟩

end Script

end SvelteSyntax
