import SvelteSyntax.Options
import SvelteSyntax.Scoping.Graph
import SvelteSyntax.Tree.Keys

namespace SvelteSyntax.Scoping

open Text

/-- A `$:` assignment, which declares its target unless something else does. -/
structure Reactive where
  scope : ScopeId
  name : String
  start : Nat
  stop : Nat
  deriving DecidableEq, Repr

structure Building where
  graph : Graph := {}
  reactive : List Reactive := []
  deriving Repr

abbrev Build := StateT Building (Except Fault)

/-- Walks a tree inside the scope that is being read. -/
abbrev Walk := ReaderT ScopeId Build

def modifyGraph (f : Graph → Graph) : Build Unit := modify fun b => { b with graph := f b.graph }

def Reactive.declareIn (g : Graph) (r : Reactive) : Graph :=
  if (g.variableIn? r.scope r.name).isSome then g
  else (g.declare r.scope r.name ⟨.reactive, r.start, r.stop, "LabeledStatement"⟩).2

def closeScope (id : ScopeId) : Build Unit :=
  modify fun b =>
    let (pending, rest) := b.reactive.partition (·.scope == id)
    { graph := (pending.foldl Reactive.declareIn b.graph).close id, reactive := rest }

def bracket {α : Type} (kind : ScopeKind) (parent : Option ScopeId) (block : Node)
    (body : ScopeId → Build α) : Build α := do
  let id := (← get).graph.scopes.length
  modifyGraph (·.pushScope kind parent block.kind block.start)
  let a ← body id
  closeScope id
  return a

def inScope {α : Type} (kind : ScopeKind) (block : Node) (body : Walk α) : Walk α :=
  fun current => bracket kind (some current) block body

def currentKind : Walk (Option ScopeKind) := do
  return ((← get).graph.scopeAt? (← read)).map Scope.kind

def variableScopeWithin (g : Graph) : Nat → ScopeId → ScopeId
  | 0, id => id
  | fuel + 1, id =>
    match g.scopeAt? id with
    | none => id
    | some s => if s.kind.isVariableScope then id else (s.parent.map (variableScopeWithin g fuel)).getD id

/-- The nearest scope that `var` declarations belong to. -/
def variableScope : Walk ScopeId := do
  let id ← read
  return variableScopeWithin (← get).graph (id + 1) id

def refer (n : Node) (access : Access) (init : Bool) : Walk Unit := do
  if let some name := n.identifier? then
    let scope ← read
    modifyGraph (·.addReference scope name n.start n.stop access init)

/-- A reference to the first part of a name with dots. -/
def referRoot (n : Node) : Walk Unit := do
  if let some name := n.identifier? then
    let root := String.ofList (name.toList.takeWhile (· ≠ '.'))
    let scope ← read
    modifyGraph (·.addReference scope root n.start (n.start + root.utf8ByteSize) .read false)

def declareIdentifier (scope : ScopeId) (kind : DefinitionKind) (owner identifier : Node) :
    Walk Unit := do
  if let some name := identifier.string? "name" then
    modifyGraph fun g =>
      (g.declare scope name ⟨kind, identifier.start, identifier.stop, owner.kind⟩).2

section Rules

-- The walk of the nodes inside the one at hand.
variable (visit : Node → Walk Unit)

def visitField (n : Node) (key : String) : Walk Unit := (n.nodesAt key).forM visit

def declarePattern (scope : ScopeId) (pattern : Node) (kind : DefinitionKind) (owner : Node) :
    Walk Unit := do
  pattern.boundIdentifiers.forM (declareIdentifier scope kind owner)
  pattern.evaluatedExpressions.forM visit

def declareField (scope : ScopeId) (n : Node) (field : String) (kind : DefinitionKind) : Walk Unit :=
  match n.child? field with
  | some pattern => declarePattern visit scope pattern kind n
  | none => pure ()

/-- What is assigned to: names are written, members are walked. -/
def assignTo (target : Node) (access : Access) : Walk Unit := do
  match target.kind with
  | "Identifier" => refer target access false
  | "ObjectPattern" | "ArrayPattern" | "AssignmentPattern" | "RestElement" =>
    target.boundIdentifiers.forM (refer · .write false)
    target.evaluatedExpressions.forM visit
  | _ => visit target

def visitDeclarator (scope : ScopeId) (declarator : Node) : Walk Unit := do
  if let some id := declarator.child? "id" then
    declarePattern visit scope id .variableName declarator
    if let some init := declarator.child? "init" then
      id.boundIdentifiers.forM (refer · .write true)
      visit init

def visitVariables (n : Node) : Walk Unit := do
  let scope ← if n.string? "kind" == some "var" then variableScope else read
  (n.children "declarations").forM (visitDeclarator visit scope)

def visitFunctionBody (n : Node) : Walk Unit := do
  let scope ← read
  (n.children "params").forM fun p => declarePattern visit scope p .parameter n
  match n.child? "body" with
  | some body => if body.is "BlockStatement" then visitField visit body "body" else visit body
  | none => pure ()

def visitFunction (n : Node) : Walk Unit :=
  let inner := inScope .function n (visitFunctionBody visit n)
  if n.is "FunctionExpression" && (n.child? "id").isSome then
    inScope .functionExpressionName n do
      declareField visit (← read) n "id" .functionName
      inner
  else inner

def visitClass (n : Node) : Walk Unit := do
  visitField visit n "superClass"
  inScope .classBody n do
    if n.is "ClassExpression" then declareField visit (← read) n "id" .className
    visitField visit n "body"

def visitImport (n : Node) : Walk Unit := do
  let scope ← read
  (n.children "specifiers").forM fun s => declareField visit scope s "local" .importBinding

def visitExport (n : Node) : Walk Unit := do
  if let some declaration := n.child? "declaration" then visit declaration
  if (n.child? "source").isNone then
    (n.children "specifiers").forM fun s => do
      if let some name := s.child? "local" then refer name .read false

/-- The part of a loop over the members of something that is assigned to. -/
def visitForLeft (left : Node) : Walk Unit := do
  if left.is "VariableDeclaration" then
    visit left
    (left.children "declarations").forM fun d =>
      ((d.child? "id").map Node.boundIdentifiers).getD [] |>.forM (refer · .write false)
  else assignTo visit left .write

def visitForParts (n : Node) : Walk Unit := do
  if n.is "ForStatement" then ["init", "test", "update"].forM (visitField visit n)
  else
    if let some left := n.child? "left" then visitForLeft visit left
    visitField visit n "right"
  visitField visit n "body"

def visitFor (n : Node) : Walk Unit :=
  let lexical := ((n.child? "init").or (n.child? "left")).any fun head =>
    head.is "VariableDeclaration" && head.string? "kind" != some "var"
  if lexical then inScope .forLoop n (visitForParts visit n) else visitForParts visit n

/-- The target of `$: name = value`. -/
def reactiveTarget? (n : Node) : Option Node := do
  guard ((n.child? "label").bind Node.identifier? == some "$")
  let statement ← n.child? "body"
  guard (statement.is "ExpressionStatement")
  let assignment ← statement.child? "expression"
  guard (assignment.is "AssignmentExpression" && assignment.string? "operator" == some "=")
  assignment.child? "left"

def visitLabeled (n : Node) : Walk Unit := do
  if let some target := reactiveTarget? n then
    if let some name := target.identifier? then
      let scope ← read
      modify fun (b : Building) =>
        { b with reactive := b.reactive ++ [⟨scope, name, target.start, target.stop⟩] }
  visitField visit n "body"

def boundIn (g : Graph) (scope : ScopeId) (pattern : Node) : List VariableId :=
  pattern.boundIdentifiers.filterMap fun id => id.identifier?.bind (g.variableIn? scope)

/-- An index counts as used once what stands beside it is. -/
def markIndex (scope : ScopeId) (context index : Node) (g : Graph) : Graph :=
  if (boundIn g scope context).any fun v => (g.variableAt? v).any Variable.used then
    (boundIn g scope index).foldl (fun g v => g.modifyVariable v ({ · with used := true })) g
  else g

def visitEach (n : Node) : Walk Unit := do
  visitField visit n "expression"
  let (scope, context) ← inScope .each n do
    let scope ← read
    let some context := n.child? "context" | throw (.missingDeclaration n.kind n.start)
    declarePattern visit scope context .templateBinding n
    declareField visit scope n "index" .templateBinding
    visitField visit n "key"
    visitField visit n "children"
    return (scope, context)
  if let some index := n.child? "index" then modifyGraph (markIndex scope context index)
  visitField visit n "else"

/-- A branch of an await block, which must stand directly in its scope. -/
def visitAwaitBranch (n : Node) (kind : ScopeKind) (field : String) : Walk Unit := do
  let current ← currentKind
  unless current = some .await do
    throw (.scopeNesting n.kind n.start ScopeKind.await.name
      ((current.map ScopeKind.name).getD "none"))
  inScope kind n do
    declareField visit (← read) n field .templateBinding
    visitField visit n "children"

def visitLet (n : Node) : Walk Unit := do
  let current ← currentKind
  unless current = some .component do
    throw (.scopeNesting n.kind n.start ScopeKind.component.name
      ((current.map ScopeKind.name).getD "none"))
  let some binding := (n.child? "expression").or (n.child? "name")
    | throw (.missingDeclaration n.kind n.start)
  declarePattern visit (← read) binding .templateBinding n

def visitComponent (n : Node) : Walk Unit := do
  if let some name := n.child? "name" then referRoot name
  visitField visit n "expression"
  inScope .component n do
    let (lets, others) := (n.children "attributes").partition (·.is "Let")
    lets.forM (visitLet visit)
    others.forM visit
    visitField visit n "children"

def visitNamedDirective (n : Node) : Walk Unit := do
  if let some name := n.child? "name" then referRoot name
  visitField visit n "expression"

def visitBinding (n : Node) : Walk Unit :=
  match n.child? "expression" with
  | some e => if e.is "Identifier" then refer e .readWrite false else visit e
  | none => pure ()

def visitRule (n : Node) : Walk Unit := do
  match n.kind with
  | "Identifier" => refer n .read false
  | "Fragment" =>
    throw (.structuralInvariant n.kind n.start
      "markup fragments must be normalized before scope analysis")
  | "VariableDeclaration" => visitVariables visit n
  | "FunctionDeclaration" =>
    declareField visit (← read) n "id" .functionName
    visitFunction visit n
  | "FunctionExpression" | "ArrowFunctionExpression" => visitFunction visit n
  | "ClassDeclaration" =>
    declareField visit (← read) n "id" .className
    visitClass visit n
  | "ClassExpression" => visitClass visit n
  | "ImportDeclaration" => visitImport visit n
  | "ExportNamedDeclaration" => visitExport visit n
  | "ExportDefaultDeclaration" => visitField visit n "declaration"
  | "BlockStatement" | "StaticBlock" => inScope .block n (visitField visit n "body")
  | "ForStatement" | "ForInStatement" | "ForOfStatement" => visitFor visit n
  | "CatchClause" =>
    inScope .catchClause n do
      declareField visit (← read) n "param" .catchClause
      visitField visit n "body"
  | "SwitchStatement" =>
    visitField visit n "discriminant"
    inScope .switch n (visitField visit n "cases")
  | "LabeledStatement" => visitLabeled visit n
  | "ExportAllDeclaration" | "BreakStatement" | "ContinueStatement" | "MetaProperty" | "Text"
  | "Comment" => pure ()
  | "AssignmentExpression" =>
    if let some left := n.child? "left" then
      assignTo visit left (if n.string? "operator" == some "=" then .write else .readWrite)
    visitField visit n "right"
  | "UpdateExpression" =>
    if let some argument := n.child? "argument" then assignTo visit argument .readWrite
  | "MemberExpression" =>
    visitField visit n "object"
    if n.flag "computed" then visitField visit n "property"
  | "Property" | "MethodDefinition" | "PropertyDefinition" =>
    if n.flag "computed" then visitField visit n "key"
    visitField visit n "value"
  | "TSAsExpression" | "TSSatisfiesExpression" | "TSNonNullExpression" =>
    visitField visit n "expression"
  | "IfBlock" =>
    visitField visit n "expression"
    inScope .block n (visitField visit n "children")
    visitField visit n "else"
  | "ElseBlock" => inScope .block n (visitField visit n "children")
  | "EachBlock" => visitEach visit n
  | "AwaitBlock" =>
    visitField visit n "expression"
    inScope .await n (["pending", "then", "catch"].forM (visitField visit n))
  | "PendingBlock" => visitField visit n "children"
  | "ThenBlock" => visitAwaitBranch visit n .awaitThen "value"
  | "CatchBlock" => visitAwaitBranch visit n .awaitCatch "error"
  | "InlineComponent" => visitComponent visit n
  | "Let" => visitLet visit n
  | "Action" | "Transition" | "Animation" => visitNamedDirective visit n
  | "Binding" => visitBinding visit n
  | "DebugTag" => (n.children "identifiers").forM (refer · .read false)
  | kind =>
    -- Types of the script language have no variables.
    unless startsWith "TS".toList kind.toList do n.traversalKeys.forM (visitField visit n)

end Rules

/-- The walk of a tree of at most the given depth. -/
def visitWithin : Nat → Node → Walk Unit
  | 0, _ => pure ()
  | depth + 1, n => visitRule (visitWithin depth) n

def visit (n : Node) : Walk Unit := visitWithin n.depth n

/-- The scope graph of a program. -/
def analyze (options : Options) (program : Node) : Except Fault Graph := do
  let statements : Walk Unit := (program.children "body").forM visit
  let walk := if options.isModule then inScope .module program statements else statements
  let (_, b) ← (bracket .global none program walk).run {}
  return b.graph

end SvelteSyntax.Scoping
