import SvelteSyntax.Error
import SvelteSyntax.Tree.Fields

namespace SvelteSyntax.Scoping

abbrev ScopeId := Nat
abbrev VariableId := Nat
abbrev ReferenceId := Nat

inductive ScopeKind where
  | global
  | module
  | function
  | functionExpressionName
  | block
  | catchClause
  | forLoop
  | switch
  | classBody
  | await
  | awaitThen
  | awaitCatch
  | each
  | component
  deriving DecidableEq, Repr, Inhabited

def ScopeKind.name : ScopeKind → String
  | .global => "global"
  | .module => "module"
  | .function => "function"
  | .functionExpressionName => "function-expression-name"
  | .block => "block"
  | .catchClause => "catch"
  | .forLoop => "for"
  | .switch => "switch"
  | .classBody => "class"
  | .await => "await"
  | .awaitThen => "await:then"
  | .awaitCatch => "await:catch"
  | .each => "each"
  | .component => "component"

/-- Whether `var` declarations in the scope belong to it. -/
def ScopeKind.isVariableScope : ScopeKind → Bool
  | .global | .module | .function => true
  | _ => false

inductive DefinitionKind where
  | variableName
  | parameter
  | functionName
  | className
  | importBinding
  | catchClause
  /-- A variable of an each block, an await block or a `let:`. -/
  | templateBinding
  /-- A `$:` assignment to a name that nothing else declares. -/
  | reactive
  /-- A variable that no script declares. -/
  | injected
  deriving DecidableEq, Repr, Inhabited

def DefinitionKind.name : DefinitionKind → String
  | .variableName => "Variable"
  | .parameter => "Parameter"
  | .functionName => "FunctionName"
  | .className => "ClassName"
  | .importBinding => "ImportBinding"
  | .catchClause => "CatchClause"
  | .templateBinding => "TemplateBinding"
  | .reactive => "Reactive"
  | .injected => "Injected"

/-- Whether a variable declared in this way can be assigned to. -/
def DefinitionKind.isWritable : DefinitionKind → Bool
  | .importBinding | .className => false
  | _ => true

structure Definition where
  kind : DefinitionKind
  nameStart : Nat
  nameStop : Nat
  /-- The kind of the node that declares the name. -/
  nodeKind : String
  deriving DecidableEq, Repr, Inhabited

inductive Access where
  | read
  | write
  | readWrite
  deriving DecidableEq, Repr, Inhabited

def Access.reads : Access → Bool
  | .read | .readWrite => true
  | .write => false

def Access.writes : Access → Bool
  | .write | .readWrite => true
  | .read => false

structure Reference where
  name : String
  start : Nat
  stop : Nat
  /-- The scope the reference is made in. -/
  scope : ScopeId
  resolved : Option VariableId := none
  access : Access
  /-- It is the name that a declaration gives a value. -/
  init : Bool
  deriving DecidableEq, Repr, Inhabited

structure Variable where
  name : String
  scope : ScopeId
  definitions : List Definition
  references : List ReferenceId := []
  used : Bool := false
  writable : Bool
  injected : Bool := false
  deriving DecidableEq, Repr, Inhabited

structure Scope where
  kind : ScopeKind
  parent : Option ScopeId
  children : List ScopeId := []
  /-- The kind of the node that opens the scope. -/
  blockKind : String
  blockStart : Nat
  vars : List VariableId := []
  /-- The variables by name. -/
  names : Fields VariableId := []
  references : List ReferenceId := []
  /-- The references that found no variable here. -/
  through : List ReferenceId := []
  /-- The references that are to be resolved when the scope closes. -/
  left : List ReferenceId := []
  deriving DecidableEq, Repr, Inhabited

structure Graph where
  scopes : List Scope := []
  vars : List Variable := []
  references : List Reference := []
  deriving DecidableEq, Repr, Inhabited

namespace Graph

def globalScope : ScopeId := 0

def scopeAt? (g : Graph) (id : ScopeId) : Option Scope := g.scopes[id]?

def variableAt? (g : Graph) (id : VariableId) : Option Variable := g.vars[id]?

def referenceAt? (g : Graph) (id : ReferenceId) : Option Reference := g.references[id]?

def modifyScope (g : Graph) (id : ScopeId) (f : Scope → Scope) : Graph :=
  { g with scopes := g.scopes.modify id f }

def modifyVariable (g : Graph) (id : VariableId) (f : Variable → Variable) : Graph :=
  { g with vars := g.vars.modify id f }

def modifyReference (g : Graph) (id : ReferenceId) (f : Reference → Reference) : Graph :=
  { g with references := g.references.modify id f }

/-- The variable of a name in one scope. -/
def variableIn? (g : Graph) (scope : ScopeId) (name : String) : Option VariableId :=
  (g.scopeAt? scope).bind fun s => Fields.get? name s.names

/-- The first scope that the node of a kind at an offset opens. -/
def acquire? (g : Graph) (kind : String) (start : Nat) : Option ScopeId :=
  g.scopes.findIdx? fun s => s.blockKind == kind && s.blockStart == start

def lookupWithin (g : Graph) (name : String) : Nat → ScopeId → Option VariableId
  | 0, _ => none
  | fuel + 1, id =>
    match g.scopeAt? id with
    | none => none
    | some s =>
      match Fields.get? name s.names with
      | some v => some v
      | none => s.parent.bind (lookupWithin g name fuel)

/-- The variable that a name means in a scope. A parent is created before its children, so there are
no more scopes around one than its number. -/
def lookup? (g : Graph) (scope : ScopeId) (name : String) : Option VariableId :=
  g.lookupWithin name (scope + 1) scope

def findVariable? (g : Graph) (scope : ScopeId) (name : String) : Option Variable :=
  (g.lookup? scope name).bind g.variableAt?

def moduleScope? (g : Graph) : Option ScopeId :=
  (g.scopeAt? globalScope).bind fun s =>
    s.children.find? fun id => (g.scopeAt? id).any (·.kind == .module)

/-- A graph with a new scope, whose number is that of the scopes so far. -/
def pushScope (g : Graph) (kind : ScopeKind) (parent : Option ScopeId) (blockKind : String)
    (blockStart : Nat) : Graph :=
  let id := g.scopes.length
  let g := { g with scopes := g.scopes ++ [{ kind, parent, blockKind, blockStart }] }
  match parent with
  | some p => g.modifyScope p fun s => { s with children := s.children ++ [id] }
  | none => g

def declare (g : Graph) (scope : ScopeId) (name : String) (definition : Definition) :
    VariableId × Graph :=
  match g.variableIn? scope name with
  | some id =>
    (id, g.modifyVariable id fun v => { v with definitions := v.definitions ++ [definition] })
  | none =>
    let id := g.vars.length
    let v : Variable :=
      { name, scope, definitions := [definition],
        writable := definition.kind.isWritable }
    let g := { g with vars := g.vars ++ [v] }
    (id, g.modifyScope scope fun s =>
      { s with vars := s.vars ++ [id], names := Fields.set name id s.names })

def addReference (g : Graph) (scope : ScopeId) (name : String) (start stop : Nat) (access : Access)
    (init : Bool) : Graph :=
  let id := g.references.length
  let r : Reference := { name, start, stop, scope, access, init }
  let g := { g with references := g.references ++ [r] }
  g.modifyScope scope fun s => { s with references := s.references ++ [id], left := s.left ++ [id] }

def resolve (g : Graph) (reference : ReferenceId) (target : VariableId) : Graph :=
  let reads := (g.referenceAt? reference).any (·.access.reads)
  (g.modifyReference reference ({ · with resolved := some target })).modifyVariable target
    fun v => { v with references := v.references ++ [reference], used := v.used || reads }

def settle (g : Graph) (scope : ScopeId) (reference : ReferenceId) : Graph :=
  match (g.referenceAt? reference).bind fun r => g.variableIn? scope r.name with
  | some v => g.resolve reference v
  | none =>
    let g := g.modifyScope scope fun s => { s with through := s.through ++ [reference] }
    match (g.scopeAt? scope).bind Scope.parent with
    | some p => g.modifyScope p fun s => { s with left := s.left ++ [reference] }
    | none => g

def close (g : Graph) (scope : ScopeId) : Graph :=
  match g.scopeAt? scope with
  | none => g
  | some s => s.left.foldl (settle · scope) (g.modifyScope scope ({ · with left := [] }))

/-- Moves a variable to another scope. -/
def hoist (g : Graph) (id : VariableId) (target : ScopeId) : Except Fault Graph :=
  match g.variableAt? id with
  | none => .ok g
  | some v =>
    if v.scope = target then .ok g
    else if g.variableIn? v.scope v.name ≠ some id then .error (.unregisteredVariable v.name)
    else
      let g := g.modifyScope v.scope fun s =>
        { s with names := Fields.erase v.name s.names, vars := s.vars.filter (· ≠ id) }
      let g := g.modifyScope target fun s =>
        { s with names := Fields.set v.name id s.names, vars := s.vars ++ [id] }
      .ok (g.modifyVariable id ({ · with scope := target }))

def resettle (g : Graph) (reference : ReferenceId) : Graph :=
  match (g.referenceAt? reference).bind fun r => g.variableIn? globalScope r.name with
  | some v => g.resolve reference v
  | none => g.modifyScope globalScope fun s => { s with through := s.through ++ [reference] }

/-- Resolves what the global scope left open to variables that it got since. -/
def resolveThrough (g : Graph) : Graph :=
  match g.scopeAt? globalScope with
  | none => g
  | some s => s.through.foldl resettle (g.modifyScope globalScope ({ · with through := [] }))

end Graph

end SvelteSyntax.Scoping
