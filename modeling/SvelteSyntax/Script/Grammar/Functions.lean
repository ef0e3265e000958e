import SvelteSyntax.Script.Grammar.Types

namespace SvelteSyntax.Script

def statements (g : Grammar) : Parse (List Syntax) := many do
  let l ← currentLexeme
  if l == .mark "\x7d" || l == .endOfText then return none
  return some (← g.statement false)

def block (g : Grammar) : Parse Syntax := do
  let start ← startHere
  expectMark "\x7b"
  let body ← statements g
  expectMark "\x7d"
  finish start (.block · body)

/-- A string that is a whole statement, as it may start a body. -/
def asDirective? : Syntax → Option Syntax
  | .expressionStatement s (.string t value raw) =>
    some (.directive s (.string t value raw) (String.ofList (raw.toList.drop 1).dropLast))
  | _ => none

/-- Takes the strings off that a body starts with. -/
def splitDirectives : List Syntax → List Syntax × List Syntax
  | [] => ([], [])
  | x :: xs =>
    match asDirective? x with
    | some directive =>
      let (directives, statements) := splitDirectives xs
      (directive :: directives, statements)
    | none => ([], x :: xs)

def functionBody (g : Grammar) : Parse Syntax := do
  let start ← startHere
  expectMark "\x7b"
  let body ← within ({ · with returns := true, inOperator := true }) (statements g)
  expectMark "\x7d"
  let (directives, statements) := splitDirectives body
  finish start (.functionBody · directives statements)

structure FunctionParts where
  types : List Syntax
  params : Parameters
  returns : List Syntax
  body : Option Syntax

def functionRest (g : Grammar) (declares : Bool) (start : Nat) (id : Option Syntax)
    (async generator method : Bool) : Parse Syntax := do
  let parts ← within
    ({ · with inOperator := true, awaits := async, yields := generator }) do
      let types ← typeParameters g
      let params ← parameters g method
      let returns ← returnType g
      let body ← if ← atMark "\x7b" then some <$> functionBody g else pure none
      return { types, params, returns, body : FunctionParts }
  if parts.body.isNone then
    require (← typescript)
    endStatement
  else faultIf (← get).context.ambient
  finish start
    (.function · declares id (parts.types ++ parts.params.receiver) parts.params.items
      parts.params.rest parts.returns parts.body async generator)

def functionName (expression async generator : Bool) : Parse (Option Syntax) := do
  if (← currentLexeme).isBindable then
    if expression then
      return some (← within ({ · with awaits := async, yields := generator }) bindingIdentifier)
    else return some (← bindingIdentifier)
  else return none

/-- Whether a function starts here, with or without `async` on the same line. -/
def atFunction : Parse Bool := do
  if ← atWord "function" then return true
  if ← atWord "async" then
    return ← nextIs fun t => t.lexeme.isWord "function" && !t.newline
  return false

structure FunctionHead where
  start : Nat
  async : Bool
  generator : Bool

def functionHead : Parse FunctionHead := do
  let start ← startHere
  let async ← eatWord "async"
  expectWord "function"
  let generator ← eatMark "*"
  return { start, async, generator }

def functionExpression (g : Grammar) : Parse Syntax := do
  let h ← functionHead
  let id ← functionName true h.async h.generator
  functionRest g false h.start id h.async h.generator false

def functionDeclaration (g : Grammar) (start : Nat) (named : Bool) : Parse Syntax := do
  let h ← functionHead
  let id ← functionName false h.async h.generator
  faultIf (named && id.isNone)
  functionRest g true start id h.async h.generator false

def methodFunction (g : Grammar) (async generator : Bool) : Parse Syntax := do
  functionRest g false (← startHere) none async generator true

/-- A getter takes nothing and a setter one thing. -/
def checkAccessor (kind : String) (function : Syntax) : Parse Unit :=
  faultIf <| match kind, function with
    | "get", .function _ _ _ _ [] none .. => false
    | "set", .function _ _ _ _ [_] none .. => false
    | _, _ => true

def memberKey (g : Grammar) : Parse (Syntax × Bool) := do
  if let .privateName _ ← currentLexeme then return (← privateName, false)
  propertyKey g

/-- The name that a key gives a member, if it is fixed. -/
def staticKey? (key : Syntax) (computed : Bool) : Option String :=
  if computed then none
  else match key with
    | .word _ name => some name
    | .string _ value _ => some value
    | _ => none

def classModifier : Parse (Option String) := do
  if (← atWord "static") && (← nextIsMark "\x7b") then return none
  modifier modifierWords

def memberModifiers (typescript : Bool) : List String :=
  if typescript then
    ["abstract", "accessor", "async", "declare", "override", "private", "protected", "public",
     "readonly", "static"]
  else ["accessor", "async", "static"]

def staticBlock (g : Grammar) (start : Nat) : Parse Syntax := do
  advanceWord
  let body ← within ({ · with awaits := true, yields := false, returns := false }) do
    expectMark "\x7b"
    let body ← statements g
    expectMark "\x7d"
    return body
  finish start (.staticBlock · body)

def checkMemberName (key : Syntax) (computed isStatic : Bool) : Parse Unit := do
  faultIf (key matches .privateName _ "constructor")
  faultIf (isStatic && staticKey? key computed == some "prototype")

def accessorMember (g : Grammar) (start : Nat) (decorators : List Syntax) (kind : String)
    (isStatic : Bool) : Parse Syntax := do
  let (key, computed) ← memberKey g
  checkMemberName key computed isStatic
  faultIf (!isStatic && staticKey? key computed == some "constructor")
  let value ← methodFunction g false false
  checkAccessor kind value
  finish start (.method · decorators key value kind computed isStatic)

def methodMember (g : Grammar) (start : Nat) (decorators : List Syntax) (key : Syntax)
    (computed isStatic async generator : Bool) : Parse Syntax := do
  let constructor := !isStatic && staticKey? key computed == some "constructor"
  faultIf (constructor && (async || generator))
  let value ← methodFunction g async generator
  let kind := if constructor then "constructor" else "method"
  finish start (.method · decorators key value kind computed isStatic)

def fieldMember (g : Grammar) (start : Nat) (decorators : List Syntax) (key : Syntax)
    (computed isStatic accessor : Bool) : Parse Syntax := do
  faultIf (staticKey? key computed == some "constructor")
  let types ← typeAnnotation g
  let value ← if ← eatMark "=" then
      some <$> within ({ · with inOperator := true, yields := false, awaits := false }) g.value
    else pure none
  endStatement
  if accessor then finish start (.otherElement · (decorators ++ key :: types ++ value.toList))
  else finish start (.field · decorators key types value computed isStatic)

def classElement (g : Grammar) : Parse Syntax := do
  let start ← startHere
  let decorators ← decorators g
  let modifiers ← many classModifier
  require (modifiers.all ((memberModifiers (← typescript)).contains ·))
  let isStatic := modifiers.contains "static"
  let async := modifiers.contains "async"
  if (← atWord "static") && (← nextIsMark "\x7b") then
    faultIf (!modifiers.isEmpty)
    staticBlock g start
  else if (← typescript) && (← atIndexSignature) then
    let types ← indexSignature g
    endTypeMember
    finish start (.otherElement · (decorators ++ types))
  else if ← accessorWord "get" then
    faultIf async
    accessorMember g start decorators "get" isStatic
  else if ← accessorWord "set" then
    faultIf async
    accessorMember g start decorators "set" isStatic
  else
    let generator ← eatMark "*"
    let (key, computed) ← memberKey g
    checkMemberName key computed isStatic
    if ← typescript then
      unless ← eatMark "?" do
        if (← atMark "!") && !(← onNewLine) then advance
    if generator || (← atMark "(") || (← atMark "<") then
      faultIf (modifiers.contains "accessor")
      methodMember g start decorators key computed isStatic async generator
    else
      faultIf async
      fieldMember g start decorators key computed isStatic (modifiers.contains "accessor")

def classBody (g : Grammar) : Parse Syntax := do
  let start ← startHere
  expectMark "\x7b"
  let elements ← many do
    let _ ← many do if ← eatMark ";" then return some () else return none
    if ← atMark "\x7d" then return none
    return some (← classElement g)
  expectMark "\x7d"
  finish start (.classBody · elements)

/-- An expression without the type arguments after it, and those. -/
def splitTypeArguments : Syntax → Syntax × List Syntax
  | .instantiation _ x types => (x, types)
  | x => (x, [])

structure Heritage where
  superClass : Option Syntax := none
  types : List Syntax := []

def superClass (g : Grammar) : Parse Heritage := do
  if ← eatWord "extends" then
    let (expression, types) := splitTypeArguments (← g.leftHandSide)
    let more ← if (← typescript) && ((← atMark "<") || (← atMark "<<")) then typeArguments g
      else pure []
    return { superClass := some expression, types := types ++ more }
  else return {}

def heritageType (g : Grammar) : Parse (List Syntax) := do
  let name ← typeName
  let types ← if (← atMark "<") || (← atMark "<<") then typeArguments g else pure []
  return name ++ types

def implementedTypes (g : Grammar) : Parse (List Syntax) := do
  if (← typescript) && (← eatWord "implements") then
    let (types, trailing) ← delimited "\x7b" (heritageType g)
    faultIf trailing
    return types.flatten
  else return []

def classRest (g : Grammar) (declares : Bool) (start : Nat) (decorators : List Syntax) (named : Bool) :
    Parse Syntax := do
  expectWord "class"
  let id ← if (← currentLexeme).isBindable && !(← atWord "implements") then
      some <$> bindingIdentifier
    else pure none
  faultIf (named && id.isNone)
  let types ← typeParameters g
  let heritage ← superClass g
  let implemented ← implementedTypes g
  let body ← classBody g
  finish start
    (.classLike · declares decorators id types heritage.superClass (heritage.types ++ implemented) body)

end SvelteSyntax.Script
