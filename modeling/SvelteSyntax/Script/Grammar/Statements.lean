import SvelteSyntax.Script.Grammar.Expressions

namespace SvelteSyntax.Script

/-- Where a declaration of variables stands. -/
inductive DeclarationPlace where
  | statement
  | loop
  deriving DecidableEq

/-- Whether a variable may not do without a value. -/
def needsValue (kind : String) (id : Syntax) : Bool :=
  !(id matches .binding ..) || kind == "const" || kind == "using" || kind == "await using"

def checkValue (kind : String) (declarator : Syntax) : Parse Unit := do
  let missing := match declarator with
    | .declarator _ id _ none => needsValue kind id
    | _ => false
  faultIf (missing && !(← get).context.ambient)

def declarator (g : Grammar) (kind : String) (place : DeclarationPlace) : Parse Syntax := do
  let start ← startHere
  let id ← g.pattern
  if (← typescript) && id matches .binding .. then
    if (← atMark "!") && !(← onNewLine) then advance
  let types ← typeAnnotation g
  let value ← if ← eatMark "=" then some <$> g.value else pure none
  let declarator ← finish start (.declarator · id types value)
  if place = .statement then checkValue kind declarator
  return declarator

def Syntax.declarators : Syntax → List Syntax
  | .variables _ _ declarators => declarators
  | _ => []

/-- The variables declared after the keyword `kind`, which is already read. -/
def declarationRest (g : Grammar) (start : Nat) (kind : String) (place : DeclarationPlace) :
    Parse Syntax := do
  let first ← declarator g kind place
  let rest ← many do
    if ← eatMark "," then return some (← declarator g kind place) else return none
  if place = .statement then endStatement
  finish start (.variables · kind (first :: rest))

/-- Variables declared by the keyword that is the current token. -/
def variableDeclaration (g : Grammar) (start : Nat) (place : DeclarationPlace) : Parse Syntax := do
  let .word kind _ ← currentLexeme | failure
  advanceWord
  declarationRest g start kind place

/-- Whether `using` declares something here. -/
def atUsing : Parse Bool := do
  if !(← atWord "using") then return false
  nextIs fun t => !t.newline && t.lexeme.isBindable

def atAwaitUsing : Parse Bool := lookahead do
  expectWord "await"
  if ← onNewLine then return false
  atUsing

def usingDeclaration (g : Grammar) (place : DeclarationPlace) : Parse Syntax := do
  let start ← startHere
  let await ← eatWord "await"
  advanceWord
  let declaration ← declarationRest g start (if await then "await using" else "using") place
  faultIf (declaration.declarators.any fun d => !(d matches .declarator _ (.binding ..) _ _))
  return declaration

def expressionStatement (start : Nat) (expression : Syntax) : Parse Syntax := do
  endStatement
  finish start (.expressionStatement · expression)

def expressionOrLabel (g : Grammar) : Parse Syntax := do
  let start ← startHere
  match ← g.expression with
  | .reference s name =>
    if ← eatMark ":" then
      let body ← g.statement true
      finish start (.labeled · (.word s name) body)
    else expressionStatement start (.reference s name)
  | expression => expressionStatement start expression

def letStatement (g : Grammar) (alone : Bool) : Parse Syntax := do
  let start ← startHere
  let some next ← peek (do advance; currentToken) | failure
  let l := next.lexeme
  if (assignmentOperator? l).isSome || (precedence? l).isSome && !(l.isWord "as") &&
      !(l.isWord "satisfies") then
    expressionStatement start (← g.value)
  else if l.isMark "." || l.isMark "(" then
    let expression ← g.expression
    finish start (.expressionStatement · expression)
  else if (alone && !l.isMark "[") || l.isMark ";" then
    expressionStatement start (← identifierReference)
  else
    let declaration ← variableDeclaration g start .statement
    faultIf alone
    return declaration

def ifStatement (g : Grammar) : Parse Syntax := do
  let start ← startHere
  advanceWord
  let test ← condition g
  let consequent ← g.statement true
  let alternate ← if ← eatWord "else" then some <$> g.statement true else pure none
  finish start (.ifStatement · test consequent alternate)

def whileStatement (g : Grammar) : Parse Syntax := do
  let start ← startHere
  advanceWord
  let test ← condition g
  let body ← g.statement true
  finish start (.whileStatement · test body)

def doStatement (g : Grammar) : Parse Syntax := do
  let start ← startHere
  advanceWord
  let body ← g.statement true
  expectWord "while"
  let test ← condition g
  let _ ← eatMark ";"
  finish start (.doWhile · body test)

def withStatement (g : Grammar) : Parse Syntax := do
  let start ← startHere
  advanceWord
  let object ← condition g
  let body ← g.statement true
  finish start (.withStatement · object body)

/-- `break` or `continue`. -/
def jumpStatement (make : Span → Option Syntax → Syntax) : Parse Syntax := do
  let start ← startHere
  advanceWord
  let label ← if ← canEndStatement then pure none else some <$> labelIdentifier
  endStatement
  finish start (make · label)

def returnStatement (g : Grammar) : Parse Syntax := do
  let start ← startHere
  faultIf (!(← get).context.returns)
  advanceWord
  let argument ← if ← canEndStatement then pure none else some <$> withIn g.expression
  endStatement
  finish start (.returnStatement · argument)

def throwStatement (g : Grammar) : Parse Syntax := do
  let start ← startHere
  advanceWord
  faultIf (← onNewLine)
  let argument ← g.expression
  endStatement
  finish start (.throwStatement · argument)

def debuggerStatement : Parse Syntax := do
  let start ← startHere
  advanceWord
  endStatement
  finish start .debugger

def catchClause (g : Grammar) : Parse Syntax := do
  let start ← startHere
  advanceWord
  let (param, types) ← if ← eatMark "(" then
      let param ← g.pattern
      let types ← typeAnnotation g
      expectMark ")"
      pure (some param, types)
    else pure (none, [])
  let body ← block g
  finish start (.catchClause · param types body)

def tryStatement (g : Grammar) : Parse Syntax := do
  let start ← startHere
  advanceWord
  let body ← block g
  let handler ← if ← atWord "catch" then some <$> catchClause g else pure none
  let finalizer ← if ← eatWord "finally" then some <$> block g else pure none
  faultIf (handler.isNone && finalizer.isNone)
  finish start (.tryStatement · body handler finalizer)

def switchCase (g : Grammar) : Parse Syntax := do
  let start ← startHere
  let test ← if ← eatWord "default" then pure none
    else
      expectWord "case"
      some <$> g.expression
  expectMark ":"
  let consequent ← many do
    let l ← currentLexeme
    if l.isWord "case" || l.isWord "default" || l == .mark "\x7d" || l == .endOfText then return none
    return some (← g.statement false)
  finish start (.switchCase · test consequent)

def switchStatement (g : Grammar) : Parse Syntax := do
  let start ← startHere
  advanceWord
  let discriminant ← condition g
  expectMark "\x7b"
  let cases ← many do
    if ← atMark "\x7d" then return none
    return some (← switchCase g)
  expectMark "\x7d"
  finish start (.switchStatement · discriminant cases)

def plainLoop (g : Grammar) (start : Nat) (init : Option Syntax) (await : Bool) : Parse Syntax := do
  expectMark ";"
  let test ← if (← atMark ";") || (← atMark ")") then pure none else some <$> withIn g.expression
  expectMark ";"
  let update ← if ← atMark ")" then pure none else some <$> withIn g.expression
  expectMark ")"
  faultIf await
  let body ← g.statement true
  finish start (.forStatement · init test update body)

def collectionLoop (g : Grammar) (start : Nat) (left : Syntax) (await : Bool) : Parse Syntax := do
  let keys ← atWord "in"
  advanceWord
  let right ← if keys then g.expression else g.value
  expectMark ")"
  faultIf (await && keys)
  let body ← g.statement true
  if keys then finish start (.forIn · left right body)
  else finish start (.forOf · await left right body)

def atCollection : Parse Bool := do
  return (← atWord "in") || (← atWord "of")

def loopDeclaration (g : Grammar) : Parse (Option Syntax) := do
  let start ← startHere
  let declares ← do
    if (← atWord "var") || (← atWord "const") then pure true
    else if ← atWord "let" then
      nextIs fun t => t.lexeme.isMark "\x7b" || t.lexeme.isMark "[" || t.lexeme.isBindable
    else pure false
  if declares then return some (← withoutIn (variableDeclaration g start .loop))
  if (← atAwaitUsing) || ((← atUsing) && !(← nextIs (·.lexeme.isWord "of"))) then
    return some (← withoutIn (usingDeclaration g .loop))
  return none

def forStatement (g : Grammar) : Parse Syntax := do
  let start ← startHere
  advanceWord
  let await ← if ← atWord "await" then
      faultIf (!(← get).context.awaits)
      advanceWord
      pure true
    else pure false
  expectMark "("
  if ← atMark ";" then return ← plainLoop g start none await
  if let some declaration ← loopDeclaration g then
    if ← atCollection then return ← collectionLoop g start declaration await
    if let .variables _ kind declarators := declaration then
      for d in declarators do checkValue kind d
    return ← plainLoop g start (some declaration) await
  let asyncOf := (← atWord "async") && (← nextIs (·.lexeme.isWord "of"))
  let letFirst ← atWord "let"
  let init ← withoutIn g.expression
  if ← atCollection then
    faultIf ((← atWord "of") && (letFirst || (asyncOf && !await)))
    let target ← assignmentTarget init
    collectionLoop g start target await
  else plainLoop g start (some init) await

/-- Whether a key in brackets is a fixed text. -/
def isFixedText (key : Syntax) : Bool := key matches .string .. | .template _ _ []

def enumMemberName (g : Grammar) : Parse Syntax := do
  match ← currentLexeme with
  | .word _ _ | .string _ | .mark "[" =>
    let (key, computed) ← propertyKey g
    require (!computed || isFixedText key)
    return key
  | _ => failure

def enumMember (g : Grammar) : Parse (List Syntax) := do
  let name ← enumMemberName g
  if ← eatMark "=" then return [name, ← withIn g.value] else return [name]

def enumDeclaration (g : Grammar) : Parse (List Syntax) := do
  expectWord "enum"
  let name ← bindingIdentifier
  expectMark "\x7b"
  let (members, _) ← delimited "\x7d" (enumMember g)
  expectMark "\x7d"
  return name :: members.flatten

def interfaceDeclaration (g : Grammar) : Parse (List Syntax) := do
  expectWord "interface"
  let name ← bindingIdentifier
  let types ← typeParameters g
  let heritage ← if ← eatWord "extends" then
      let (heritage, _) ← delimited "\x7b" (heritageType g)
      pure heritage.flatten
    else pure []
  return name :: types ++ heritage ++ (← typeMembers g)

def typeAlias (g : Grammar) : Parse (List Syntax) := do
  expectWord "type"
  let name ← bindingIdentifier
  let types ← typeParameters g
  expectMark "="
  let type ← g.type
  endStatement
  return name :: types ++ type

def namespaceDeclaration (g : Grammar) : Parse (List Syntax) := do
  advanceWord
  match ← currentLexeme with
  | .string _ =>
    let name ← stringLiteral
    if ← atMark "\x7b" then return [name, ← block g]
    else
      endStatement
      return [name]
  | _ =>
    let first ← bindingIdentifier
    let rest ← many do
      if ← eatMark "." then return some (← bindingIdentifier) else return none
    return first :: rest ++ [← block g]

def globalDeclaration (g : Grammar) : Parse (List Syntax) := do
  advanceWord
  return [← block g]

/-- The words that can stand in front of a declaration of types. -/
def declarationModifiers : List String :=
  ["abstract", "accessor", "async", "declare", "private", "protected", "public", "readonly"]

/-- One look at whether a declaration starts here: yes, no, or past one more modifier. -/
def declarationStep : Parse (Option Bool) := do
  let .word name _ ← currentLexeme | return some false
  if ["var", "let", "const", "function", "class", "enum"].contains name then return some true
  advance
  let t ← currentToken
  if name == "interface" || name == "type" then return some (t.lexeme.isBindable && !t.newline)
  if name == "module" || name == "namespace" then
    return some ((t.lexeme.isBindable || t.lexeme matches .string _) && !t.newline)
  if name == "global" then return some (t.lexeme.isMark "\x7b" || t.lexeme.isBindable)
  if name == "import" then
    return some (t.lexeme.isMark "\x7b" || t.lexeme.isMark "*" || t.lexeme.isBindable ||
      t.lexeme matches .string _)
  if declarationModifiers.contains name then return if t.newline then some false else none
  if name == "static" then return none
  return some false

def atTypeDeclaration : Parse Bool := lookahead do
  let found ← iterate (fun (found : Option Bool) => do
    if found.isSome then return none
    return some (← declarationStep)) none
  return found.getD false

def declarationAfterModifiers (g : Grammar) (start : Nat) (decorators : List Syntax)
    (modifiers : List String) : Parse Syntax := do
  let ambient (c : Context) : Context := { c with ambient := c.ambient || modifiers.contains "declare" }
  let types (rule : Parse (List Syntax)) : Parse Syntax := do
    let parts ← within ambient rule
    finish start (.typeDeclaration · (decorators ++ parts))
  if ← atFunction then return ← within ambient (functionDeclaration g start true)
  match ← currentLexeme with
  | .word "class" _ => within ambient (classRest g true start decorators true)
  | .word "const" _ =>
    if (← typescript) && (← nextIs (·.lexeme.isWord "enum")) then
      advanceWord
      types (enumDeclaration g)
    else within ambient (variableDeclaration g start .statement)
  | .word "var" _ | .word "let" _ => within ambient (variableDeclaration g start .statement)
  | .word name _ =>
    require (← typescript)
    match name with
    | "enum" => types (enumDeclaration g)
    | "interface" => types (interfaceDeclaration g)
    | "type" => types (typeAlias g)
    | "module" | "namespace" => types (namespaceDeclaration g)
    | "global" => types (globalDeclaration g)
    | _ => failure
  | _ => failure

def declarationModifier : Parse (Option String) := do
  let .word name _ ← currentLexeme | return none
  if name ≠ "abstract" && name ≠ "declare" then return none
  if ← nextIs fun t => !t.newline && t.lexeme.isName then
    advanceWord
    return some name
  else return none

def declaration (g : Grammar) (start : Nat) (decorators : List Syntax) : Parse Syntax := do
  let modifiers ← if ← typescript then many declarationModifier else pure []
  declarationAfterModifiers g start decorators modifiers

def typeDeclaration (g : Grammar) : Parse Syntax := do declaration g (← startHere) []

end SvelteSyntax.Script
