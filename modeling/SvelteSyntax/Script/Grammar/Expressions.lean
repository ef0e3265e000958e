import SvelteSyntax.Script.Grammar.Functions

namespace SvelteSyntax.Script

def regexLiteral : Parse Syntax := do
  reread readRegex
  literal .regex

def templateLiteral (g : Grammar) (tagged : Bool) : Parse Syntax := do
  let start ← startHere
  let (quasis, expressions) ← templateParts tagged (withIn g.expression)
  finish start (.template · quasis expressions)

def spreadElement (g : Grammar) : Parse Syntax := do
  let start ← startHere
  expectMark "..."
  let argument ← g.value
  finish start (.spread · argument)

def noteTrailingComma (start : Nat) (trailing : Bool) : Parse Unit := do
  if trailing then modify fun s => { s with trailingCommas := start :: s.trailingCommas }

def arrayLiteral (g : Grammar) : Parse Syntax := do
  let start ← startHere
  expectMark "["
  let (elements, trailing) ← withIn <| delimited "]" do
    if ← atMark "," then return none
    else if ← atMark "..." then return some (← spreadElement g)
    else return some (← g.value)
  noteTrailingComma start trailing
  expectMark "]"
  finish start (.array · elements)

def accessorProperty (g : Grammar) (start : Nat) (kind : String) : Parse Syntax := do
  let (key, computed) ← propertyKey g
  let value ← methodFunction g false false
  checkAccessor kind value
  finish start (.property · key value kind false false computed)

def shorthandProperty (g : Grammar) (t : Lexed) (key : Syntax) (name : String) : Parse Syntax := do
  if ← eatMark "=" then
    let initialiser ← g.value
    modify fun s => { s with initialisers := (t.start, initialiser) :: s.initialisers }
  finish t.start (.property · key (.reference t.span name) "init" false true false)

def objectProperty (g : Grammar) : Parse Syntax := do
  let start ← startHere
  let modifiers ← many (modifier modifierWords)
  let async := modifiers.contains "async"
  require (modifiers.all (· == "async"))
  if ← accessorWord "get" then
    faultIf async
    accessorProperty g start "get"
  else if ← accessorWord "set" then
    faultIf async
    accessorProperty g start "set"
  else
    let generator ← eatMark "*"
    let t ← currentToken
    let variableName := t.lexeme.isVariable (← get).context
    let (key, computed) ← propertyKey g
    if generator || (← atMark "(") || (← atMark "<") then
      let value ← methodFunction g async generator
      finish start (.property · key value "init" true false computed)
    else
      faultIf async
      if variableName && !computed && !(← atMark ":") then
        let .word name _ := t.lexeme | failure
        shorthandProperty g t key name
      else
        expectMark ":"
        let value ← g.value
        finish start (.property · key value "init" false false computed)

def objectLiteral (g : Grammar) : Parse Syntax := do
  let start ← startHere
  expectMark "\x7b"
  let (properties, trailing) ← withIn <| delimited "\x7d" do
    if ← atMark "..." then spreadElement g else objectProperty g
  noteTrailingComma start trailing
  expectMark "\x7d"
  finish start (.object · properties)

def parenthesisedExpression (g : Grammar) : Parse Syntax := do
  let start ← startHere
  expectMark "("
  let innerStart ← startHere
  let (expressions, trailing) ← within ({ · with inOperator := true, decorator := false }) <|
    delimited ")" g.value
  require (!trailing)
  let inner ← match expressions with
    | [] => failure
    | [x] => pure x
    | xs => finish innerStart (.sequence · xs)
  expectMark ")"
  finish start (.parenthesised · inner)

def classExpression (g : Grammar) : Parse Syntax := do
  let start ← startHere
  let decorators ← decorators g
  classRest g false start decorators false

/-- The callee and arguments of an import. -/
def importCall (g : Grammar) (start : Nat) : Parse Syntax := do
  expectMark "("
  let (source, options) ← within ({ · with inOperator := true }) do
    let source ← g.value
    if (← eatMark ",") && !(← atMark ")") then
      let options ← g.value
      let _ ← eatMark ","
      return (source, some options)
    return (source, none)
  expectMark ")"
  finish start (.importCall · source options)

def metaProperty (start : Nat) (keyword property : Syntax) : Parse Syntax :=
  finish start (.metaProperty · keyword property)

def importExpression (g : Grammar) : Parse Syntax := do
  let start ← startHere
  faultIf ((← currentLexeme) == .word "import" true)
  let keyword ← identifierName
  if ← eatMark "." then
    if ← atWord "meta" then
      faultIf ((← currentLexeme) == .word "meta" true)
      metaProperty start keyword (← identifierName)
    else
      require ((← eatWord "source") || (← eatWord "defer"))
      importCall g start
  else importCall g start

def superExpression : Parse Syntax := do
  let start ← startHere
  advanceWord
  faultIf (!((← atMark ".") || (← atMark "[") || (← atMark "(")))
  finish start .super

def primary (g : Grammar) : Parse Syntax := do
  if ← atFunction then return ← functionExpression g
  let start ← startHere
  match ← currentLexeme with
  | .word "this" _ =>
    advanceWord
    finish start .this
  | .word "null" _ => literalWord .null
  | .word "true" _ => literalWord (.boolean · true)
  | .word "false" _ => literalWord (.boolean · false)
  | .word "class" _ => classExpression g
  | .word "super" _ => superExpression
  | .word "import" _ => importExpression g
  | .word _ _ => identifierReference
  | .mark "@" => classExpression g
  | .mark "[" => arrayLiteral g
  | .mark "\x7b" => objectLiteral g
  | .mark "(" => parenthesisedExpression g
  | .mark "/" | .mark "/=" => regexLiteral
  | .chunk _ _ => templateLiteral g false
  | _ => plainLiteral
where
  literalWord (make : Span → Syntax) : Parse Syntax := do
    if let .word _ true ← currentLexeme then fault
    literal make

/-- The member of an object that is named by the current token. -/
def namedMember (start : Nat) (object : Syntax) (optional : Bool) : Parse Syntax := do
  if let .privateName _ ← currentLexeme then
    let property ← privateName
    finish start (.privateMember · object property optional)
  else
    let property ← identifierName
    finish start (.staticMember · object property optional)

def computedMember (g : Grammar) (start : Nat) (object : Syntax) (optional : Bool) : Parse Syntax := do
  expectMark "["
  let property ← withIn g.expression
  expectMark "]"
  finish start (.computedMember · object property optional)

/-- The marks and words between operands, with how tight they bind. -/
def precedence? (l : Lexeme) : Option Nat :=
  match l with
  | .mark "??" => some 1
  | .mark "||" => some 2
  | .mark "&&" => some 3
  | .mark "|" => some 4
  | .mark "^" => some 5
  | .mark "&" => some 6
  | .mark "==" | .mark "!=" | .mark "===" | .mark "!==" => some 7
  | .mark "<" | .mark ">" | .mark "<=" | .mark ">=" => some 8
  | .word "instanceof" _ | .word "in" _ | .word "as" _ | .word "satisfies" _ => some 8
  | .mark "<<" | .mark ">>" | .mark ">>>" => some 9
  | .mark "+" | .mark "-" => some 10
  | .mark "*" | .mark "/" | .mark "%" => some 11
  | .mark "**" => some 12
  | _ => none

def Lexeme.startsExpression : Lexeme → Bool
  | .word name _ => !isReserved name || ["this", "super", "null", "true", "false", "function",
      "class", "new", "delete", "typeof", "void", "import"].contains name
  | .mark text => ["(", "[", "\x7b", "+", "-", "~", "!", "++", "--", "<", "/", "/=", "@"].contains text
  | .endOfText | .invalid => false
  | _ => true

def endsTypeArguments (t : Lexed) : Bool :=
  match t.lexeme with
  | .mark "(" | .chunk _ _ => true
  | .mark "<" | .mark ">" | .mark "+" | .mark "-" => false
  | l => t.newline || (precedence? l).isSome || !l.startsExpression

def expressionTypeArguments (g : Grammar) : Parse (Option (List Syntax)) := do
  if (← typescript) && ((← atMark "<") || (← atMark "<<")) then
    attempt do
      let types ← typeArguments g
      require (endsTypeArguments (← currentToken))
      return types
  else return none

/-- One more step of a chain of members. The flag says whether the chain has an optional step. -/
def memberStep (g : Grammar) (start : Nat) (x : Syntax) (optional : Bool) :
    Parse (Option (Syntax × Bool)) := do
  match ← currentLexeme with
  | .mark "." =>
    advance
    return some (← namedMember start x false, optional)
  | .mark "?." =>
    if (← nextIsMark "[") && !(← get).context.decorator then
      advance
      return some (← computedMember g start x true, true)
    else if ← nextIs fun t => t.lexeme.isName || t.lexeme matches .privateName _ then
      advance
      return some (← namedMember start x true, true)
    else return none
  | .mark "[" =>
    if (← get).context.decorator then return none
    return some (← computedMember g start x false, optional)
  | .mark "!" =>
    if !(← typescript) || (← onNewLine) then return none
    advance
    return some (← finish start (.nonNull · x), optional)
  | .chunk _ _ =>
    faultIf optional
    let quasi ← templateLiteral g true
    let (tag, types) := splitTypeArguments x
    return some (← finish start (.tagged · tag types quasi), optional)
  | _ =>
    match ← expressionTypeArguments g with
    | some types => return some (← finish start (.instantiation · x types), optional)
    | none => return none

def memberRest (g : Grammar) (start : Nat) (x : Syntax) (optional : Bool) : Parse (Syntax × Bool) :=
  iterate (fun c => memberStep g start c.1 c.2) (x, optional)

def callArguments (g : Grammar) : Parse (List Syntax) := do
  expectMark "("
  let (arguments, _) ← within ({ · with inOperator := true, decorator := false }) <|
    delimited ")" do
      if ← atMark "..." then spreadElement g else g.value
  expectMark ")"
  return arguments

def callStep (g : Grammar) (start : Nat) (x : Syntax) (optional : Bool) :
    Parse (Option (Syntax × Bool)) := do
  let questioned ← eatMark "?."
  let typed ← if questioned then expressionTypeArguments g else pure none
  if typed.isSome || (← atMark "(") then
    let arguments ← callArguments g
    let (callee, types) := splitTypeArguments x
    let call ← finish start (.call · callee (types ++ typed.getD []) arguments questioned)
    return some (← memberRest g start call (optional || questioned))
  else
    require (!questioned)
    return none

def newRest (g : Grammar) (base : Parse Syntax) : Parse Syntax := do
  let start ← startHere
  faultIf ((← currentLexeme) == .word "new" true)
  let keyword ← identifierName
  if ← eatMark "." then
    require (← atWord "target")
    faultIf ((← currentLexeme) == .word "target" true)
    metaProperty start keyword (← identifierName)
  else
    let calleeStart ← startHere
    let callee ← base
    faultIf (callee matches .importCall ..)
    let (callee, optional) ← memberRest g calleeStart callee false
    faultIf (optional || (← atMark "?."))
    let arguments ← if ← atMark "(" then callArguments g else pure []
    let (callee, types) := splitTypeArguments callee
    finish start (.new · callee types arguments)

def memberBaseWithin (g : Grammar) : Nat → Parse Syntax
  | 0 => failure
  | fuel + 1 => do
    if ← atWord "new" then newRest g (memberBaseWithin g fuel) else primary g

/-- What a chain of members starts with. -/
def memberBase (g : Grammar) : Parse Syntax := do
  memberBaseWithin g ((← get).here.length + 1)

def chained : Syntax → Syntax
  | x@(.staticMember s ..) | x@(.computedMember s ..) | x@(.privateMember s ..) | x@(.call s ..)
  | x@(.nonNull s _) => .chain s x
  | x => x

def leftHandSideRule (g : Grammar) : Parse Syntax := do
  let start ← startHere
  let base ← memberBase g
  let members ← memberRest g start base false
  let (x, optional) ← iterate (fun c => callStep g start c.1 c.2) members
  return if optional then chained x else x

def unaryOperator? : Lexeme → Option String
  | .mark text => if ["!", "~", "+", "-"].contains text then some text else none
  | .word name _ => if ["typeof", "void", "delete"].contains name then some name else none
  | _ => none

def updateOperator? : Lexeme → Option String
  | .mark text => if text == "++" || text == "--" then some text else none
  | _ => none

def updateExpression (g : Grammar) : Parse Syntax := do
  let start ← startHere
  if let some operator := updateOperator? (← currentLexeme) then
    advance
    let argument ← simpleTarget (← g.unary)
    return ← finish start (.update · operator true argument)
  let x ← leftHandSideRule g
  let t ← currentToken
  if let some operator := updateOperator? t.lexeme then
    if !t.newline then
      advance
      let argument ← simpleTarget x
      return ← finish start (.update · operator false argument)
  return x

/-- Whether `await` is an operator here. Where it is none it may not stand before an operand. -/
def atAwait : Parse Bool := do
  if !(← atWord "await") then return false
  if (← get).context.awaits then return true
  nextIs fun t => !t.newline && t.lexeme.isPlainKey

def awaitExpression (g : Grammar) : Parse Syntax := do
  let start ← startHere
  faultIf (!(← get).context.awaits)
  advanceWord
  let argument ← within ({ · with awaits := true }) g.unary
  finish start (.await · argument)

def typeAssertion (g : Grammar) : Parse Syntax := do
  let start ← startHere
  expectMark "<"
  let types ← g.type
  expectMark ">"
  let argument ← g.unary
  finish start (.typeAssertion · types argument)

def unaryRule (g : Grammar) : Parse Syntax := do
  let start ← startHere
  let l ← currentLexeme
  if let some operator := unaryOperator? l then
    advanceWord
    let argument ← g.unary
    finish start (.unary · operator argument)
  else if l == .mark "<" then
    require (← typescript)
    typeAssertion g
  else if ← atAwait then awaitExpression g
  else updateExpression g

def isLogical (operator : String) : Bool := ["??", "||", "&&"].contains operator

/-- Whether `??` may not stand beside the operation without parentheses. -/
def isMixed : Syntax → Bool
  | .logical _ operator _ _ => operator == "&&" || operator == "||"
  | _ => false

def binaryExpression (start : Nat) (operator : String) (left right : Syntax) : Parse Syntax := do
  if operator == "??" then
    faultIf (isMixed (if right matches .logical .. then right else left))
  if operator == "**" then faultIf (left matches .unary .. | .await ..)
  if isLogical operator then finish start (.logical · operator left right)
  else finish start (.binary · operator left right)

def Lexeme.spelling : Lexeme → String
  | .mark text => text
  | .word name _ => name
  | _ => ""

/-- One more operator that binds tighter than `limit`. Powers group to the right. -/
def binaryStep (g : Grammar) (start limit : Nat) (left : Syntax) : Parse (Option Syntax) := do
  rereadAngle
  let l ← currentLexeme
  let some level := precedence? l | return none
  if level < limit || (level == limit && level != 12) then return none
  if l.isWord "in" && !(← get).context.inOperator then return none
  if l.isWord "as" || l.isWord "satisfies" then
    if ← onNewLine then return none
    faultIf (!(← typescript))
    advanceWord
    let types ← g.type
    if l.isWord "as" then return some (← finish start (.typeAs · left types))
    else return some (← finish start (.satisfies · left types))
  advanceWord
  let right ← g.binary level
  return some (← binaryExpression start l.spelling left right)

def privateIn (g : Grammar) : Parse Syntax := do
  let start ← startHere
  let left ← privateName
  expectWord "in"
  let right ← g.binary 8
  finish start (.privateIn · left right)

def binaryRule (g : Grammar) (limit : Nat) : Parse Syntax := do
  let start ← startHere
  let isPrivate := (← currentLexeme) matches .privateName _
  let left ← if isPrivate && (← get).context.inOperator then privateIn g else unaryRule g
  iterate (binaryStep g start limit) left

/-- Whether parentheses open the parameters of an arrow function. -/
inductive Likelihood where
  | no
  | yes
  | maybe

def arrowAfterName (first : Lexed) : Parse Likelihood := do
  let second ← currentToken
  let modifies := first.lexeme.word?.any fun name => name != "async" && modifierWords.contains name
  if modifies && second.lexeme.isBindable then
    advance
    return if ← atWord "as" then .no else .yes
  if !(first.lexeme.isBindable || first.lexeme.isWord "this") then return .no
  match second.lexeme with
  | .mark ":" => return .yes
  | .mark "?" =>
    advance
    match ← currentLexeme with
    | .mark ":" | .mark "," | .mark "=" | .mark ")" => return .yes
    | _ => return .no
  | .mark "," | .mark "=" | .mark ")" => return .maybe
  | _ => return .no

def arrowLikelihood : Parse Likelihood := do
  if ← atWord "async" then
    advance
    if ← onNewLine then return .no
  match ← currentLexeme with
  | .mark "(" =>
    advance
    match ← currentLexeme with
    | .mark ")" =>
      advance
      match ← currentLexeme with
      | .mark "=>" | .mark ":" | .mark "\x7b" => return .yes
      | _ => return .no
    | .mark "[" | .mark "\x7b" => return .maybe
    | .mark "..." => return .yes
    | _ =>
      let first ← currentToken
      advance
      arrowAfterName first
  | .mark "<" =>
    require (← typescript)
    advance
    return if (← currentLexeme).isBindable || (← atWord "const") then .maybe else .no
  | _ => return .no

structure ArrowHead where
  async : Bool
  types : List Syntax
  params : Parameters
  returns : List Syntax
  typed : Bool

def arrowHead (g : Grammar) : Parse ArrowHead := do
  let async ← eatWord "async"
  let head ← within (fun c => { c with awaits := c.awaits || async }) do
    let types ← typeParameters g
    let params ← parameters g false
    let typed := (← typescript) && (← atMark ":")
    let returns ← returnType g
    return { async, types, params, returns, typed : ArrowHead }
  faultIf (← onNewLine)
  expectMark "=>"
  return head

/-- An expression as the body of an arrow function. -/
def conciseBody (x : Syntax) : Syntax := .functionBody x.span [] [.expressionStatement x.span x]

def arrowRest (g : Grammar) (start : Nat) (head : ArrowHead) (allowType : Bool) : Parse Syntax := do
  let braces ← atMark "\x7b"
  let body ← within ({ · with awaits := head.async, yields := false }) <|
    if braces then functionBody g else conciseBody <$> g.assignment allowType
  finish start
    (.arrow · (head.types ++ head.params.receiver) head.params.items head.params.rest head.returns body
      head.async (!braces))

def arrowFunction (g : Grammar) (allowType : Bool) : Parse Syntax := do
  let start ← startHere
  let head ← arrowHead g
  let x ← arrowRest g start head allowType
  if head.typed && !allowType then require (← atMark ":")
  return x

/-- An arrow function with parentheses around its parameters. -/
def parenthesisedArrow (g : Grammar) (allowType : Bool) : Parse (Option Syntax) := do
  match ← peek arrowLikelihood with
  | some .yes => return some (← arrowFunction g true)
  | some .maybe => attempt (arrowFunction g allowType)
  | _ => return none

/-- An arrow function whose only parameter is a name without parentheses. -/
def nameArrow (g : Grammar) (start : Nat) (s : Span) (name : String) (async allowType : Bool) :
    Parse Syntax := do
  faultIf (← onNewLine)
  expectMark "=>"
  let params := { receiver := [], items := [.parameter s (.binding s name) []], rest := none }
  arrowRest g start { async, types := [], params, returns := [], typed := false } allowType

def asyncArrow (g : Grammar) (allowType : Bool) : Parse (Option Syntax) := do
  let fits ← lookahead do
    expectWord "async"
    require (!(← onNewLine))
    let _ ← identifierReference
    return (← atMark "=>") && !(← onNewLine)
  if !fits then return none
  let start ← startHere
  advanceWord
  let .reference s name ← identifierReference | failure
  return some (← nameArrow g start s name true allowType)

def yieldExpression (g : Grammar) : Parse Syntax := do
  let start ← startHere
  advanceWord
  let (delegate, argument) ←
    if ← onNewLine then pure (false, none)
    else
      let delegate ← eatMark "*"
      let l ← currentLexeme
      let ends := l == .endOfText || l.isWord "in" || [":", ";", "\x7d", "]", ")", ","].any l.isMark
      if !ends || delegate then pure (delegate, some (← g.value)) else pure (delegate, none)
  finish start (.yield · delegate argument)

def assignmentOperators : List String :=
  ["=", "+=", "-=", "*=", "/=", "%=", "**=", "<<=", ">>=", ">>>=", "&=", "|=", "^=", "&&=", "||=",
   "??="]

def assignmentOperator? : Lexeme → Option String
  | .mark text => if assignmentOperators.contains text then some text else none
  | _ => none

def conditionalRest (g : Grammar) (start : Nat) (test : Syntax) (allowType : Bool) : Parse Syntax := do
  if ← eatMark "?" then
    let consequent ← withIn (g.assignment false)
    expectMark ":"
    let alternate ← g.assignment allowType
    finish start (.conditional · test consequent alternate)
  else return test

def assignmentRule (g : Grammar) (allowType : Bool) : Parse Syntax := do
  if (← atWord "yield") && (← get).context.yields then return ← yieldExpression g
  if let some arrow ← parenthesisedArrow g allowType then return arrow
  if let some arrow ← asyncArrow g allowType then return arrow
  let start ← startHere
  let left ← binaryRule g 0
  if ← atMark "=>" then
    if let .reference s name := left then return ← nameArrow g start s name false allowType
  if let some operator := assignmentOperator? (← currentLexeme) then
    let target ← if operator == "=" then assignmentTarget left else simpleTarget left
    advance
    let right ← g.assignment allowType
    return ← finish start (.assignment · operator target right)
  conditionalRest g start left allowType

def expressionRule (g : Grammar) : Parse Syntax := within ({ · with decorator := false }) do
  let start ← startHere
  let first ← g.value
  if !(← atMark ",") then return first
  let rest ← many do
    if ← eatMark "," then return some (← g.value) else return none
  finish start (.sequence · (first :: rest))

end SvelteSyntax.Script
