import SvelteSyntax.Script.Grammar.Parameters

namespace SvelteSyntax.Script

def typeName : Parse (List Syntax) := do
  let t ← currentToken
  let .word name _ := t.lexeme | failure
  advance
  let _ ← many do
    if ← atMark "." then
      advance
      let _ ← identifierName
      return some ()
    else return none
  return if name == "this" then [] else [.reference t.span name]

def typeArguments (g : Grammar) : Parse (List Syntax) := do
  rereadOpeningAngle
  expectMark "<"
  let (types, _) ← delimited ">" g.type
  require (!types.isEmpty)
  expectMark ">"
  return types.flatten

def typeArgumentsOnLine (g : Grammar) : Parse (List Syntax) := do
  if !(← onNewLine) && ((← atMark "<") || (← atMark "<<")) then typeArguments g else return []

/-- A type after a word, if the word is there. -/
def typeAfterWord (g : Grammar) (word : String) : Parse (List Syntax) := do
  if ← eatWord word then g.type else return []

def typeParameter (g : Grammar) : Parse (List Syntax) := do
  let _ ← many (modifier ["const", "in", "out"])
  let name ← bindingIdentifier
  let bound ← typeAfterWord g "extends"
  let initial ← if ← eatMark "=" then g.type else pure []
  return name :: bound ++ initial

def typeParameters (g : Grammar) : Parse (List Syntax) := do
  if (← typescript) && (← atMark "<") then
    advance
    let (types, _) ← delimited ">" (typeParameter g)
    faultIf types.isEmpty
    expectMark ">"
    return types.flatten
  else return []

/-- A type, or the statement that a parameter is of one. -/
def typeOrPredicate (g : Grammar) : Parse (List Syntax) := do
  let predicate ← lookahead do
    let t ← currentToken
    require (t.lexeme.isBindable || t.lexeme.isWord "this")
    advance
    return (← atWord "is") && !(← onNewLine)
  if predicate then
    advance
    advanceWord
    g.type
  else g.type

def returnType (g : Grammar) : Parse (List Syntax) := do
  if (← typescript) && (← atMark ":") then
    advance
    typeOrPredicate g
  else return []

def endTypeMember : Parse Unit := do
  unless ← eatMark "," do endStatement

/-- Whether brackets with a typed name inside start here. -/
def atIndexSignature : Parse Bool := lookahead do
  expectMark "["
  require (← currentLexeme).isBindable
  advance
  return (← atMark ":") || (← atMark ",") ||
    ((← atMark "?") && (← nextIs fun t => t.lexeme.isMark ":" || t.lexeme.isMark ","))

def indexSignature (g : Grammar) : Parse (List Syntax) := do
  expectMark "["
  let _ ← identifierName
  expectMark ":"
  let index ← g.type
  expectMark "]"
  return index ++ (← typeAnnotation g)

def callSignature (g : Grammar) : Parse (List Syntax) := do
  let types ← typeParameters g
  let params ← parameters g false
  let returns ← returnType g
  return types ++ params.parts ++ returns

def typeMember (g : Grammar) : Parse (List Syntax) := do
  let parts ← member
  endTypeMember
  return parts
where
  member : Parse (List Syntax) := do
    if (← atMark "(") || (← atMark "<") then callSignature g
    else if (← atWord "new") && (← nextIs fun t => t.lexeme.isMark "(" || t.lexeme.isMark "<") then
      advanceWord
      callSignature g
    else
      let _ ← many (modifier ["readonly"])
      if ← atIndexSignature then indexSignature g
      else
        unless ← accessorWord "get" do
          let _ ← accessorWord "set"
        let (key, _) ← propertyKey g
        let _ ← eatMark "?"
        let rest ← if (← atMark "(") || (← atMark "<") then callSignature g else typeAnnotation g
        return key :: rest

def typeMembers (g : Grammar) : Parse (List Syntax) := do
  expectMark "\x7b"
  let members ← many do
    if ← atMark "\x7d" then return none
    return some (← typeMember g)
  expectMark "\x7d"
  return members.flatten

def atMappedType : Parse Bool := lookahead do
  expectMark "\x7b"
  if (← eatMark "+") || (← eatMark "-") then atWord "readonly"
  else
    let _ ← eatWord "readonly"
    expectMark "["
    require (← currentLexeme).isBindable
    advance
    atWord "in"

def sign : Parse Bool := do
  if ← eatMark "+" then return true else eatMark "-"

def mappedType (g : Grammar) : Parse (List Syntax) := do
  expectMark "\x7b"
  if ← sign then expectWord "readonly" else
    let _ ← eatWord "readonly"
  expectMark "["
  let name ← bindingIdentifier
  expectWord "in"
  let keys ← g.type
  let renamed ← typeAfterWord g "as"
  expectMark "]"
  if ← sign then expectMark "?" else
    let _ ← eatMark "?"
  let types ← typeAnnotation g
  endTypeMember
  expectMark "\x7d"
  return name :: keys ++ renamed ++ types

def tupleElement (g : Grammar) : Parse (List Syntax) := do
  let _ ← eatMark "..."
  let named ← lookahead do
    require (← currentLexeme).isName
    advance
    let _ ← eatMark "?"
    atMark ":"
  if named then
    advance
    let _ ← eatMark "?"
    expectMark ":"
  g.type

def tupleType (g : Grammar) : Parse (List Syntax) := do
  expectMark "["
  let (elements, _) ← delimited "]" (tupleElement g)
  expectMark "]"
  return elements.flatten

def importType (g : Grammar) : Parse (List Syntax) := do
  expectWord "import"
  expectMark "("
  let source ← g.type
  let options ← if ← eatMark "," then
      if ← atMark ")" then pure none
      else
        let options ← g.value
        let _ ← eatMark ","
        pure (some options)
    else pure none
  expectMark ")"
  let _ ← many do
    if ← eatMark "." then
      let _ ← identifierName
      return some ()
    else return none
  return source ++ options.toList ++ (← typeArgumentsOnLine g)

def literalType : Parse (List Syntax) := do return [← plainLiteral]

def namedType (g : Grammar) : Parse (List Syntax) := do
  let name ← typeName
  return name ++ (← typeArgumentsOnLine g)

/-- A type that is one word. -/
def wordType : Parse (List Syntax) := do
  advanceWord
  return []

/-- The names of built-in types. -/
def typeKeywords : List String :=
  ["any", "unknown", "string", "number", "bigint", "symbol", "boolean", "undefined", "never",
   "object", "intrinsic"]

def primaryType (g : Grammar) : Parse (List Syntax) := do
  match ← currentLexeme with
  | .string _ | .number _ | .bigint => literalType
  | .chunk _ _ =>
    let (_, types) ← templateParts false g.type
    return types.flatten
  | .mark "-" =>
    advance
    match ← currentLexeme with
    | .number _ | .bigint => literalType
    | _ => failure
  | .mark "\x7b" => if ← atMappedType then mappedType g else typeMembers g
  | .mark "[" => tupleType g
  | .mark "(" =>
    advance
    let types ← g.type
    expectMark ")"
    return types
  | .word "this" _ => if ← nextIsMark "." then typeName else wordType
  | .word "void" _ | .word "null" _ | .word "true" _ | .word "false" _ => wordType
  | .word "import" _ => importType g
  | .word "typeof" _ =>
    advanceWord
    if ← atWord "import" then importType g else namedType g
  | .word "asserts" _ =>
    if ← nextIs fun t => !t.newline && (t.lexeme.isBindable || t.lexeme.isWord "this") then
      advanceWord
      advance
      typeAfterWord g "is"
    else namedType g
  | .word name _ =>
    if typeKeywords.contains name && !(← nextIsMark ".") then wordType else namedType g
  | _ => failure

/-- Whether a type can start with the token. -/
def Lexeme.startsType (l : Lexeme) : Bool :=
  l.isPlainKey || ["\x7b", "[", "<", "|", "&", "(", "-", "...", "!", "?", "*"].any l.isMark ||
    match l with
    | .chunk _ _ => true
    | _ => false

def postfixType (g : Grammar) : Parse (List Syntax) := do
  let first ← primaryType g
  let rest ← many do
    if ← onNewLine then return none
    if ← atMark "[" then
      advance
      let index ← if ← atMark "]" then pure [] else g.type
      expectMark "]"
      return some index
    else if ← atMark "?" then
      if ← nextIs (·.lexeme.startsType) then return none
      advance
      return some []
    else return none
  return first ++ rest.flatten

def inferredType (g : Grammar) : Parse (List Syntax) := do
  let name ← bindingIdentifier
  if ← atWord "extends" then
    let bound ← attempt do
      advanceWord
      let bound ← within ({ · with plainTypes := true }) g.type
      require ((← get).context.plainTypes || !(← atMark "?"))
      return bound
    return name :: bound.getD []
  else return [name]

def operatorType (g : Grammar) : Parse (List Syntax) := do
  let _ ← many do
    if (← eatWord "keyof") || (← eatWord "unique") || (← eatWord "readonly") then return some ()
    else return none
  if ← eatWord "infer" then inferredType g
  else within ({ · with plainTypes := false }) (postfixType g)

/-- Types with an operator between them, which may also stand in front. -/
def joinedTypes (operator : String) (operand : Parse (List Syntax)) : Parse (List Syntax) := do
  let _ ← eatMark operator
  let first ← operand
  let rest ← many do
    if ← eatMark operator then return some (← operand) else return none
  return first ++ rest.flatten

def unionType (g : Grammar) : Parse (List Syntax) := joinedTypes "|" (joinedTypes "&" (operatorType g))

def skipParameterStart (g : Grammar) : Parse Unit := do
  let t ← currentToken
  if t.lexeme.isBindable || t.lexeme.isWord "this" then advance
  else
    let _ ← g.pattern

/-- Whether the parenthesis opens the parameters of a function type. -/
def atParameters (g : Grammar) : Parse Bool := lookahead do
  expectMark "("
  if (← atMark ")") || (← atMark "...") then return true
  skipParameterStart g
  if (← atMark ":") || (← atMark ",") || (← atMark "?") || (← atMark "=") then return true
  expectMark ")"
  atMark "=>"

def atFunctionType (g : Grammar) : Parse Bool := do
  if ← atMark "<" then return true
  if ← atMark "(" then return ← atParameters g
  if ← atWord "new" then return true
  if ← atWord "abstract" then return ← nextIs (·.lexeme.isWord "new")
  return false

def functionType (g : Grammar) : Parse (List Syntax) := do
  let _ ← eatWord "abstract"
  let _ ← eatWord "new"
  let types ← typeParameters g
  let params ← parameters g false
  expectMark "=>"
  let returns ← typeOrPredicate g
  return types ++ params.parts ++ returns

def typeRule (g : Grammar) : Parse (List Syntax) := do
  if ← atFunctionType g then functionType g
  else
    let checked ← unionType g
    if !(← get).context.plainTypes && !(← onNewLine) && (← eatWord "extends") then
      let bound ← within ({ · with plainTypes := true }) g.type
      expectMark "?"
      let yes ← within ({ · with plainTypes := false }) g.type
      expectMark ":"
      let no ← within ({ · with plainTypes := false }) g.type
      return checked ++ bound ++ yes ++ no
    else return checked

end SvelteSyntax.Script
