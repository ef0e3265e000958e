import SvelteSyntax.Script.Grammar.Statements
import SvelteSyntax.Script.Usage

namespace SvelteSyntax.Script

def exportName : Parse Syntax := do
  match ← currentLexeme with
  | .string _ => stringLiteral
  | _ => identifierName

/-- The lexemes after the current one, for as many as `count` tokens. -/
def lexemesAfter : Nat → Parse (List Lexeme)
  | 0 => return []
  | n + 1 => do
    match ← attempt advance with
    | none => return []
    | some _ =>
      let l ← currentLexeme
      return l :: (← lexemesAfter n)

def marksType : List Lexeme → Bool
  | .mark "," :: _ | .mark "\x7d" :: _ => false
  | .word "as" _ :: second :: rest =>
    if second.isMark "," || second.isMark "\x7d" then true
    else if second.isWord "as" then
      match rest with
      | .mark "," :: _ | .mark "\x7d" :: _ => false
      | _ => true
    else false
  | _ => true

def skipTypeMark : Parse Unit := do
  if (← typescript) && (← atWord "type") then
    let next ← peek (lexemesAfter 3)
    if marksType (next.getD []) then advanceWord

def importAttributes (g : Grammar) : Parse Unit := do
  let marked := (← atWord "with") || ((← atWord "assert") && !(← onNewLine))
  if marked then
    advanceWord
    expectMark "\x7b"
    let (keys, _) ← delimited "\x7d" do
      let (key, computed) ← propertyKey g
      require (!computed)
      expectMark ":"
      let _ ← stringLiteral
      return key.exportName?
    faultIf (keys.eraseDups.length != keys.length)
    expectMark "\x7d"

def importSpecifier : Parse Syntax := do
  skipTypeMark
  let t ← currentToken
  let imported ← exportName
  let name ← if ← eatWord "as" then bindingIdentifier
    else
      let .word s name := imported | failure
      require t.lexeme.isBindable
      pure (.binding s name)
  finish t.start (.importSpecifier · imported name)

def namespaceSpecifier : Parse Syntax := do
  let start ← startHere
  expectMark "*"
  expectWord "as"
  let name ← bindingIdentifier
  finish start (.importNamespace · name)

def namedSpecifiers : Parse (List Syntax) := do
  expectMark "\x7b"
  let (specifiers, _) ← delimited "\x7d" importSpecifier
  expectMark "\x7d"
  return specifiers

def importSpecifiers : Parse (List Syntax) := do
  if ← atMark "*" then return [← namespaceSpecifier]
  if ← atMark "\x7b" then return ← namedSpecifiers
  let name ← bindingIdentifier
  let first := .importDefault name.span name
  if ← eatMark "," then
    if ← atMark "*" then return [first, ← namespaceSpecifier]
    return first :: (← namedSpecifiers)
  return [first]

def skipImportKind : Parse Unit := do
  if (← typescript) && (← atWord "type") then
    let next := (← peek (lexemesAfter 2)).getD []
    let marks := match next with
      | .mark "\x7b" :: _ | .mark "*" :: _ => true
      | .word "from" _ :: second :: _ => second.isWord "from" || second.isMark "="
      | .word _ _ :: _ => true
      | _ => false
    if marks then advanceWord
  else if ← atWord "source" then
    let next := (← peek (lexemesAfter 2)).getD []
    if next matches .word _ _ :: .word "from" _ :: _ then advanceWord
  else if ← atWord "defer" then
    if ← nextIsMark "*" then advanceWord

/-- A name for another module or namespace. -/
def importAlias : Parse (List Syntax) := do
  let name ← bindingIdentifier
  expectMark "="
  if (← atWord "require") && (← nextIsMark "(") then
    advanceWord
    advance
    let source ← stringLiteral
    expectMark ")"
    endStatement
    return [name, source]
  else
    let target ← typeName
    endStatement
    return name :: target

def atImportAlias : Parse Bool := do
  return (← typescript) && (← currentLexeme).isBindable && (← nextIsMark "=")

def importDeclaration (g : Grammar) : Parse Syntax := do
  let start ← startHere
  advanceWord
  skipImportKind
  if ← atImportAlias then
    let parts ← importAlias
    return ← finish start (.typeDeclaration · parts)
  let specifiers ← match ← currentLexeme with
    | .string _ => pure []
    | _ =>
      let specifiers ← importSpecifiers
      expectWord "from"
      pure specifiers
  let source ← stringLiteral
  importAttributes g
  endStatement
  finish start (.importDeclaration · specifiers source)

structure ExportSpecifier where
  name : Syntax
  exported : Syntax
  span : Span
  nameToken : Lexed

def exportSpecifier : Parse ExportSpecifier := do
  skipTypeMark
  let nameToken ← currentToken
  let name ← exportName
  let exported ← if ← eatWord "as" then exportName else pure name
  return { name, exported, span := ⟨nameToken.start, ← lastStop⟩, nameToken }

/-- Without a source the names must be those of variables. -/
def localSpecifier (s : ExportSpecifier) : Parse Syntax := do
  match s.nameToken.lexeme with
  | .word name _ =>
    faultIf (isReserved name)
    return .exportSpecifier s.span (.reference s.nameToken.span name) s.exported
  | _ =>
    fault
    return .exportSpecifier s.span s.name s.exported

def exportList (g : Grammar) (start : Nat) : Parse Syntax := do
  expectMark "\x7b"
  let (specifiers, _) ← delimited "\x7d" exportSpecifier
  expectMark "\x7d"
  if ← eatWord "from" then
    let source ← stringLiteral
    importAttributes g
    endStatement
    let specifiers := specifiers.map fun s => .exportSpecifier s.span s.name s.exported
    finish start (.exportNamed · none specifiers (some source))
  else
    let specifiers ← specifiers.mapM localSpecifier
    endStatement
    finish start (.exportNamed · none specifiers none)

def exportAll (g : Grammar) (start : Nat) : Parse Syntax := do
  expectMark "*"
  let exported ← if ← eatWord "as" then some <$> exportName else pure none
  expectWord "from"
  let source ← stringLiteral
  importAttributes g
  endStatement
  finish start (.exportAll · exported source)

def defaultDeclaration (g : Grammar) (before : List Syntax) : Parse Syntax := do
  let start ← startHere
  let decorators := before ++ (← decorators g)
  if ← atFunction then functionDeclaration g start false
  else if ← atWord "class" then classRest g true start decorators false
  else if (← atWord "abstract") && (← nextIs fun t => !t.newline && t.lexeme.isWord "class") then
    advanceWord
    classRest g true start decorators false
  else if (← atWord "interface") && (← nextIs fun t => !t.newline && t.lexeme.isBindable) then
    let parts ← interfaceDeclaration g
    finish start (.typeDeclaration · (decorators ++ parts))
  else
    let expression ← g.value
    endStatement
    return expression

def exportDefault (g : Grammar) (start : Nat) (before : List Syntax) : Parse Syntax := do
  expectWord "default"
  let declaration ← defaultDeclaration g before
  finish start (.exportDefault · declaration)

def exportedDeclaration (g : Grammar) (start : Nat) (before : List Syntax) : Parse Syntax := do
  let declarationStart ← startHere
  let decorators := before ++ (← decorators g)
  let declaration ←
    if (← typescript) && (← atWord "import") then
      advanceWord
      let parts ← importAlias
      finish declarationStart (.typeDeclaration · parts)
    else declaration g declarationStart decorators
  finish start (.exportNamed · (some declaration) [] none)

def typedExport (g : Grammar) (start : Nat) : Parse (Option Syntax) := do
  if !(← typescript) then return none
  if ← eatMark "=" then
    let expression ← g.expression
    endStatement
    return some (← finish start (.typeDeclaration · [expression]))
  if (← atWord "as") && (← nextIs (·.lexeme.isWord "namespace")) then
    advanceWord
    advanceWord
    let name ← identifierName
    endStatement
    return some (← finish start (.typeDeclaration · [name]))
  if (← atWord "type") && (← nextIs fun t => t.lexeme.isMark "\x7b" || t.lexeme.isMark "*") then
    advanceWord
    return some (← if ← atMark "\x7b" then exportList g start else exportAll g start)
  return none

/-- What is exported, with the decorators before it. -/
def exportDeclaration (g : Grammar) (start : Nat) (before : List Syntax) : Parse Syntax := do
  expectWord "export"
  if let some x ← typedExport g start then return x
  match ← currentLexeme with
  | .word "default" _ => exportDefault g start before
  | .mark "*" => exportAll g start
  | .mark "\x7b" => exportList g start
  | _ => exportedDeclaration g start before

def decoratedStatement (g : Grammar) : Parse Syntax := do
  let start ← startHere
  let decorators ← decorators g
  if ← atWord "export" then exportDeclaration g start decorators
  else
    if ← typescript then
      let _ ← many declarationModifier
    classRest g true start decorators true

def wordStatement (g : Grammar) (alone : Bool) (name : String) (escaped : Bool) : Parse Syntax := do
  let start ← startHere
  match name with
  | "if" => ifStatement g
  | "for" => forStatement g
  | "while" => whileStatement g
  | "do" => doStatement g
  | "continue" => jumpStatement .continueStatement
  | "break" => jumpStatement .breakStatement
  | "return" => returnStatement g
  | "with" => withStatement g
  | "switch" => switchStatement g
  | "throw" => throwStatement g
  | "try" => tryStatement g
  | "debugger" => debuggerStatement
  | "class" =>
    faultIf alone
    classRest g true start [] true
  | "export" => exportDeclaration g start []
  | "import" =>
    if ← nextIs fun t => t.lexeme.isMark "(" || t.lexeme.isMark "." then expressionOrLabel g
    else importDeclaration g
  | "var" => variableDeclaration g start .statement
  | "const" =>
    if (← typescript) && (← nextIs (·.lexeme.isWord "enum")) then typeDeclaration g
    else
      faultIf alone
      variableDeclaration g start .statement
  | "let" => if escaped then expressionOrLabel g else letStatement g alone
  | _ =>
    if (← atUsing) || (← atAwaitUsing) then
      faultIf alone
      usingDeclaration g .statement
    else if ← atFunction then
      let declaration ← functionDeclaration g start true
      let simple := declaration matches .function _ _ _ _ _ _ _ _ false false
      faultIf (alone && !simple)
      return declaration
    else if (← typescript) && (← atTypeDeclaration) then typeDeclaration g
    else expressionOrLabel g

def statementRule (g : Grammar) (alone : Bool) : Parse Syntax := do
  match ← currentLexeme with
  | .mark "\x7b" => block g
  | .mark ";" =>
    let start ← startHere
    advance
    finish start .empty
  | .mark "@" => decoratedStatement g
  | .word name escaped => wordStatement g alone name escaped
  | _ => expressionOrLabel g

def exportedNames : Syntax → List String
  | .exportNamed _ declaration specifiers _ =>
    ((declaration.map Syntax.declaredNames).getD []).map Prod.snd ++ specifiers.filterMap fun
      | .exportSpecifier _ _ exported => exported.exportName?
      | _ => none
  | .exportDefault .. => ["default"]
  | .exportAll _ exported _ => (exported.bind Syntax.exportName?).toList
  | _ => []

/-- No name may be exported twice, except where types can be. -/
def checkExports (body : List Syntax) : Parse Unit := do
  let names := body.flatMap exportedNames
  faultIf (!(← typescript) && names.eraseDups.length != names.length)

def programRule (g : Grammar) : Parse SyntaxProgram := do
  let body ← statements g
  require ((← currentLexeme) == .endOfText)
  checkExports body
  let (directives, statements) := splitDirectives body
  return { directives, statements }

end SvelteSyntax.Script
