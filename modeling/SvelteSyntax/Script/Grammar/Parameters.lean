import SvelteSyntax.Script.Grammar.Basic
import SvelteSyntax.Script.Grammar.Target

namespace SvelteSyntax.Script

def typeAnnotation (g : Grammar) : Parse (List Syntax) := do
  if (← typescript) && (← atMark ":") then
    advance
    g.type
  else return []

def withDefault (g : Grammar) (start : Nat) (left : Syntax) : Parse Syntax := do
  if ← eatMark "=" then
    let right ← withIn g.value
    finish start (.assignmentPattern · left right)
  else return left

def patternElement (g : Grammar) : Parse Syntax := do
  let start ← startHere
  withDefault g start (← g.pattern)

/-- Nothing but a stray comma follows a rest element, and that only where nothing is bound. -/
def afterRest (close : String) : Parse Unit := do
  if ← atMark "," then
    require (← nextIsMark close)
    faultIf (!(← get).context.ambient)
  else require (← atMark close)

/-- A rest element, which must be the last one. It has no default. -/
def restElement (g : Grammar) (close : String) : Parse Syntax := do
  let start ← startHere
  expectMark "..."
  let argument ← g.pattern
  if ← eatMark "=" then
    fault
    let _ ← withIn g.value
  let rest ← finish start (.restElement · argument [])
  afterRest close
  return rest

def patternPropertyRule (g : Grammar) : Parse Syntax := do
  let t ← currentToken
  let (key, computed) ← propertyKey g
  if !computed && t.lexeme.isName && !(← atMark ":") then
    let .word name _ := t.lexeme | failure
    require t.lexeme.isBindable
    faultIf (!t.lexeme.isVariable (← get).context)
    let value ← withDefault g t.start (.binding t.span name)
    finish t.start (.bindingProperty · key value true false)
  else
    expectMark ":"
    let value ← patternElement g
    finish t.start (.bindingProperty · key value false computed)

def isRest (x : Syntax) : Bool := x matches .restElement ..

def objectPattern (g : Grammar) : Parse Syntax := do
  let start ← startHere
  expectMark "\x7b"
  let (properties, _) ← delimited "\x7d" do
    if ← atMark "..." then
      let rest ← restElement g "\x7d"
      require (rest matches .restElement _ (.binding ..) _)
      return rest
    else patternPropertyRule g
  expectMark "\x7d"
  finish start (.objectPattern · (properties.filter (!isRest ·)) (properties.find? isRest))

def arrayPattern (g : Grammar) : Parse Syntax := do
  let start ← startHere
  expectMark "["
  let (elements, _) ← delimited "]" do
    if ← atMark "," then return none
    else if ← atMark "..." then return some (← restElement g "]")
    else return some (← patternElement g)
  expectMark "]"
  finish start
    (.arrayPattern · (elements.filter (!·.any isRest)) ((elements.filterMap id).find? isRest))

def patternRule (g : Grammar) : Parse Syntax := do
  if ← atMark "\x7b" then objectPattern g
  else if ← atMark "[" then arrayPattern g
  else bindingIdentifier

def decorators (g : Grammar) : Parse (List Syntax) := many do
  if ← eatMark "@" then return some (← within ({ · with decorator := true }) g.leftHandSide)
  else return none

def Lexeme.followsModifier (l : Lexeme) : Bool :=
  l.isPlainKey || l.isMark "[" || l.isMark "\x7b" || l.isMark "*" || l.isMark "..." ||
    match l with
    | .privateName _ => true
    | _ => false

def Lexeme.followsAccessor (l : Lexeme) : Bool :=
  l.isPlainKey || l.isMark "[" ||
    match l with
    | .privateName _ => true
    | _ => false

/-- The words that can modify a declaration or a member. -/
def modifierWords : List String :=
  ["abstract", "accessor", "async", "const", "declare", "export", "in", "out", "override",
   "private", "protected", "public", "readonly", "static"]

/-- A modifier in front of something else on its line. What follows `static` may be on the next. -/
def modifier (words : List String) : Parse (Option String) := do
  let .word name _ ← currentLexeme | return none
  if !words.contains name then return none
  let follows ← nextIs fun t => (name == "static" || !t.newline) && t.lexeme.followsModifier
  if !follows then return none
  advanceWord
  return some name

/-- `get` or `set` in front of a key. -/
def accessorWord (name : String) : Parse Bool := do
  if (← atWord name) && (← nextIs (·.lexeme.followsAccessor)) then
    advanceWord
    return true
  else return false

def parameter (g : Grammar) (method : Bool) : Parse Syntax := do
  let start ← startHere
  let decorators ← decorators g
  if ← typescript then
    let words := if method then ["public", "private", "protected", "override", "readonly"]
      else ["readonly"]
    let _ ← many (modifier words)
  let pattern ← g.pattern
  if ← typescript then let _ ← eatMark "?"
  let types ← typeAnnotation g
  let initialiser ← if ← eatMark "=" then some <$> withIn g.value else pure none
  finish start (.parameter · pattern (decorators ++ types ++ initialiser.toList))

def restParameter (g : Grammar) : Parse Syntax := do
  let decorators ← decorators g
  let start ← startHere
  expectMark "..."
  let argument ← g.pattern
  if ← typescript then faultIf (← eatMark "?")
  let types ← typeAnnotation g
  if ← eatMark "=" then
    fault
    let _ ← withIn g.value
  let rest ← finish start (.restElement · argument (decorators ++ types))
  afterRest ")"
  return rest

structure Parameters where
  /-- The type of `this`. -/
  receiver : List Syntax
  items : List Syntax
  rest : Option Syntax

/-- All that the parameters consist of. -/
def Parameters.parts (p : Parameters) : List Syntax := p.receiver ++ p.items ++ p.rest.toList

/-- The parameters of a function in their parentheses. The first one may give the type of `this`. -/
def parameters (g : Grammar) (method : Bool) : Parse Parameters := do
  expectMark "("
  let receiver ← if (← typescript) && (← atWord "this") then
      advanceWord
      let types ← typeAnnotation g
      unless ← atMark ")" do expectMark ","
      pure types
    else pure []
  let (params, _) ← delimited ")" do
    if (← atMark "...") || (← lookahead do let _ ← decorators g; atMark "...") then restParameter g
    else parameter g method
  expectMark ")"
  return { receiver, items := params.filter (!isRest ·), rest := params.find? isRest }

end SvelteSyntax.Script
