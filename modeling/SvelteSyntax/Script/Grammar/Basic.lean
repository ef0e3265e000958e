import SvelteSyntax.Script.State

namespace SvelteSyntax.Script

structure Grammar where
  /-- One or more expressions with commas between them. -/
  expression : Parse Syntax
  /-- One expression; the flag admits a return type after the parameters of an arrow function. -/
  assignment : Bool → Parse Syntax
  /-- An expression of operators that bind tighter than the given one. -/
  binary : Nat → Parse Syntax
  unary : Parse Syntax
  leftHandSide : Parse Syntax
  /-- A statement; the flag says that it stands alone and not in a list. -/
  statement : Bool → Parse Syntax
  /-- A pattern that declares variables. -/
  pattern : Parse Syntax
  /-- A type, as the parts in which it uses names. -/
  type : Parse (List Syntax)

/-- The grammar that accepts nothing. -/
def Grammar.none : Grammar where
  expression := failure
  assignment _ := failure
  binary _ := failure
  unary := failure
  leftHandSide := failure
  statement _ := failure
  pattern := failure
  type := failure

/-- One expression with nothing special about it. -/
def Grammar.value (g : Grammar) : Parse Syntax := g.assignment true

def propertyKey (g : Grammar) : Parse (Syntax × Bool) := do
  match ← currentLexeme with
  | .word _ _ => return (← identifierName, false)
  | .mark "[" =>
    advance
    let key ← withIn g.value
    expectMark "]"
    return (key, true)
  | _ => return (← plainLiteral, false)

/-- An expression in parentheses after a keyword. -/
def condition (g : Grammar) : Parse Syntax := do
  expectMark "("
  let test ← withIn g.expression
  expectMark ")"
  return test

def templateElement (tagged : Bool) : Parse Syntax := do
  let t ← currentToken
  let .chunk cooked last := t.lexeme | failure
  faultIf (!tagged && cooked.isNone)
  let closing := if last then 1 else 2
  let raw := (t.raw.drop 1).take (t.raw.length - 1 - closing)
  let raw := if cooked.isSome then unifyLineEnds raw else raw
  return .chunk ⟨t.start + 1, t.stop - closing⟩ (String.ofList raw) cooked last
where
  unifyLineEnds : List Char → List Char
    | '\r' :: '\n' :: cs => '\n' :: unifyLineEnds cs
    | '\r' :: cs => '\n' :: unifyLineEnds cs
    | c :: cs => c :: unifyLineEnds cs
    | [] => []

/-- Rereads the brace that closes a substitution as the chunk that follows it. -/
def rereadChunk : Parse Unit := do
  require (← atMark "\x7d")
  reread fun cs => do
    let (pieces, last, rest) ← readChunk cs.length (cs.drop 1)
    return (.chunk (pieces.map cook) last, rest)

def isTail (chunk : Syntax) : Bool := chunk matches .chunk _ _ _ true

def templateParts {α : Type} (tagged : Bool) (substitution : Parse α) :
    Parse (List Syntax × List α) := do
  let first ← templateElement tagged
  advance
  if isTail first then return ([first], [])
  let parts ← iterate (fun (parts : List (Syntax × α) × Bool) => do
    if parts.2 then return none
    let a ← substitution
    rereadChunk
    let element ← templateElement tagged
    advance
    return some (parts.1 ++ [(element, a)], isTail element)) ([], false)
  return (first :: parts.1.map Prod.fst, parts.1.map Prod.snd)

end SvelteSyntax.Script
