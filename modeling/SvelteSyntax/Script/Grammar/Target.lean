import SvelteSyntax.Script.State

namespace SvelteSyntax.Script

/-- Whether the expression is a variable or a member once type operators and parentheses are left
out. -/
def isPlace : Syntax → Bool
  | .reference .. | .staticMember .. | .computedMember .. | .privateMember .. => true
  | .parenthesised _ x | .typeAs _ x _ | .satisfies _ x _ | .nonNull _ x => isPlace x
  | _ => false

def simpleTarget : Syntax → Parse Syntax
  | .parenthesised _ x => simpleTarget x
  | x@(.reference ..) | x@(.staticMember ..) | x@(.computedMember ..) | x@(.privateMember ..) => return x
  | x@(.typeAs ..) | x@(.satisfies ..) | x@(.nonNull ..) => do
    require (isPlace x)
    return x
  | x@(.typeAssertion _ _ argument) => do
    require (isPlace argument)
    return x
  | _ => failure

def takeInitialiser (start : Nat) : Parse (Option Syntax) := do
  let s ← get
  set { s with initialisers := s.initialisers.filter (·.1 != start) }
  return (s.initialisers.find? (·.1 == start)).map Prod.snd

mutual

/-- The target that an expression is on the left of `=`. -/
def assignmentTarget : Syntax → Parse Syntax
  | .array s elements => do
    let (elements, rest) ← elementTargets s elements
    return .arrayTarget s elements rest
  | .object s properties => do
    let (properties, rest) ← propertyTargets s properties
    return .objectTarget s properties rest
  | x => simpleTarget x

def elementTargets (s : Span) : List (Option Syntax) → Parse (List (Option Syntax) × Option Syntax)
  | [] => return ([], none)
  | none :: xs => do
    let (elements, rest) ← elementTargets s xs
    return (none :: elements, rest)
  | some (.spread t argument) :: xs => do
    require xs.isEmpty
    let target ← assignmentTarget argument
    faultIf ((← get).trailingCommas.contains s.start)
    return ([], some (.targetRest t target))
  | some (.assignment t operator left right) :: xs => do
    require (operator == "=")
    let (elements, rest) ← elementTargets s xs
    return (some (.targetDefault t left right) :: elements, rest)
  | some x :: xs => do
    let target ← assignmentTarget x
    let (elements, rest) ← elementTargets s xs
    return (some target :: elements, rest)

def propertyTargets (s : Span) : List Syntax → Parse (List Syntax × Option Syntax)
  | [] => return ([], none)
  | .spread t argument :: xs => do
    require xs.isEmpty
    let target ← assignmentTarget argument
    faultIf ((← get).trailingCommas.contains s.start)
    return ([], some (.targetRest t target))
  | .property t _ value _ _ true _ :: xs => do
    let initialiser ← takeInitialiser t.start
    let (properties, rest) ← propertyTargets s xs
    return (.targetShorthand t value initialiser :: properties, rest)
  | .property t key (.assignment u operator left right) _ _ _ computed :: xs => do
    require (operator == "=")
    let (properties, rest) ← propertyTargets s xs
    return (.targetProperty t key (.targetDefault u left right) computed :: properties, rest)
  | .property t key value _ _ _ computed :: xs => do
    let target ← assignmentTarget value
    let (properties, rest) ← propertyTargets s xs
    return (.targetProperty t key target computed :: properties, rest)
  | _ :: _ => failure

end

end SvelteSyntax.Script
