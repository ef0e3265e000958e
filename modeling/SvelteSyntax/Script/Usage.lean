import SvelteSyntax.Script.Syntax

namespace SvelteSyntax.Script

/-- What a script does with a name. -/
inductive Use where
  | reads (name : String) (offset : Nat)
  | binds (name : String)
  | reassigns (name : String)
  | mutates (name : String)
  deriving DecidableEq, Repr

namespace Syntax

/-- The variable under a chain of member accesses. -/
def root? : Syntax → Option String
  | .reference _ name => some name
  | .staticMember _ x _ _ | .computedMember _ x _ _ | .privateMember _ x _ _ =>
    root? x
  | .parenthesised _ x => root? x
  | _ => none

/-- What an assignment to a variable or a member does. -/
def assigned : Syntax → List Use
  | .reference _ name => [.reassigns name]
  | .staticMember _ x _ _ | .computedMember _ x _ _ | .privateMember _ x _ _ =>
    (root? x).toList.map .mutates
  | _ => []

/-- The uses that are told by the root of a tree. -/
def ownUses : Syntax → List Use
  | .reference s name => [.reads name s.start]
  | .binding _ name => [.binds name]
  | .assignment _ _ target _ | .update _ _ _ target | .forIn _ target _ _ | .forOf _ _ target _ _
  | .targetProperty _ _ target _ | .targetDefault _ target _ | .targetRest _ target
  | .targetShorthand _ target _ => assigned target
  | .arrayTarget _ elements _ => (elements.filterMap id).flatMap assigned
  | _ => []

def uses (x : Syntax) : List Use := x.nodes.flatMap ownUses

mutual

/-- The names that a pattern declares, from left to right. Keys and defaults are not entered. -/
def names : Syntax → List (Span × String)
  | .binding s name => [(s, name)]
  | .objectPattern _ properties rest => namesOfProperties properties ++ namesOfRest rest
  | .arrayPattern _ elements rest => namesOfElements elements ++ namesOfRest rest
  | .assignmentPattern _ x _ => names x
  | _ => []

def namesOfProperties : List Syntax → List (Span × String)
  | [] => []
  | .bindingProperty _ _ x _ _ :: xs => names x ++ namesOfProperties xs
  | _ :: xs => namesOfProperties xs

def namesOfElements : List (Option Syntax) → List (Span × String)
  | [] => []
  | none :: xs => namesOfElements xs
  | some x :: xs => names x ++ namesOfElements xs

def namesOfRest : Option Syntax → List (Span × String)
  | some (.restElement _ x _) => names x
  | _ => []

end

/-- The names that a declaration of variables, a function or a class declares. -/
def declaredNames : Syntax → List (Span × String)
  | .variables _ _ declarators => declarators.flatMap fun
    | .declarator _ id _ _ => names id
    | _ => []
  | .function _ true (some (.binding s name)) .. | .classLike _ true _ (some (.binding s name)) .. =>
    [(s, name)]
  | _ => []

/-- The text of a name that a module exports, or of a key. -/
def exportName? : Syntax → Option String
  | .reference _ name | .binding _ name | .word _ name => some name
  | .string _ value _ => some value
  | _ => none

end Syntax

def SyntaxProgram.uses (p : SyntaxProgram) : List Use := p.nodes.flatMap Syntax.ownUses

end SvelteSyntax.Script
