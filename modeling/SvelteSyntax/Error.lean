import SvelteSyntax.Text.Position

namespace SvelteSyntax

open Text

/-- Which reader refused the source. -/
inductive Origin where
  | compiler
  | script
  | lexer
  | template
  deriving DecidableEq, Repr

def Origin.name : Origin → String
  | .compiler => "compiler"
  | .script => "script"
  | .lexer => "lexer"
  | .template => "template"

/-- A syntax error. Line and column count from one. -/
structure SyntaxError where
  message : String
  line : Nat
  column : Nat
  offset : Nat
  origin : Origin
  deriving DecidableEq, Repr

def SyntaxError.text (e : SyntaxError) : String :=
  e.message ++ " (" ++ toString e.line ++ ":" ++ toString e.column ++ ")"

/-- The ways in which a tree does not hold together. -/
inductive Fault where
  | duplicateTraversal (kind : String) (offset : Nat)
  | expressionKindMismatch (offset : Nat) (expected found : String)
  | identifierMismatch (offset : Nat) (expected found : String)
  | alreadyExpanded (kind field : String) (offset : Nat)
  | missingLexerToken (offset : Nat)
  | unexpectedLexerToken (offset : Nat) (expected found : String)
  | outOfRange (offset size : Nat)
  | structuralInvariant (kind : String) (offset : Nat) (reason : String)
  | scopeNesting (kind : String) (offset : Nat) (expected found : String)
  | missingDeclaration (kind : String) (offset : Nat)
  | danglingAncestry (depth : Nat)
  | conflictingReplacement (kind : String) (offset : Nat)
  | overlap (what : String) (offset previousEnd : Nat)
  | missingCompilerVariable (name : String)
  | unregisteredVariable (name : String)
  deriving DecidableEq, Repr

def Fault.name : Fault → String
  | .duplicateTraversal .. => "DuplicateTraversal"
  | .expressionKindMismatch .. => "ExpressionKindMismatch"
  | .identifierMismatch .. => "IdentifierMismatch"
  | .alreadyExpanded .. => "AlreadyExpanded"
  | .missingLexerToken .. => "MissingLexerToken"
  | .unexpectedLexerToken .. => "UnexpectedLexerToken"
  | .outOfRange .. => "OutOfRange"
  | .structuralInvariant .. => "StructuralInvariant"
  | .scopeNesting .. => "ScopeNesting"
  | .missingDeclaration .. => "MissingDeclaration"
  | .danglingAncestry .. => "DanglingAncestry"
  | .conflictingReplacement .. => "ConflictingReplacement"
  | .overlap .. => "Overlap"
  | .missingCompilerVariable .. => "MissingCompilerVariable"
  | .unregisteredVariable .. => "UnregisteredVariable"

/-- A name in a message. -/
def ticked (s : String) : String := "`" ++ s ++ "`"

def atOffset (offset : Nat) : String := " at offset " ++ toString offset

def Fault.text : Fault → String
  | .duplicateTraversal kind offset =>
    ticked kind ++ " node" ++ atOffset offset ++ " was traversed twice"
  | .expressionKindMismatch offset expected found =>
    "template expression" ++ atOffset offset ++ " re-parsed as " ++ ticked found ++ ", expected " ++
      ticked expected
  | .identifierMismatch offset expected found =>
    "identifier" ++ atOffset offset ++ " is " ++ ticked found ++ ", expected " ++ ticked expected
  | .alreadyExpanded kind field offset =>
    "field " ++ ticked field ++ " of " ++ ticked kind ++ atOffset offset ++
      " is already an identifier node"
  | .missingLexerToken offset => "no template token starts" ++ atOffset offset
  | .unexpectedLexerToken offset expected found =>
    "template token" ++ atOffset offset ++ " is " ++ ticked found ++ ", expected " ++ ticked expected
  | .outOfRange offset size =>
    "offset " ++ toString offset ++ " lies outside the source text of " ++ toString size ++ " bytes"
  | .structuralInvariant kind offset reason =>
    ticked kind ++ " node" ++ atOffset offset ++ " can not appear here: " ++ reason
  | .scopeNesting kind offset expected found =>
    ticked kind ++ atOffset offset ++ " requires an enclosing " ++ ticked expected ++
      " scope, found " ++ ticked found
  | .missingDeclaration kind offset =>
    ticked kind ++ atOffset offset ++ " has nothing to declare"
  | .danglingAncestry depth =>
    "traversal finished with " ++ toString depth ++ " dangling ancestry entries"
  | .conflictingReplacement kind offset =>
    "more than one handler replaced " ++ ticked kind ++ atOffset offset
  | .overlap what offset previousEnd =>
    what ++ atOffset offset ++ " overlaps the previous entry ending at " ++ toString previousEnd
  | .missingCompilerVariable name =>
    "compiler variable " ++ ticked name ++ " has no counterpart in the scope tree"
  | .unregisteredVariable name =>
    "variable " ++ ticked name ++ " is not registered in its owning scope"

inductive Error where
  | malformed (e : SyntaxError)
  | inconsistent (f : Fault)
  deriving DecidableEq, Repr

namespace Error

def text : Error → String
  | .malformed e => e.text
  | .inconsistent f => "internal error: " ++ f.text

def isInternal : Error → Bool
  | .malformed _ => false
  | .inconsistent _ => true

def syntaxError? : Error → Option SyntaxError
  | .malformed e => some e
  | .inconsistent _ => none

end Error

/-- The position of an offset in the text that the index is made of. -/
def locate (index : LineIndex) (offset : Nat) : Except Fault Position :=
  match index.locate? offset with
  | some p => .ok p
  | none => .error (.outOfRange offset index.size)

def locateSpan (index : LineIndex) (start stop : Nat) : Except Fault Location := do
  return ⟨← locate index start, ← locate index stop⟩

def SyntaxError.at (index : LineIndex) (offset : Nat) (message : String) (origin : Origin) :
    Except Fault SyntaxError := do
  let p ← locate index offset
  return { message, line := p.line, column := p.column + 1, offset, origin }

def Error.at (index : LineIndex) (offset : Nat) (message : String) (origin : Origin) : Error :=
  match SyntaxError.at index offset message origin with
  | .ok e => .malformed e
  | .error f => .inconsistent f

/-- What a component is refused for while its markup is read. -/
structure CompileError where
  code : String
  message : String
  offset : Nat
  deriving DecidableEq, Repr

namespace CompileError

def text (e : CompileError) : String :=
  e.code ++ ": " ++ e.message ++ " (offset " ++ toString e.offset ++ ")"

def toError (index : LineIndex) (e : CompileError) : Error :=
  .at index e.offset (e.code ++ ": " ++ e.message) .compiler

end CompileError

end SvelteSyntax
