import SvelteSyntax.Number.Double
import SvelteSyntax.Text.Span

namespace SvelteSyntax.Script

/-- Which language is read. -/
structure Dialect where
  module : Bool := true
  typescript : Bool := false
  deriving DecidableEq, Repr, Inhabited

/-- What a parser makes of a script. Spans count from the start of the parsed text. Types, decorators
and the like are not published; they are kept as the parts in which names are used. -/
inductive Syntax where
  /-- A use of a variable. -/
  | reference (s : Span) (name : String)
  /-- The declaration of a variable. -/
  | binding (s : Span) (name : String)
  /-- A name that is no variable. -/
  | word (s : Span) (name : String)
  | privateName (s : Span) (name : String)
  | boolean (s : Span) (value : Bool)
  | null (s : Span)
  | number (s : Span) (value : Double)
  | bigint (s : Span)
  | regex (s : Span)
  | string (s : Span) (value raw : String)
  /-- The text of a template up to a substitution or the end. -/
  | chunk (s : Span) (raw : String) (cooked : Option String) (tail : Bool)
  | template (s : Span) (quasis expressions : List Syntax)
  | this (s : Span)
  | super (s : Span)
  | metaProperty (s : Span) (keyword property : Syntax)
  | array (s : Span) (elements : List (Option Syntax))
  | spread (s : Span) (argument : Syntax)
  | object (s : Span) (properties : List Syntax)
  | property (s : Span) (key value : Syntax) (kind : String) (method shorthand computed : Bool)
  | parameter (s : Span) (pattern : Syntax) (parts : List Syntax)
  | functionBody (s : Span) (directives statements : List Syntax)
  | directive (s : Span) (expression : Syntax) (text : String)
  | arrow (s : Span) (types params : List Syntax) (rest : Option Syntax) (returns : List Syntax)
    (body : Syntax) (async expression : Bool)
  | function (s : Span) (declares : Bool) (id : Option Syntax) (types params : List Syntax)
    (rest : Option Syntax) (returns : List Syntax) (body : Option Syntax) (async generator : Bool)
  | classLike (s : Span) (declares : Bool) (decorators : List Syntax) (id : Option Syntax)
    (types : List Syntax) (superClass : Option Syntax) (heritage : List Syntax) (body : Syntax)
  | classBody (s : Span) (elements : List Syntax)
  | method (s : Span) (parts : List Syntax) (key value : Syntax) (kind : String)
    (computed isStatic : Bool)
  | field (s : Span) (parts : List Syntax) (key : Syntax) (types : List Syntax)
    (value : Option Syntax) (computed isStatic : Bool)
  | staticBlock (s : Span) (body : List Syntax)
  | otherElement (s : Span) (parts : List Syntax)
  | assignment (s : Span) (operator : String) (left right : Syntax)
  | await (s : Span) (argument : Syntax)
  | binary (s : Span) (operator : String) (left right : Syntax)
  | logical (s : Span) (operator : String) (left right : Syntax)
  | privateIn (s : Span) (left right : Syntax)
  | call (s : Span) (callee : Syntax) (types arguments : List Syntax) (optional : Bool)
  | chain (s : Span) (expression : Syntax)
  | conditional (s : Span) (test consequent alternate : Syntax)
  | importCall (s : Span) (source : Syntax) (options : Option Syntax)
  | new (s : Span) (callee : Syntax) (types arguments : List Syntax)
  | parenthesised (s : Span) (expression : Syntax)
  | sequence (s : Span) (expressions : List Syntax)
  | tagged (s : Span) (tag : Syntax) (types : List Syntax) (quasi : Syntax)
  | unary (s : Span) (operator : String) (argument : Syntax)
  | update (s : Span) (operator : String) (before : Bool) (argument : Syntax)
  | yield (s : Span) (delegate : Bool) (argument : Option Syntax)
  | staticMember (s : Span) (object property : Syntax) (optional : Bool)
  | computedMember (s : Span) (object property : Syntax) (optional : Bool)
  | privateMember (s : Span) (object property : Syntax) (optional : Bool)
  | typeAs (s : Span) (expression : Syntax) (types : List Syntax)
  | satisfies (s : Span) (expression : Syntax) (types : List Syntax)
  | nonNull (s : Span) (expression : Syntax)
  /-- A type in angle brackets before an expression. -/
  | typeAssertion (s : Span) (types : List Syntax) (expression : Syntax)
  /-- An expression with type arguments and nothing else. -/
  | instantiation (s : Span) (expression : Syntax) (types : List Syntax)
  | objectPattern (s : Span) (properties : List Syntax) (rest : Option Syntax)
  | bindingProperty (s : Span) (key value : Syntax) (shorthand computed : Bool)
  | arrayPattern (s : Span) (elements : List (Option Syntax)) (rest : Option Syntax)
  | assignmentPattern (s : Span) (left right : Syntax)
  | restElement (s : Span) (argument : Syntax) (parts : List Syntax)
  | arrayTarget (s : Span) (elements : List (Option Syntax)) (rest : Option Syntax)
  | objectTarget (s : Span) (properties : List Syntax) (rest : Option Syntax)
  | targetShorthand (s : Span) (name : Syntax) (value : Option Syntax)
  | targetProperty (s : Span) (key target : Syntax) (computed : Bool)
  | targetDefault (s : Span) (target value : Syntax)
  | targetRest (s : Span) (target : Syntax)
  | block (s : Span) (body : List Syntax)
  | breakStatement (s : Span) (label : Option Syntax)
  | continueStatement (s : Span) (label : Option Syntax)
  | debugger (s : Span)
  | doWhile (s : Span) (body test : Syntax)
  | empty (s : Span)
  | expressionStatement (s : Span) (expression : Syntax)
  | forIn (s : Span) (left right body : Syntax)
  | forOf (s : Span) (await : Bool) (left right body : Syntax)
  | forStatement (s : Span) (init test update : Option Syntax) (body : Syntax)
  | ifStatement (s : Span) (test consequent : Syntax) (alternate : Option Syntax)
  | labeled (s : Span) (label body : Syntax)
  | returnStatement (s : Span) (argument : Option Syntax)
  | switchStatement (s : Span) (discriminant : Syntax) (cases : List Syntax)
  | switchCase (s : Span) (test : Option Syntax) (consequent : List Syntax)
  | throwStatement (s : Span) (argument : Syntax)
  | tryStatement (s : Span) (block : Syntax) (handler finalizer : Option Syntax)
  | catchClause (s : Span) (param : Option Syntax) (types : List Syntax) (body : Syntax)
  | whileStatement (s : Span) (test body : Syntax)
  | withStatement (s : Span) (object body : Syntax)
  | variables (s : Span) (kind : String) (declarators : List Syntax)
  | declarator (s : Span) (id : Syntax) (types : List Syntax) (init : Option Syntax)
  | importDeclaration (s : Span) (specifiers : List Syntax) (source : Syntax)
  | importSpecifier (s : Span) (imported name : Syntax)
  | importDefault (s : Span) (name : Syntax)
  | importNamespace (s : Span) (name : Syntax)
  | exportNamed (s : Span) (declaration : Option Syntax) (specifiers : List Syntax)
    (source : Option Syntax)
  | exportSpecifier (s : Span) (name exported : Syntax)
  | exportDefault (s : Span) (declaration : Syntax)
  | exportAll (s : Span) (exported : Option Syntax) (source : Syntax)
  /-- A declaration of types or of something else that is not published. -/
  | typeDeclaration (s : Span) (parts : List Syntax)

/-- A whole script. The strings it starts with are directives. -/
structure SyntaxProgram where
  directives : List Syntax
  statements : List Syntax

namespace Syntax

instance : Inhabited Syntax := ⟨.null default⟩

def span : Syntax → Span
  | .reference s .. | .binding s .. | .word s .. | .privateName s .. | .boolean s .. | .null s
  | .number s .. | .bigint s | .regex s | .string s .. | .chunk s .. | .template s .. | .this s
  | .super s | .metaProperty s .. | .array s .. | .spread s .. | .object s .. | .property s ..
  | .parameter s .. | .functionBody s .. | .directive s .. | .arrow s .. | .function s ..
  | .classLike s .. | .classBody s .. | .method s .. | .field s .. | .staticBlock s .. | .otherElement s ..
  | .assignment s .. | .await s .. | .binary s .. | .logical s .. | .privateIn s .. | .call s ..
  | .chain s .. | .conditional s .. | .importCall s .. | .new s .. | .parenthesised s ..
  | .sequence s .. | .tagged s .. | .unary s .. | .update s .. | .yield s .. | .staticMember s ..
  | .computedMember s .. | .privateMember s .. | .typeAs s .. | .satisfies s .. | .nonNull s ..
  | .typeAssertion s .. | .instantiation s .. | .objectPattern s .. | .bindingProperty s ..
  | .arrayPattern s .. | .assignmentPattern s .. | .restElement s .. | .arrayTarget s ..
  | .objectTarget s .. | .targetShorthand s .. | .targetProperty s .. | .targetDefault s ..
  | .targetRest s .. | .block s .. | .breakStatement s .. | .continueStatement s .. | .debugger s
  | .doWhile s .. | .empty s | .expressionStatement s .. | .forIn s .. | .forOf s ..
  | .forStatement s .. | .ifStatement s .. | .labeled s .. | .returnStatement s ..
  | .switchStatement s .. | .switchCase s .. | .throwStatement s .. | .tryStatement s ..
  | .catchClause s .. | .whileStatement s .. | .withStatement s .. | .variables s ..
  | .declarator s .. | .importDeclaration s .. | .importSpecifier s .. | .importDefault s ..
  | .importNamespace s .. | .exportNamed s .. | .exportSpecifier s .. | .exportDefault s ..
  | .exportAll s .. | .typeDeclaration s .. => s

mutual

/-- What stands below the root, each before what stands below it. -/
def inner : Syntax → List Syntax
  | .reference .. | .binding .. | .word .. | .privateName .. | .boolean .. | .null _ | .number ..
  | .bigint _ | .regex _ | .string .. | .chunk .. | .this _ | .super _ | .debugger _ | .empty _ => []
  | .template _ quasis expressions => innerList quasis ++ innerList expressions
  | .metaProperty _ x y | .assignment _ _ x y | .binary _ _ x y | .logical _ _ x y | .privateIn _ x y
  | .property _ x y _ _ _ _ | .staticMember _ x y _ | .computedMember _ x y _
  | .privateMember _ x y _ | .bindingProperty _ x y _ _ | .assignmentPattern _ x y
  | .targetProperty _ x y _ | .targetDefault _ x y | .doWhile _ x y | .labeled _ x y
  | .whileStatement _ x y | .withStatement _ x y | .importSpecifier _ x y
  | .exportSpecifier _ x y => x :: inner x ++ y :: inner y
  | .array _ elements => innerSparse elements
  | .spread _ x | .directive _ x _ | .await _ x | .chain _ x | .parenthesised _ x | .unary _ _ x
  | .update _ _ _ x | .nonNull _ x | .targetRest _ x | .expressionStatement _ x
  | .throwStatement _ x | .importDefault _ x | .importNamespace _ x
  | .exportDefault _ x => x :: inner x
  | .object _ xs | .classBody _ xs | .staticBlock _ xs | .otherElement _ xs | .sequence _ xs | .block _ xs
  | .variables _ _ xs | .typeDeclaration _ xs => innerList xs
  | .parameter _ x parts | .typeAs _ x parts | .satisfies _ x parts | .instantiation _ x parts
  | .restElement _ x parts | .switchStatement _ x parts => x :: inner x ++ innerList parts
  | .functionBody _ xs ys => innerList xs ++ innerList ys
  | .arrow _ types params rest returns body _ _ =>
    innerList types ++ innerList params ++ innerOption rest ++ innerList returns ++ body :: inner body
  | .function _ _ id types params rest returns body _ _ =>
    innerOption id ++ innerList types ++ innerList params ++ innerOption rest ++ innerList returns ++
      innerOption body
  | .classLike _ _ decorators id types superClass heritage body =>
    innerList decorators ++ innerOption id ++ innerList types ++ innerOption superClass ++
      innerList heritage ++ body :: inner body
  | .method _ parts key value _ _ _ => innerList parts ++ key :: inner key ++ value :: inner value
  | .field _ parts key types value _ _ =>
    innerList parts ++ key :: inner key ++ innerList types ++ innerOption value
  | .call _ callee types arguments _ | .new _ callee types arguments =>
    callee :: inner callee ++ innerList types ++ innerList arguments
  | .conditional _ x y z | .forIn _ x y z | .forOf _ _ x y z =>
    x :: inner x ++ y :: inner y ++ z :: inner z
  | .importCall _ source options => source :: inner source ++ innerOption options
  | .tagged _ tag types quasi => tag :: inner tag ++ innerList types ++ quasi :: inner quasi
  | .yield _ _ o | .breakStatement _ o | .continueStatement _ o | .returnStatement _ o =>
    innerOption o
  | .typeAssertion _ types x => innerList types ++ x :: inner x
  | .objectPattern _ properties rest | .objectTarget _ properties rest =>
    innerList properties ++ innerOption rest
  | .arrayPattern _ elements rest | .arrayTarget _ elements rest =>
    innerSparse elements ++ innerOption rest
  | .targetShorthand _ name value => name :: inner name ++ innerOption value
  | .forStatement _ init test step body =>
    innerOption init ++ innerOption test ++ innerOption step ++ body :: inner body
  | .ifStatement _ test consequent alternate =>
    test :: inner test ++ consequent :: inner consequent ++ innerOption alternate
  | .switchCase _ test consequent => innerOption test ++ innerList consequent
  | .tryStatement _ body handler finalizer =>
    body :: inner body ++ innerOption handler ++ innerOption finalizer
  | .catchClause _ param types body => innerOption param ++ innerList types ++ body :: inner body
  | .declarator _ id types init => id :: inner id ++ innerList types ++ innerOption init
  | .importDeclaration _ specifiers source => innerList specifiers ++ source :: inner source
  | .exportNamed _ declaration specifiers source =>
    innerOption declaration ++ innerList specifiers ++ innerOption source
  | .exportAll _ exported source => innerOption exported ++ source :: inner source

def innerList : List Syntax → List Syntax
  | [] => []
  | x :: xs => x :: inner x ++ innerList xs

def innerOption : Option Syntax → List Syntax
  | none => []
  | some x => x :: inner x

def innerSparse : List (Option Syntax) → List Syntax
  | [] => []
  | none :: xs => innerSparse xs
  | some x :: xs => x :: inner x ++ innerSparse xs

end

/-- All that a tree consists of, the root first. -/
def nodes (x : Syntax) : List Syntax := x :: inner x

def name? : Syntax → Option String
  | .reference _ name | .binding _ name | .word _ name => some name
  | _ => none

/-- The parameters of an arrow function but the one for the rest of the arguments. -/
def params? : Syntax → Option (List Syntax)
  | .arrow _ _ params _ _ _ _ _ => some params
  | _ => none

end Syntax

def SyntaxProgram.nodes (p : SyntaxProgram) : List Syntax :=
  (p.directives ++ p.statements).flatMap Syntax.nodes

/-- A parser of JavaScript. What it says about a text is told by the text alone. -/
structure Frontend where
  /-- The expression that a text starts with. -/
  expression? : Dialect → List Char → Option Syntax
  program? : Dialect → List Char → Option SyntaxProgram
  /-- Parameters stand behind the parenthesis that opens them. -/
  params_behind : ∀ {dialect text x params}, expression? dialect ('(' :: text) = some x →
    x.params? = some params → ∀ p ∈ params, ∀ y ∈ p.nodes, 0 < y.span.start ∧ 0 < y.span.stop
  /-- No two names stand at one place. -/
  name_unique : ∀ {dialect text p}, program? dialect text = some p → ∀ y ∈ p.nodes, ∀ z ∈ p.nodes,
    y.span = z.span → ∀ name name', y.name? = some name → z.name? = some name' → name = name'

end SvelteSyntax.Script
