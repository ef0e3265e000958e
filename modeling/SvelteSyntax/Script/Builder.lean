import SvelteSyntax.Script.Syntax
import SvelteSyntax.Text.Bytes
import SvelteSyntax.Tree.Node

namespace SvelteSyntax.Script

open Text

/-- What a piece of syntax can stand for. -/
inductive Category where
  /-- What can be read and assigned. -/
  | place
  | call
  | expression
  /-- An expression with a type. -/
  | typed
  | spread
  | property
  | word
  | binding
  | pattern
  | target
  /-- A target with a default. -/
  | defaulted
  | declaration
  | statement
  | member
  | other
  deriving DecidableEq, Repr

def Syntax.category : Syntax → Category
  | .reference .. | .staticMember .. | .computedMember .. | .privateMember .. => .place
  | .call .. => .call
  | .boolean .. | .null _ | .number .. | .bigint _ | .regex _ | .string .. | .template .. | .this _
  | .super _ | .metaProperty .. | .array .. | .object .. | .arrow .. | .function _ false ..
  | .classLike _ false .. | .assignment .. | .await .. | .binary .. | .logical .. | .privateIn ..
  | .chain .. | .conditional .. | .importCall .. | .new .. | .parenthesised .. | .sequence ..
  | .tagged .. | .unary .. | .update .. | .yield .. => .expression
  | .typeAs .. | .satisfies .. | .nonNull .. => .typed
  | .spread .. => .spread
  | .property .. => .property
  | .word .. | .privateName .. => .word
  | .binding .. => .binding
  | .objectPattern .. | .arrayPattern .. | .assignmentPattern .. => .pattern
  | .arrayTarget .. | .objectTarget .. => .target
  | .targetDefault .. => .defaulted
  | .variables .. | .function _ true .. | .classLike _ true .. => .declaration
  | .block .. | .breakStatement .. | .continueStatement .. | .debugger _ | .doWhile .. | .empty _
  | .expressionStatement .. | .forIn .. | .forOf .. | .forStatement .. | .ifStatement ..
  | .labeled .. | .returnStatement .. | .switchStatement .. | .throwStatement .. | .tryStatement ..
  | .whileStatement .. | .withStatement .. | .importDeclaration .. | .exportNamed ..
  | .exportDefault .. | .exportAll .. => .statement
  | .method .. | .field .. | .staticBlock .. => .member
  | _ => .other

/-- A place in the published tree. -/
inductive Spot where
  | expression
  /-- An element of an array or an argument of a call. -/
  | element
  | property
  | key
  /-- What is inside a chain with an optional step. -/
  | link
  | statement
  | declaration
  /-- What a module exports by default. -/
  | exported
  | classElement
  | pattern
  | target
  | simpleTarget
  | targetElement
  | loopTarget
  | loopStart
  deriving DecidableEq, Repr

def expressionCategories : List Category := [.place, .call, .expression, .typed]

/-- What is published in a place. -/
def Spot.admits : Spot → List Category
  | .expression => expressionCategories
  | .element => .spread :: expressionCategories
  | .property => [.property, .spread]
  | .key => .word :: expressionCategories
  | .link => [.place, .call]
  | .statement => [.statement, .declaration]
  | .declaration => [.declaration]
  | .exported | .loopStart => .declaration :: expressionCategories
  | .classElement => [.member]
  | .pattern => [.binding, .pattern]
  | .target => [.place, .target]
  | .simpleTarget => [.place]
  | .targetElement => [.defaulted, .place, .target]
  | .loopTarget => [.declaration, .place, .target]

/-- What stands in a place instead of anything else. -/
def Spot.unsupported : Spot → String
  | .expression | .element | .property | .key | .link | .loopStart => "UnsupportedExpression"
  | .statement => "UnsupportedStatement"
  | .declaration | .exported => "UnsupportedDeclaration"
  | .classElement => "UnsupportedClassElement"
  | .pattern | .target | .simpleTarget | .targetElement | .loopTarget => "UnsupportedPattern"

def propertyFields (key value : Node) (kind : String) (method shorthand computed : Bool) :
    List (String × Value) :=
  [("key", .node key), ("value", .node value), ("kind", .string kind), ("method", .bool method),
   ("shorthand", .bool shorthand), ("computed", .bool computed)]

/-- The fields of a property in a pattern. -/
def patternProperty (key value : Node) (shorthand computed : Bool) : List (String × Value) :=
  propertyFields key value "init" false shorthand computed

/-- Makes published nodes of the syntax of a text whose start is moved by `shift` bytes. -/
structure Builder where
  text : List Char
  shift : Int

namespace Builder

/-- Where a position of the text is in the source, but never before its start. -/
def offset (b : Builder) (position : Nat) : Nat := (position + b.shift).toNat

def node (b : Builder) (kind : String) (s : Span) (fields : List (String × Value)) : Node :=
  { kind, start := b.offset s.start, stop := b.offset s.stop, fields }

def raw (b : Builder) (s : Span) : List Char := (slice? s.start s.stop b.text).getD []

def literal (b : Builder) (s : Span) (value : Value) (extra : List (String × Value)) : Node :=
  b.node "Literal" s ([("value", value), ("raw", .string (String.ofList (b.raw s)))] ++ extra)

def identifier (b : Builder) (s : Span) (name : String) : Node :=
  b.node "Identifier" s [("name", .string name)]

/-- The body and the flags of a regular expression. -/
def regexParts (raw : List Char) : List Char × List Char :=
  let flags := (raw.reverse.takeWhile (· != '/')).reverse
  if flags.length + 1 < raw.length then ((raw.drop 1).take (raw.length - 2 - flags.length), flags)
  else (raw, [])

def chunkFields (raw : String) (cooked : Option String) (tail : Bool) : List (String × Value) :=
  [("value", .object [("raw", .string raw), ("cooked", (cooked.map Value.string).getD .null)]),
   ("tail", .bool tail)]

def functionFields (id : Value) (params : List Node) (body : Value) (async generator expression : Bool) :
    List (String × Value) :=
  [("id", id), ("params", .nodes params), ("body", body), ("async", .bool async),
   ("generator", .bool generator), ("expression", .bool expression)]

def member (b : Builder) (s : Span) (object property : Node) (computed optional : Bool) : Node :=
  b.node "MemberExpression" s
    [("object", .node object), ("property", .node property), ("computed", .bool computed),
     ("optional", .bool optional)]

def operation (b : Builder) (kind : String) (s : Span) (operator : String) (left right : Node) : Node :=
  b.node kind s [("operator", .string operator), ("left", .node left), ("right", .node right)]

/-- What stands for the syntax in a place, if `n` is what it is published as. -/
def place (b : Builder) (spot : Spot) (x : Syntax) (n : Node) : Node :=
  if spot.admits.contains x.category then n else b.node spot.unsupported x.span []

mutual

def build (b : Builder) : Syntax → Node
  | .reference s name | .binding s name | .word s name => b.identifier s name
  | .privateName s name => b.node "PrivateIdentifier" s [("name", .string name)]
  | .boolean s value => b.literal s (.bool value) []
  | .null s => b.literal s .null []
  | .number s value => b.literal s (.number value) []
  | .bigint s =>
    b.literal s .null [("bigint", .string (String.ofList ((b.raw s).reverse.dropWhile (· == 'n')).reverse))]
  | .regex s =>
    let (pattern, flags) := regexParts (b.raw s)
    b.literal s .null
      [("regex", .object [("pattern", .string (String.ofList pattern)),
        ("flags", .string (String.ofList flags))])]
  | .string s value _ => b.literal s (.string value) []
  | .chunk s raw cooked tail => b.node "TemplateElement" s (chunkFields raw cooked tail)
  | .template s quasis expressions =>
    b.node "TemplateLiteral" s
      [("quasis", .nodes (b.all quasis)), ("expressions", .nodes (b.list .expression expressions))]
  | .this s => b.node "ThisExpression" s []
  | .super s => b.node "Super" s []
  | .metaProperty s keyword property =>
    b.node "MetaProperty" s
      [("meta", .node (b.build keyword)), ("property", .node (b.build property))]
  | .array s elements =>
    b.node "ArrayExpression" s [("elements", .ofSparse (b.sparse .element elements))]
  | .spread s argument =>
    b.node "SpreadElement" s [("argument", .node (b.place .expression argument (b.build argument)))]
  | .object s properties =>
    b.node "ObjectExpression" s [("properties", .nodes (b.list .property properties))]
  | .property s key value kind method shorthand computed =>
    b.node "Property" s
      (propertyFields (b.place .key key (b.build key)) (b.place .expression value (b.build value)) kind
        method shorthand computed)
  | .parameter _ pattern _ => b.place .pattern pattern (b.build pattern)
  | .functionBody s directives statements =>
    b.node "BlockStatement" s
      [("body", .nodes (b.all directives ++ b.list .statement statements))]
  | .directive s expression text =>
    b.node "ExpressionStatement" s
      [("expression", .node (b.build expression)), ("directive", .string text)]
  | .arrow s _ params rest _ (.functionBody _ _ (.expressionStatement _ e :: _)) async true =>
    b.node "ArrowFunctionExpression" s
      (functionFields .null (b.all params ++ (b.option? rest).toList)
        (.node (b.place .expression e (b.build e))) async false true)
  | .arrow s _ params rest _ body async expression =>
    b.node "ArrowFunctionExpression" s
      (functionFields .null (b.all params ++ (b.option? rest).toList) (.node (b.build body)) async false
        expression)
  | .function s declares id _ params rest _ body async generator =>
    b.node (if declares then "FunctionDeclaration" else "FunctionExpression") s
      (functionFields (.ofOption (b.option? id)) (b.all params ++ (b.option? rest).toList)
        (.ofOption (b.option? body)) async generator false)
  | .classLike s declares _ id _ superClass _ body =>
    b.node (if declares then "ClassDeclaration" else "ClassExpression") s
      [("id", .ofOption (b.option? id)), ("superClass", .ofOption (b.option .expression superClass)),
       ("body", .node (b.build body))]
  | .classBody s elements => b.node "ClassBody" s [("body", .nodes (b.list .classElement elements))]
  | .method s _ key value kind computed isStatic =>
    b.node "MethodDefinition" s
      [("key", .node (b.place .key key (b.build key))), ("value", .node (b.build value)),
       ("kind", .string kind), ("computed", .bool computed), ("static", .bool isStatic)]
  | .field s _ key _ value computed isStatic =>
    b.node "PropertyDefinition" s
      [("key", .node (b.place .key key (b.build key))),
       ("value", .ofOption (b.option .expression value)), ("computed", .bool computed),
       ("static", .bool isStatic)]
  | .staticBlock s body => b.node "StaticBlock" s [("body", .nodes (b.list .statement body))]
  | .otherElement s _ => b.node "UnsupportedClassElement" s []
  | .assignment s operator left right =>
    b.operation "AssignmentExpression" s operator (b.place .target left (b.build left))
      (b.place .expression right (b.build right))
  | .await s argument =>
    b.node "AwaitExpression" s [("argument", .node (b.place .expression argument (b.build argument)))]
  | .binary s operator left right =>
    b.operation "BinaryExpression" s operator (b.place .expression left (b.build left))
      (b.place .expression right (b.build right))
  | .logical s operator left right =>
    b.operation "LogicalExpression" s operator (b.place .expression left (b.build left))
      (b.place .expression right (b.build right))
  | .privateIn s left right =>
    b.operation "BinaryExpression" s "in" (b.build left) (b.place .expression right (b.build right))
  | .call s callee _ arguments optional =>
    b.node "CallExpression" s
      [("callee", .node (b.place .expression callee (b.build callee))),
       ("arguments", .nodes (b.list .element arguments)), ("optional", .bool optional)]
  | .chain s expression =>
    b.node "ChainExpression" s [("expression", .node (b.place .link expression (b.build expression)))]
  | .conditional s test consequent alternate =>
    b.node "ConditionalExpression" s
      [("test", .node (b.place .expression test (b.build test))),
       ("consequent", .node (b.place .expression consequent (b.build consequent))),
       ("alternate", .node (b.place .expression alternate (b.build alternate)))]
  | .importCall s source _ =>
    b.node "ImportExpression" s [("source", .node (b.place .expression source (b.build source)))]
  | .new s callee _ arguments =>
    b.node "NewExpression" s
      [("callee", .node (b.place .expression callee (b.build callee))),
       ("arguments", .nodes (b.list .element arguments))]
  | .parenthesised _ expression => b.place .expression expression (b.build expression)
  | .sequence s expressions =>
    b.node "SequenceExpression" s [("expressions", .nodes (b.list .expression expressions))]
  | .tagged s tag _ quasi =>
    b.node "TaggedTemplateExpression" s
      [("tag", .node (b.place .expression tag (b.build tag))), ("quasi", .node (b.build quasi))]
  | .unary s operator argument =>
    b.node "UnaryExpression" s
      [("operator", .string operator), ("prefix", .bool true),
       ("argument", .node (b.place .expression argument (b.build argument)))]
  | .update s operator before argument =>
    b.node "UpdateExpression" s
      [("operator", .string operator), ("prefix", .bool before),
       ("argument", .node (b.place .simpleTarget argument (b.build argument)))]
  | .yield s delegate argument =>
    b.node "YieldExpression" s
      [("delegate", .bool delegate), ("argument", .ofOption (b.option .expression argument))]
  | .staticMember s object property optional | .privateMember s object property optional =>
    b.member s (b.place .expression object (b.build object)) (b.build property) false optional
  | .computedMember s object property optional =>
    b.member s (b.place .expression object (b.build object))
      (b.place .expression property (b.build property)) true optional
  | .typeAs s expression _ =>
    b.node "TSAsExpression" s
      [("expression", .node (b.place .expression expression (b.build expression)))]
  | .satisfies s expression _ =>
    b.node "TSSatisfiesExpression" s
      [("expression", .node (b.place .expression expression (b.build expression)))]
  | .nonNull s expression =>
    b.node "TSNonNullExpression" s
      [("expression", .node (b.place .expression expression (b.build expression)))]
  | .typeAssertion s _ _ => b.node "UnsupportedExpression" s []
  | .instantiation s _ _ => b.node "UnsupportedExpression" s []
  | .objectPattern s properties rest | .objectTarget s properties rest =>
    b.node "ObjectPattern" s [("properties", .nodes (b.all properties ++ (b.option? rest).toList))]
  | .bindingProperty s key value shorthand computed =>
    b.node "Property" s
      (patternProperty (b.place .key key (b.build key)) (b.place .pattern value (b.build value)) shorthand
        computed)
  | .arrayPattern s elements rest =>
    b.node "ArrayPattern" s
      [("elements", .ofSparse (b.sparse .pattern elements ++ (b.option? rest).toList.map some))]
  | .assignmentPattern s left right =>
    b.node "AssignmentPattern" s
      [("left", .node (b.place .pattern left (b.build left))),
       ("right", .node (b.place .expression right (b.build right)))]
  | .restElement s argument _ =>
    b.node "RestElement" s [("argument", .node (b.place .pattern argument (b.build argument)))]
  | .arrayTarget s elements rest =>
    b.node "ArrayPattern" s
      [("elements", .ofSparse (b.sparse .targetElement elements ++ (b.option? rest).toList.map some))]
  | .targetShorthand s name none =>
    b.node "Property" s (patternProperty (b.place .key name (b.build name)) (b.build name) true false)
  | .targetShorthand s name (some value) =>
    b.node "Property" s
      (patternProperty (b.place .key name (b.build name))
        (b.node "AssignmentPattern" s
          [("left", .node (b.build name)),
           ("right", .node (b.place .expression value (b.build value)))]) true false)
  | .targetProperty s key target computed =>
    b.node "Property" s
      (patternProperty (b.place .key key (b.build key)) (b.place .targetElement target (b.build target))
        false computed)
  | .targetDefault s target value =>
    b.node "AssignmentPattern" s
      [("left", .node (b.place .target target (b.build target))),
       ("right", .node (b.place .expression value (b.build value)))]
  | .targetRest s target =>
    b.node "RestElement" s [("argument", .node (b.place .target target (b.build target)))]
  | .block s body => b.node "BlockStatement" s [("body", .nodes (b.list .statement body))]
  | .breakStatement s label => b.node "BreakStatement" s [("label", .ofOption (b.option? label))]
  | .continueStatement s label => b.node "ContinueStatement" s [("label", .ofOption (b.option? label))]
  | .debugger s => b.node "DebuggerStatement" s []
  | .doWhile s body test =>
    b.node "DoWhileStatement" s
      [("body", .node (b.place .statement body (b.build body))),
       ("test", .node (b.place .expression test (b.build test)))]
  | .empty s => b.node "EmptyStatement" s []
  | .expressionStatement s expression =>
    b.node "ExpressionStatement" s
      [("expression", .node (b.place .expression expression (b.build expression)))]
  | .forIn s left right body =>
    b.node "ForInStatement" s
      [("left", .node (b.place .loopTarget left (b.build left))),
       ("right", .node (b.place .expression right (b.build right))),
       ("body", .node (b.place .statement body (b.build body)))]
  | .forOf s await left right body =>
    b.node "ForOfStatement" s
      [("await", .bool await), ("left", .node (b.place .loopTarget left (b.build left))),
       ("right", .node (b.place .expression right (b.build right))),
       ("body", .node (b.place .statement body (b.build body)))]
  | .forStatement s init test step body =>
    b.node "ForStatement" s
      [("init", .ofOption (b.option .loopStart init)), ("test", .ofOption (b.option .expression test)),
       ("update", .ofOption (b.option .expression step)),
       ("body", .node (b.place .statement body (b.build body)))]
  | .ifStatement s test consequent alternate =>
    b.node "IfStatement" s
      [("test", .node (b.place .expression test (b.build test))),
       ("consequent", .node (b.place .statement consequent (b.build consequent))),
       ("alternate", .ofOption (b.option .statement alternate))]
  | .labeled s label body =>
    b.node "LabeledStatement" s
      [("label", .node (b.build label)), ("body", .node (b.place .statement body (b.build body)))]
  | .returnStatement s argument =>
    b.node "ReturnStatement" s [("argument", .ofOption (b.option .expression argument))]
  | .switchStatement s discriminant cases =>
    b.node "SwitchStatement" s
      [("discriminant", .node (b.place .expression discriminant (b.build discriminant))),
       ("cases", .nodes (b.all cases))]
  | .switchCase s test consequent =>
    b.node "SwitchCase" s
      [("test", .ofOption (b.option .expression test)),
       ("consequent", .nodes (b.list .statement consequent))]
  | .throwStatement s argument =>
    b.node "ThrowStatement" s [("argument", .node (b.place .expression argument (b.build argument)))]
  | .tryStatement s body handler finalizer =>
    b.node "TryStatement" s
      [("block", .node (b.build body)), ("handler", .ofOption (b.option? handler)),
       ("finalizer", .ofOption (b.option? finalizer))]
  | .catchClause s param _ body =>
    b.node "CatchClause" s
      [("param", .ofOption (b.option .pattern param)), ("body", .node (b.build body))]
  | .whileStatement s test body =>
    b.node "WhileStatement" s
      [("test", .node (b.place .expression test (b.build test))),
       ("body", .node (b.place .statement body (b.build body)))]
  | .withStatement s object body =>
    b.node "WithStatement" s
      [("object", .node (b.place .expression object (b.build object))),
       ("body", .node (b.place .statement body (b.build body)))]
  | .variables s kind declarators =>
    b.node "VariableDeclaration" s
      [("kind", .string kind), ("declarations", .nodes (b.all declarators))]
  | .declarator s id _ init =>
    b.node "VariableDeclarator" s
      [("id", .node (b.place .pattern id (b.build id))), ("init", .ofOption (b.option .expression init))]
  | .importDeclaration s specifiers source =>
    b.node "ImportDeclaration" s
      [("specifiers", .nodes (b.all specifiers)), ("source", .node (b.build source))]
  | .importSpecifier s imported name =>
    b.node "ImportSpecifier" s
      [("imported", .node (b.place .key imported (b.build imported))), ("local", .node (b.build name))]
  | .importDefault s name => b.node "ImportDefaultSpecifier" s [("local", .node (b.build name))]
  | .importNamespace s name => b.node "ImportNamespaceSpecifier" s [("local", .node (b.build name))]
  | .exportNamed s declaration specifiers source =>
    b.node "ExportNamedDeclaration" s
      [("declaration", .ofOption (b.option .declaration declaration)),
       ("specifiers", .nodes (b.all specifiers)), ("source", .ofOption (b.option? source))]
  | .exportSpecifier s name exported =>
    b.node "ExportSpecifier" s [("local", .node (b.build name)), ("exported", .node (b.build exported))]
  | .exportDefault s declaration =>
    b.node "ExportDefaultDeclaration" s
      [("declaration", .node (b.place .exported declaration (b.build declaration)))]
  | .exportAll s exported source =>
    b.node "ExportAllDeclaration" s
      [("exported", .ofOption (b.option? exported)), ("source", .node (b.build source))]
  | .typeDeclaration s _ => b.node "UnsupportedStatement" s []

def list (b : Builder) (spot : Spot) : List Syntax → List Node
  | [] => []
  | x :: xs => b.place spot x (b.build x) :: b.list spot xs

/-- The parts of a node that can only be of one form. -/
def all (b : Builder) : List Syntax → List Node
  | [] => []
  | x :: xs => b.build x :: b.all xs

def option (b : Builder) (spot : Spot) : Option Syntax → Option Node
  | none => none
  | some x => some (b.place spot x (b.build x))

def option? (b : Builder) : Option Syntax → Option Node
  | none => none
  | some x => some (b.build x)

def sparse (b : Builder) (spot : Spot) : List (Option Syntax) → List (Option Node)
  | [] => []
  | none :: xs => none :: b.sparse spot xs
  | some x :: xs => some (b.place spot x (b.build x)) :: b.sparse spot xs

end

def expression (b : Builder) (x : Syntax) : Node := b.place .expression x (b.build x)

def bindingPattern (b : Builder) (x : Syntax) : Node := b.place .pattern x (b.build x)

def program (b : Builder) (p : SyntaxProgram) (start stop : Nat) (sourceType : String) : Node :=
  { kind := "Program", start, stop,
    fields := [("sourceType", .string sourceType),
      ("body", .nodes (b.all p.directives ++ b.list .statement p.statements))] }

end Builder

end SvelteSyntax.Script
