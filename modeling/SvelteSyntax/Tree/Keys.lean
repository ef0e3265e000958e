import SvelteSyntax.Tree.Node

namespace SvelteSyntax

/-- The fields of the nodes of markup. -/
def templateKeys : List (String × List String) :=
  [("TemplateRoot", ["html", "css", "instance", "module"]),
   ("Fragment", ["children"]),
   ("Script", ["attributes", "content"]),
   ("ScriptElement", ["attributes", "content"]),
   ("Style", ["attributes"]),
   ("StyleElement", ["attributes"]),
   ("Element", ["attributes", "children"]),
   ("Head", ["attributes", "children"]),
   ("Options", ["attributes", "children"]),
   ("Window", ["attributes", "children"]),
   ("Body", ["attributes", "children"]),
   ("Title", ["attributes", "children"]),
   ("Slot", ["attributes", "children"]),
   ("InlineComponent", ["name", "attributes", "expression", "children"]),
   ("Comment", []),
   ("Text", []),
   ("Attribute", ["value"]),
   ("AttributeShorthand", ["expression"]),
   ("Spread", ["expression"]),
   ("Action", ["name", "expression"]),
   ("Animation", ["name", "expression"]),
   ("Transition", ["name", "expression"]),
   ("Let", ["name", "expression"]),
   ("Binding", ["expression"]),
   ("Class", ["expression"]),
   ("EventHandler", ["expression"]),
   ("MustacheTag", ["expression"]),
   ("RawMustacheTag", ["expression"]),
   ("DebugTag", ["identifiers"]),
   ("IfBlock", ["expression", "children", "else"]),
   ("ElseBlock", ["children"]),
   ("EachBlock", ["expression", "context", "index", "key", "children", "else"]),
   ("AwaitBlock", ["expression", "pending", "then", "catch"]),
   ("PendingBlock", ["children"]),
   ("ThenBlock", ["value", "children"]),
   ("CatchBlock", ["error", "children"])]

/-- The nodes of markup whose `expression` is a script. -/
def expressionParents : List String :=
  ["InlineComponent", "AttributeShorthand", "Spread", "Action", "Animation", "Binding", "Class",
   "EventHandler", "Transition", "AwaitBlock", "EachBlock", "IfBlock", "RawMustacheTag",
   "MustacheTag"]

/-- The fields of the nodes of scripts. -/
def scriptKeys : List (String × List String) :=
  [("Program", ["body"]),
   ("ArrayExpression", ["elements"]),
   ("ArrayPattern", ["elements"]),
   ("ArrowFunctionExpression", ["params", "body"]),
   ("AssignmentExpression", ["left", "right"]),
   ("AssignmentPattern", ["left", "right"]),
   ("AwaitExpression", ["argument"]),
   ("BinaryExpression", ["left", "right"]),
   ("BlockStatement", ["body"]),
   ("BreakStatement", ["label"]),
   ("CallExpression", ["callee", "arguments"]),
   ("CatchClause", ["param", "body"]),
   ("ChainExpression", ["expression"]),
   ("ClassBody", ["body"]),
   ("ClassDeclaration", ["id", "superClass", "body"]),
   ("ClassExpression", ["id", "superClass", "body"]),
   ("ConditionalExpression", ["test", "consequent", "alternate"]),
   ("ContinueStatement", ["label"]),
   ("DebuggerStatement", []),
   ("DoWhileStatement", ["body", "test"]),
   ("EmptyStatement", []),
   ("ExportAllDeclaration", ["exported", "source"]),
   ("ExportDefaultDeclaration", ["declaration"]),
   ("ExportNamedDeclaration", ["declaration", "specifiers", "source"]),
   ("ExportSpecifier", ["local", "exported"]),
   ("ExpressionStatement", ["expression"]),
   ("ForInStatement", ["left", "right", "body"]),
   ("ForOfStatement", ["left", "right", "body"]),
   ("ForStatement", ["init", "test", "update", "body"]),
   ("FunctionDeclaration", ["id", "params", "body"]),
   ("FunctionExpression", ["id", "params", "body"]),
   ("Identifier", []),
   ("IfStatement", ["test", "consequent", "alternate"]),
   ("ImportDeclaration", ["specifiers", "source"]),
   ("ImportDefaultSpecifier", ["local"]),
   ("ImportExpression", ["source"]),
   ("ImportNamespaceSpecifier", ["local"]),
   ("ImportSpecifier", ["imported", "local"]),
   ("LabeledStatement", ["label", "body"]),
   ("Literal", []),
   ("LogicalExpression", ["left", "right"]),
   ("MemberExpression", ["object", "property"]),
   ("MetaProperty", ["meta", "property"]),
   ("MethodDefinition", ["key", "value"]),
   ("NewExpression", ["callee", "arguments"]),
   ("ObjectExpression", ["properties"]),
   ("ObjectPattern", ["properties"]),
   ("PrivateIdentifier", []),
   ("Property", ["key", "value"]),
   ("PropertyDefinition", ["key", "value"]),
   ("RestElement", ["argument"]),
   ("ReturnStatement", ["argument"]),
   ("SequenceExpression", ["expressions"]),
   ("SpreadElement", ["argument"]),
   ("StaticBlock", ["body"]),
   ("Super", []),
   ("SwitchCase", ["test", "consequent"]),
   ("SwitchStatement", ["discriminant", "cases"]),
   ("TaggedTemplateExpression", ["tag", "quasi"]),
   ("TemplateElement", []),
   ("TemplateLiteral", ["quasis", "expressions"]),
   ("ThisExpression", []),
   ("ThrowStatement", ["argument"]),
   ("TryStatement", ["block", "handler", "finalizer"]),
   ("UnaryExpression", ["argument"]),
   ("UpdateExpression", ["argument"]),
   ("VariableDeclaration", ["declarations"]),
   ("VariableDeclarator", ["id", "init"]),
   ("WhileStatement", ["test", "body"]),
   ("WithStatement", ["object", "body"]),
   ("YieldExpression", ["argument"]),
   ("TSAsExpression", ["expression"]),
   ("TSSatisfiesExpression", ["expression"]),
   ("TSNonNullExpression", ["expression"])]

/-- The fields of all nodes with known fields. -/
def visitorKeys : List (String × List String) := templateKeys ++ scriptKeys

def childKeys? (kind : String) : Option (List String) := visitorKeys.lookup kind

def Node.traversalKeys (n : Node) : List String :=
  match childKeys? n.kind with
  | some keys => keys
  | none => (n.fields.filter (·.2.holdsNodes)).map (·.1)

end SvelteSyntax
