import SvelteSyntax.Tree.Token

namespace SvelteSyntax.Markup

open Text

inductive LexemeKind where
  | openStart
  | tagName
  | componentName
  | attributeName
  | directiveColon
  | directiveName
  | directivePipe
  | directiveModifier
  | attributeEqual
  | attributeValue
  | doubleQuote
  | singleQuote
  | openEnd
  | closeStart
  | closeEnd
  | mustacheStart
  | mustacheEnd
  | ifOpen
  | elseOpen
  | elseIf
  | ifClose
  | eachOpen
  | eachAs
  | eachComma
  | eachIndex
  | eachKeyStart
  | eachKeyEnd
  | eachKeyMark
  | eachKey
  | eachClose
  | awaitOpen
  | awaitCompactThen
  | awaitThen
  | awaitValue
  | awaitCatch
  | awaitError
  | awaitClose
  | rawHtml
  | debug
  | debugComma
  deriving DecidableEq, Repr, Inhabited

namespace LexemeKind

def name : LexemeKind → String
  | openStart => "HTML_OPEN_START"
  | tagName => "HTML_TAG_NAME"
  | componentName => "COMPONENT_IDENTIFIER"
  | attributeName => "ATTRIBUTE_NAME"
  | directiveColon => "DIRECTIVE_COLON"
  | directiveName => "DIRECTIVE_IDENTIFIER"
  | directivePipe => "DIRECTIVE_PIPE"
  | directiveModifier => "DIRECTIVE_MODIFIER"
  | attributeEqual => "ATTRIBUTE_EQUAL"
  | attributeValue => "ATTRIBUTE_VALUE"
  | doubleQuote => "ATTRIBUTE_DOUBLE_QUOTE"
  | singleQuote => "ATTRIBUTE_SINGLE_QUOTE"
  | openEnd => "HTML_OPEN_END"
  | closeStart => "HTML_CLOSE_START"
  | closeEnd => "HTML_CLOSE_END"
  | mustacheStart => "MUSTACHE_START"
  | mustacheEnd => "MUSTACHE_END"
  | ifOpen => "IF_OPEN"
  | elseOpen => "ELSE_OPEN"
  | elseIf => "ELSE_IF"
  | ifClose => "IF_CLOSE"
  | eachOpen => "EACH_OPEN"
  | eachAs => "EACH_AS"
  | eachComma => "EACH_COMMA"
  | eachIndex => "EACH_INDEX_IDENTIFIER"
  | eachKeyStart => "EACH_KEY_START"
  | eachKeyEnd => "EACH_KEY_END"
  | eachKeyMark => "EACH_KEY_AMPERSAT"
  | eachKey => "EACH_KEY_IDENTIFIER"
  | eachClose => "EACH_CLOSE"
  | awaitOpen => "AWAIT_OPEN"
  | awaitCompactThen => "AWAIT_COMPACT_THEN"
  | awaitThen => "AWAIT_FULL_THEN"
  | awaitValue => "AWAIT_THEN_IDENTIFIER"
  | awaitCatch => "AWAIT_CATCH"
  | awaitError => "AWAIT_CATCH_IDENTIFIER"
  | awaitClose => "AWAIT_CLOSE"
  | rawHtml => "RAW_HTML_START"
  | debug => "DEBUG_START"
  | debugComma => "DEBUG_COMMA"

/-- The kind of token a lexeme is published as. An identifier is published only if a node of the tree
is made from it. -/
def tokenKind? : LexemeKind → Option TokenKind
  | componentName | directiveName | eachIndex | eachKey | awaitValue | awaitError => none
  | tagName | attributeName | directiveModifier | attributeValue => some .string
  | ifOpen | elseOpen | elseIf | ifClose | eachOpen | eachAs | eachClose | awaitOpen
  | awaitCompactThen | awaitThen | awaitCatch | awaitClose | rawHtml | debug => some .keyword
  | openStart | directiveColon | directivePipe | attributeEqual | doubleQuote | singleQuote
  | openEnd | closeStart | closeEnd | mustacheStart | mustacheEnd | eachComma | eachKeyStart
  | eachKeyEnd | eachKeyMark | debugComma => some .punctuator

end LexemeKind

structure Lexeme where
  kind : LexemeKind
  value : List Char
  offset : Nat
  deriving DecidableEq, Repr, Inhabited

def Lexeme.stop (l : Lexeme) : Nat := l.offset + byteLength l.value

end SvelteSyntax.Markup
