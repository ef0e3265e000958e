import SvelteSyntax.Markup.Lexer
import SvelteSyntax.Markup.Read

namespace SvelteSyntax.Markup

open Text

def voidElements : List String :=
  ["!doctype", "area", "base", "br", "col", "command", "embed", "hr", "img", "input", "keygen",
   "link", "meta", "param", "source", "track", "wbr"]

/-- The name of a component starts with a capital or has a dot. -/
def isComponentName (name : String) : Bool :=
  name.toList.head?.any isAsciiUpper || name.toList.contains '.'

def elementKind (name parent : String) : String :=
  match name with
  | "svelte:head" => "Head"
  | "svelte:options" => "Options"
  | "svelte:window" => "Window"
  | "svelte:body" => "Body"
  | "svelte:self" | "svelte:component" => "InlineComponent"
  | "slot" => "Slot"
  | name =>
    if name == "title" && parent == "Head" then "Title"
    else if isComponentName name then "InlineComponent"
    else "Element"

/-- The kind of node a directive is, by the word before its colon. -/
def directiveKind? : String → Option String
  | "on" => some "EventHandler"
  | "bind" => some "Binding"
  | "class" => some "Class"
  | "use" => some "Action"
  | "transition" | "in" | "out" => some "Transition"
  | "animate" => some "Animation"
  | "let" => some "Let"
  | _ => none

def finish (kind : String) (start : Nat) (fields : List (String × Value)) : Read Node :=
  return { kind, start, stop := ← here, fields }

def textNode (start : Nat) (text : List Char) : Node :=
  { kind := "Text", start, stop := start + byteLength text,
    fields := [("raw", .string (String.ofList text)), ("data", .string (String.ofList text))] }

def textWhile [Access] (p : Char → Bool) : Read Node := do
  let start ← here
  return textNode start (← readWhile p)

def text [Access] : Read Node := textWhile fun c => c != '<' && c != '{'

def comment [Access] : Read Node := do
  let start ← here
  skip 4
  let some data ← readUpTo? "-->" | refuse "unclosed-comment" "comment was left open" start
  skip 3
  finish "Comment" start [("data", .string (String.ofList data))]

def valueMustache [Access] : Read Node := do
  let start ← here
  skip 1
  let e ← expressionToBrace
  finish "MustacheTag" start [("expression", e)]

def valueChunk [Access] (start : Nat) (quote : Char) : Read (Option Node) := do
  match ← peek? with
  | none => refuse "unclosed-attribute-value" "Attribute value was left open" start
  | some '{' => return some (← valueMustache)
  | some c =>
    if c = quote then return none
    else return some (← textWhile fun c => c != quote && c != '{')

def quotedValue [Access] (start : Nat) (quote : Char) : Read (List Node) := do
  let chunks ← many (valueChunk start quote)
  skip 1
  return chunks

def attributeValue [Access] : Read (List Node) := do
  let start ← here
  match ← peek? with
  | some '"' => skip 1; quotedValue start '"'
  | some '\'' => skip 1; quotedValue start '\''
  | some '{' => return [← valueMustache]
  | _ =>
    let data ← readWhile fun c =>
      !(isMarkupBlank c || ['>', '/', '"', '\'', '{', '}'].contains c)
    if data.isEmpty then refuse "expected-attribute-value" "Expected a value" start
    return [textNode start data]

def braceAttribute [Access] : Read Node := do
  let start ← here
  skip 1
  let inner ← here
  let text ← scriptUpTo (Balanced.atAny ['}'])
  if text.length = (← cursor).rest.length then refuse "unexpected-eof" "Expected \x7d" start
  pass text 1
  let (first, text) ← trimIn inner text
  if startsWith "...".toList text then
    let e ← expression (first + 3) (text.drop 3)
    finish "Spread" start [("expression", e)]
  else
    unless isName text do
      refuse "invalid-attribute-shorthand" "Attribute shorthand must be an identifier" first
    let e ← expression first text
    let shorthand : Node :=
      { kind := "AttributeShorthand", start := first, stop := first + byteLength text,
        fields := [("expression", e)] }
    finish "Attribute" start [("name", .string (String.ofList text)), ("value", .nodes [shorthand])]

/-- The only expression of a value, if it has nothing else. -/
def soleExpression? : List Node → Option Node
  | [chunk] => if chunk.is "MustacheTag" then chunk.child? "expression" else none
  | _ => none

/-- The expression of a directive. Without a value `bind:` and `class:` take their own name for it. -/
def directiveExpression (kind name : String) (start stop : Nat) (nameSpan : Span)
    (value : Option (List Node)) : Read (Option Node) := do
  match value with
  | some chunks =>
    let some e := soleExpression? chunks
      | refuse "invalid-directive-value"
          "Directive value must be a JavaScript expression enclosed in curly braces" start
    if kind = "Let" then
      dropExpression e.start
      let _ ← patternAt ⟨e.start, e.stop⟩
    return some e
  | none =>
    if name.isEmpty then return none
    else if kind = "Binding" || kind = "Class" then
      let parsed ← parseSpan nameSpan false
      noteExpression nameSpan
      return some (.pending parsed.kind nameSpan.start stop)
    else
      if kind = "Let" then declare name nameSpan.start
      return none

/-- The directive whose parts stand between `start` and `stop`. -/
def directive (kind : String) (word rest : List Char) (start stop : Nat)
    (value : Option (List Node)) : Read Node := do
  let parts := splitOn '|' rest
  let name := parts.head?.getD []
  let nameSpan := spanOf (start + byteLength word + 1) name
  let e ← directiveExpression kind (String.ofList name) start stop nameSpan value
  if kind = "Binding" then
    if let some e := e then
      noteBinding ⟨e.start, if e.stop = stop then nameSpan.stop else e.stop⟩
  let node : Node :=
    { kind, start, stop,
      fields := [("name", .string (String.ofList name)),
        ("modifiers", .strings (parts.tail.map String.ofList)), ("expression", .ofOption e)] }
  if kind = "Transition" then
    return (node.set "intro" (.bool (word != "out".toList))).set "outro" (.bool (word != "in".toList))
  return node

def splitColon? (name : List Char) : Option (List Char × List Char) :=
  (splitAt? [':'] name).map fun (before, rest) => (before, rest.drop 1)

def namedAttribute [Access] : Read Node := do
  let start ← here
  let name ← readWhile fun c =>
    !(isMarkupBlank c || ['=', '/', '>', '"', '\'', '{'].contains c)
  if name.isEmpty then refuse "invalid-attribute-name" "Expected an attribute name" start
  let value ← if ← eat "=" then some <$> attributeValue else pure none
  let stop ← here
  let plain : Node :=
    { kind := "Attribute", start, stop,
      fields := [("name", .string (String.ofList name)),
        ("value", (value.map Value.nodes).getD (.bool true))] }
  match splitColon? name with
  | none => return plain
  | some (word, rest) =>
    match directiveKind? (String.ofList word) with
    | none => return plain
    | some kind => directive kind word rest start stop value

def attributes [Access] : Read (List Node) := many do
  skipBlanks
  match ← peek? with
  | none => refuse "unexpected-eof" "Unexpected end of input" (← here)
  | some '>' => return none
  | some '{' => return some (← braceAttribute)
  | some _ => if ← atText "/>" then return none else return some (← namedAttribute)

/-- The end of an opening tag, and whether it ends the element as well. -/
def openEnd [Access] : Read Bool := do
  if ← eat "/>" then return true
  expect ">"
  return false

def closeTag [Access] (name : String) : Read Unit := do
  expect "</"
  expect name
  skipBlanks
  expect ">"

def topLevelContent [Access] (name : String) (start : Nat) (closed : Bool) : Read (List Char) := do
  if closed then return []
  let some content ← readUpTo? ("</" ++ name)
    | refuse ("unclosed-" ++ name) ("<" ++ name ++ "> must have a closing tag") start
  closeTag name
  return content

def isModuleScript (attributes : List Node) : Bool :=
  attributes.any fun a => a.string? "name" == some "context" &&
    ((a.children "value").head?.bind (·.string? "data")) == some "module"

def styleElement (start contentStart : Nat) (attributes : List Node) (content : List Char) :
    Read Unit := do
  if (← get).css.isSome then
    refuse "duplicate-style" "You can only have one top-level <style> tag per component" start
  let styles : Value := .object
    [("start", .number (.ofNat contentStart)),
     ("end", .number (.ofNat (contentStart + byteLength content))),
     ("styles", .string (String.ofList content))]
  let node ← finish "Style" start [("attributes", .nodes attributes), ("content", styles)]
  modify ({ · with css := some node })

def scriptElement (start contentStart : Nat) (attributes : List Node) (content : List Char) :
    Read Unit := do
  let isModule := isModuleScript attributes
  let p ← get
  if (if isModule then p.moduleScript else p.instanceScript).isSome then
    let level := if isModule then "module" else "instance"
    refuse "invalid-script"
      ("A component can only have one " ++ level ++ "-level <script> element") start
  let node ← finish "Script" start
    [("context", .string (if isModule then "module" else "default")),
     ("attributes", .nodes attributes),
     ("content", .node (.pending "Program" contentStart (contentStart + byteLength content)))]
  if isModule then modify ({ · with moduleScript := some node })
  else modify ({ · with instanceScript := some node })

def topLevelElement [Access] (name : String) (start : Nat) : Read Unit := do
  let attributes ← attributes
  let closed ← openEnd
  let contentStart ← here
  let content ← topLevelContent name start closed
  if name = "style" then styleElement start contentStart attributes content
  else scriptElement start contentStart attributes content

def takeThis (attributes : List Node) : Option Node × List Node :=
  let isThis (a : Node) : Bool := a.is "Attribute" && a.string? "name" == some "this"
  ((attributes.find? isThis).bind fun a => soleExpression? (a.children "value"),
   attributes.eraseP isThis)

end SvelteSyntax.Markup
