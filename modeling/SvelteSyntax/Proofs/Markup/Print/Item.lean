import SvelteSyntax.Proofs.Markup.Closed
import SvelteSyntax.Proofs.Markup.Grammar
import SvelteSyntax.Proofs.Markup.Print.Reads

namespace SvelteSyntax.Markup

open Text Script

/-- A script in markup: its text and the kind of node it is parsed to. -/
structure Snippet where
  text : List Char
  kind : String

structure QuotedAttribute where
  name : List Char
  value : List Char

/-- What a section of an await block binds. -/
inductive Bound where
  | nothing
  | name (word : List Char)
  | pattern (e : Snippet)

mutual

/-- A node of markup. -/
inductive Item where
  | text (data : List Char)
  | comment (data : List Char)
  | element (name : List Char) (attributes : List QuotedAttribute) (children : List Item)
  | mustache (e : Snippet)
  | html (e : Snippet)
  | ifBlock (condition : Snippet) (children : List Item) (more : Chain)
  | each (list context : Snippet) (index : Option (List Char)) (key : Option Snippet)
      (children : List Item) (other : Other)
  /-- An await block that shows something until its promise is settled. -/
  | await (promise : Snippet) (pending : List Item) (fulfilled rejected : Branch)
  /-- An await block that starts with what it shows in the end. -/
  | awaitThen (promise : Snippet) (value : Bound) (children : List Item) (rejected : Branch)

/-- An else branch, if there is one. -/
inductive Other where
  | absent
  | present (children : List Item)

/-- What follows the first branch of an if block. -/
inductive Chain where
  | last (other : Other)
  | link (condition : Snippet) (children : List Item) (more : Chain)

/-- A later section of an await block, if it is there. -/
inductive Branch where
  | absent
  | present (bound : Bound) (children : List Item)

end

def QuotedAttribute.print (a : QuotedAttribute) : List Char :=
  ' ' :: (a.name ++ '=' :: '"' :: (a.value ++ ['"']))

def Bound.print : Bound → List Char
  | .nothing => []
  | .name word => ' ' :: word
  | .pattern e => ' ' :: e.text

/-- The index of an each block in its tag. -/
def printIndex : Option (List Char) → List Char
  | none => []
  | some name => ',' :: ' ' :: name

/-- The key of an each block in its tag. -/
def printKey : Option Snippet → List Char
  | none => []
  | some e => ' ' :: '(' :: (e.text ++ [')'])

def tagOpen (mark : Char) (keyword : String) : List Char := '{' :: mark :: keyword.toList

/-- The tag that closes a block. -/
def tagEnd (keyword : String) : List Char := '{' :: '/' :: (keyword.toList ++ ['}'])

mutual

def Item.print : Item → List Char
  | .text data => data
  | .comment data => "<!--".toList ++ (data ++ "-->".toList)
  | .element name attributes children =>
    '<' :: (name ++ (attributes.flatMap QuotedAttribute.print ++ '>' ::
      (printAll children ++ '<' :: '/' :: (name ++ ['>']))))
  | .mustache e => '{' :: (e.text ++ ['}'])
  | .html e => tagOpen '@' "html" ++ ' ' :: (e.text ++ ['}'])
  | .ifBlock condition children more =>
    tagOpen '#' "if" ++ ' ' :: (condition.text ++ '}' :: (printAll children ++ (more.print ++ tagEnd "if")))
  | .each list context index key children other =>
    tagOpen '#' "each" ++ ' ' :: (list.text ++ ' ' :: 'a' :: 's' :: ' ' :: (context.text ++
      (printIndex index ++ (printKey key ++ '}' :: (printAll children ++ (other.print ++ tagEnd "each"))))))
  | .await promise pending fulfilled rejected =>
    tagOpen '#' "await" ++ ' ' :: (promise.text ++ '}' :: (printAll pending ++
      (fulfilled.print "then" ++ (rejected.print "catch" ++ tagEnd "await"))))
  | .awaitThen promise value children rejected =>
    tagOpen '#' "await" ++ ' ' :: (promise.text ++ ' ' :: ("then".toList ++ (value.print ++ '}' ::
      (printAll children ++ (rejected.print "catch" ++ tagEnd "await")))))

def printAll : List Item → List Char
  | [] => []
  | item :: items => item.print ++ printAll items

def Other.print : Other → List Char
  | .absent => []
  | .present children => tagOpen ':' "else" ++ '}' :: printAll children

def Chain.print : Chain → List Char
  | .last other => other.print
  | .link condition children more =>
    tagOpen ':' "else" ++ ' ' :: ("if".toList ++ ' ' :: (condition.text ++ '}' ::
      (printAll children ++ more.print)))

def Branch.print (keyword : String) : Branch → List Char
  | .absent => []
  | .present bound children => tagOpen ':' keyword ++ (bound.print ++ '}' :: printAll children)

end

def Snippet.node (e : Snippet) (start : Nat) : Node :=
  .pending e.kind start (start + byteLength e.text)

def quotedParts (start : Nat) (value : List Char) : List Node :=
  if value.isEmpty then [] else [textNode start value]

/-- The node of an attribute with the blank before it at an offset. -/
def QuotedAttribute.node (offset : Nat) (a : QuotedAttribute) : Node :=
  plainAttribute a.name (offset + 1) (offset + byteLength a.print)
    (some (quotedParts (offset + byteLength a.name + 3) a.value))

/-- What is bound, if the text of it with the blank before it is at an offset. -/
def Bound.value (offset : Nat) : Bound → Value
  | .nothing => .null
  | .name word => .string (String.ofList word)
  | .pattern e => .node (e.node (offset + 1))

def indexFields : Option (List Char) → List (String × Value)
  | none => []
  | some name => [("index", .string (String.ofList name))]

def keyFields (offset : Nat) : Option Snippet → List (String × Value)
  | none => []
  | some e => [("key", .node (e.node (offset + 2)))]

mutual

/-- The node of what is printed at an offset. -/
def Item.node (parent : String) (start : Nat) : Item → Node
  | .text data => textNode start data
  | .comment data =>
    { kind := "Comment", start, stop := start + byteLength (Item.comment data).print,
      fields := [("data", .string (String.ofList data))] }
  | .element name attributes children =>
    let kind := elementKind (String.ofList name) parent
    let first := start + 1 + byteLength name
    let inner := first + byteLength (attributes.flatMap QuotedAttribute.print) + 1
    elementNode kind (String.ofList name) start
      (start + byteLength (Item.element name attributes children).print) none
      (laidOut QuotedAttribute.print QuotedAttribute.node first attributes) (nodesFrom kind inner children)
  | .mustache e =>
    { kind := "MustacheTag", start, stop := start + byteLength (Item.mustache e).print,
      fields := [("expression", .node (e.node (start + 1)))] }
  | .html e =>
    { kind := "RawMustacheTag", start, stop := start + byteLength (Item.html e).print,
      fields := [("expression", .node (e.node (start + 7)))] }
  | .ifBlock condition children more =>
    let inner := start + 5 + byteLength condition.text + 1
    let close := inner + byteLength (printAll children) + byteLength more.print
    ifNode start (close + byteLength (tagEnd "if")) (condition.node (start + 5)) false
      (nodesFrom "IfBlock" inner children)
      (more.node? (inner + byteLength (printAll children)) close)
  | .each list context index key children other =>
    let second := start + 7 + byteLength list.text + 4
    let third := second + byteLength context.text + byteLength (printIndex index)
    let inner := third + byteLength (printKey key) + 1
    let branch := inner + byteLength (printAll children)
    eachNode start (start + byteLength (Item.each list context index key children other).print)
      (list.node (start + 7)) (context.node second) (indexFields index) (keyFields third key)
      (nodesFrom "EachBlock" inner children)
      ((other.node? branch (branch + byteLength other.print)).toList.map fun e => ("else", .node e))
  | .await promise pending fulfilled rejected =>
    let inner := start + 8 + byteLength promise.text + 1
    let second := inner + byteLength (printAll pending)
    let third := second + byteLength (fulfilled.print "then")
    awaitNode start (start + byteLength (Item.await promise pending fulfilled rejected).print)
      (promise.node (start + 8))
      { pending := sectionNode .pending inner second (nodesFrom "PendingBlock" inner pending)
        fulfilled := fulfilled.node .fulfilled "then" start second
        rejected := rejected.node .rejected "catch" start third
        value := fulfilled.value "then" second
        error := rejected.value "catch" third }
  | .awaitThen promise value children rejected =>
    let second := start + 8 + byteLength promise.text + 5
    let inner := second + byteLength value.print + 1
    let third := inner + byteLength (printAll children)
    awaitNode start (start + byteLength (Item.awaitThen promise value children rejected).print)
      (promise.node (start + 8))
      { pending := skippedNode .pending start
        fulfilled := sectionNode .fulfilled inner third (nodesFrom "ThenBlock" inner children)
        rejected := rejected.node .rejected "catch" start third
        value := value.value second
        error := rejected.value "catch" third }

def nodesFrom (parent : String) (start : Nat) : List Item → List Node
  | [] => []
  | item :: items => item.node parent start :: nodesFrom parent (start + byteLength item.print) items

/-- The node of an else branch up to the tag that ends the block. -/
def Other.node? (start close : Nat) : Other → Option Node
  | .absent => none
  | .present children => some (elseNode start close (nodesFrom "ElseBlock" (start + 7) children))

def Chain.node? (start close : Nat) : Chain → Option Node
  | .last other => other.node? start close
  | .link condition children more =>
    let inner := start + 10 + byteLength condition.text + 1
    some (elseNode start close
      [ifNode (start + 7) close (condition.node (start + 10)) true (nodesFrom "IfBlock" inner children)
        (more.node? (inner + byteLength (printAll children)) close)])

/-- The node of a section of the await block at an offset. -/
def Branch.node (s : Section) (keyword : String) (block start : Nat) : Branch → Node
  | .absent => skippedNode s block
  | .present bound children =>
    let inner := start + byteLength (tagOpen ':' keyword) + byteLength bound.print + 1
    sectionNode s start (inner + byteLength (printAll children)) (nodesFrom s.kind inner children)

def Branch.value (keyword : String) (start : Nat) : Branch → Value
  | .absent => .null
  | .present bound _ => bound.value (start + byteLength (tagOpen ':' keyword))

end

/-- The script can stand in markup where it is read up to a place to stop: all that it opens it closes,
and there is no place to stop outside of that. -/
structure Snippet.Printable (parser : ScriptParser) (stop : Balanced.Stop) (assignable : Bool)
    (e : Snippet) : Prop where
  ne_nil : e.text ≠ []
  first : e.text.head?.all (!isMarkupBlank ·)
  last : e.text.getLast?.all (!isMarkupBlank ·)
  closed : Balanced.Closed .code e.text
  nowhere : Balanced.StopsNowhere stop (some ' ') [' '] e.text
  accepted : ∀ before after, ∃ parsed,
    parser.expressionAt (before ++ (e.text ++ after)) (byteLength before)
      (byteLength before + byteLength e.text) assignable = .ok parsed ∧ parsed.expression.kind = e.kind

/-- The name of an element that has children and is not set apart in any way. -/
structure OrdinaryName (name : List Char) : Prop where
  ne_nil : name ≠ []
  chars : ∀ d ∈ name, isBlankOr ['/', '>'] (some d) = false
  no_comment : startsWith "!--".toList name = false
  no_void : voidElements.contains (String.ofList name).toLower = false
  no_raw : rawTextElements.contains (String.ofList name) = false
  no_section : String.ofList name ≠ "script" ∧ String.ofList name ≠ "style"
  no_component : String.ofList name ≠ "svelte:component"

structure QuotedAttribute.Printable (a : QuotedAttribute) : Prop where
  ne_nil : a.name ≠ []
  chars : ∀ d ∈ a.name, isBlankOr ['=', '/', '>', '"', '\'', '{'] (some d) = false
  no_colon : ':' ∉ a.name
  value : ∀ d ∈ a.value, d ≠ '"' ∧ d ≠ '{'

def Bound.Printable (parser : ScriptParser) : Bound → Prop
  | .nothing => True
  | .name word => isName word
  | .pattern e => isName e.text = false ∧ e.Printable parser (Balanced.atAny ['}']) true

def Item.isText : Item → Bool
  | .text _ => true
  | _ => false

mutual

def Item.Printable (parser : ScriptParser) : Item → Prop
  | .text data => data ≠ [] ∧ ∀ d ∈ data, d ≠ '<' ∧ d ≠ '{'
  | .comment data => ¬"-->".toList <:+: data
  | .element name attributes children =>
    OrdinaryName name ∧ (∀ a ∈ attributes, a.Printable) ∧ AllPrintable parser children
  | .mustache e =>
    e.text.head?.all (fun d => !(['#', '/', ':', '@'].contains d)) ∧
      e.Printable parser (Balanced.atAny ['}']) false
  | .html e => e.Printable parser (Balanced.atAny ['}']) false
  | .ifBlock condition children more =>
    condition.Printable parser (Balanced.atAny ['}']) false ∧ AllPrintable parser children ∧
      more.Printable parser
  | .each list context index key children other =>
    list.Printable parser (Balanced.atBraceOr "as".toList) false ∧
      context.Printable parser (Balanced.atAny [',', '(', '@', '}']) true ∧
      (∀ name ∈ index, name ≠ [] ∧ ∀ d ∈ name, isSimpleNameChar d) ∧
      (∀ e ∈ key, e.Printable parser (Balanced.atAny [')']) false) ∧
      AllPrintable parser children ∧ other.Printable parser
  | .await promise pending fulfilled rejected =>
    promise.Printable parser (Balanced.atBraceOr "then".toList) false ∧
      AllPrintable parser pending ∧ fulfilled.Printable parser ∧ rejected.Printable parser
  | .awaitThen promise value children rejected =>
    promise.Printable parser (Balanced.atBraceOr "then".toList) false ∧ value.Printable parser ∧
      AllPrintable parser children ∧ rejected.Printable parser

/-- All of them can be printed, and no two texts become one. -/
def AllPrintable (parser : ScriptParser) : List Item → Prop
  | [] => True
  | item :: items =>
    item.Printable parser ∧ (item.isText → items.head?.all (!·.isText)) ∧ AllPrintable parser items

def Other.Printable (parser : ScriptParser) : Other → Prop
  | .absent => True
  | .present children => AllPrintable parser children

def Chain.Printable (parser : ScriptParser) : Chain → Prop
  | .last other => other.Printable parser
  | .link condition children more =>
    condition.Printable parser (Balanced.atAny ['}']) false ∧ AllPrintable parser children ∧
      more.Printable parser

def Branch.Printable (parser : ScriptParser) : Branch → Prop
  | .absent => True
  | .present bound children => bound.Printable parser ∧ AllPrintable parser children

end

end SvelteSyntax.Markup
