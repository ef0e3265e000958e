import SvelteSyntax.Error
import SvelteSyntax.Markup.Balanced
import SvelteSyntax.Markup.Lexeme
import SvelteSyntax.Text.Cursor
import SvelteSyntax.Text.Quoted

namespace SvelteSyntax.Markup

open Text

/-- How far the header of a block is read. -/
inductive Phase where
  | start
  | middle
  | tail
  deriving DecidableEq, Repr

/-- A construct that is being read. -/
inductive Mode where
  /-- Everything outside tags and braces. -/
  | text
  /-- A tag after its `<`, with the name of the element if its content is raw. -/
  | tag (raw : Option (List Char))
  | attributes
  | attribute
  | attributeName
  | directiveName
  | directiveModifiers
  | attributeValue
  | quotedValue (quote : Char)
  | closingTag
  | closingTagEnd
  | mustache (entered : Bool)
  /-- An expression and the brace after it. -/
  | expression
  | elseBranch
  | elseCondition
  | each (phase : Phase)
  | eachExpression
  | eachContext
  | eachIndex
  | eachGroupedKey
  | eachNamedKey
  | await (phase : Phase)
  | awaitExpression
  /-- The name or pattern after `then` or `catch`. -/
  | blockValue (kind : LexemeKind) (compact : Bool)
  | debug
  /-- Blanks and the brace after them. -/
  | blockEnd
  deriving DecidableEq, Repr

/-- The constructs that are open inside the text, the innermost first. -/
abbrev Modes := List Mode

def Modes.top (modes : Modes) : Mode := modes.head?.getD .text

/-- What a mode does at a place. -/
structure Move where
  /-- The characters passed over first. -/
  before : Nat := 0
  /-- The lexeme after them and its number of characters. -/
  lexeme : Option (LexemeKind × Nat) := none
  /-- The characters passed over last. -/
  after : Nat := 0
  /-- What becomes of the open constructs. -/
  change : Modes → Modes := id

/-- What a mode does, or the number of characters up to the one it refuses. -/
abbrev Outcome := Except Nat Move

namespace Move

def leave : Move := { change := List.tail }

def enter (mode : Mode) : Move := { change := (mode :: ·) }

/-- Puts a mode in the place of the current one and enters another. -/
def become (mode inner : Mode) : Move := { change := fun modes => inner :: mode :: modes.tail }

def pass (n : Nat) : Move := { before := n }

def emit (kind : LexemeKind) (n : Nat) : Move := { lexeme := some (kind, n) }

def emitLeave (kind : LexemeKind) (n : Nat) : Move := { emit kind n with change := List.tail }

def emitEnter (kind : LexemeKind) (n : Nat) (mode : Mode) : Move :=
  { emit kind n with change := (mode :: ·) }

end Move

/-- The elements whose content is text and no markup. -/
def rawTextElements : List String := ["script", "style", "textarea"]

/-- The number of characters up to the end of the first `close`. -/
def lengthThrough (close cs : List Char) : Nat :=
  match splitAt? close cs with
  | some (before, _) => before.length + close.length
  | none => cs.length

/-- The number of characters before the first `close`. -/
def lengthUpTo (close cs : List Char) : Nat :=
  match splitAt? close cs with
  | some (before, _) => before.length
  | none => cs.length

/-- The number of characters at the start that are neither blank nor one of the marks. -/
def runLength (marks cs : List Char) : Nat :=
  (cs.takeWhile fun c => !isMarkupBlank c && !marks.contains c).length

def blanks (cs : List Char) : Nat := (cs.takeWhile isMarkupBlank).length

/-- Passes over blanks if there are any. -/
def skippingBlanks (cs : List Char) (next : Outcome) : Outcome :=
  if blanks cs = 0 then next else .ok (.pass (blanks cs))

def startsTag (name cs : List Char) : Bool :=
  startsWith name cs && (cs.drop name.length).head?.any fun c => isMarkupBlank c || c == '>'

def isOneOf (marks : List Char) (c : Option Char) : Bool := c.any marks.contains

def isBlankOr (marks : List Char) (c : Option Char) : Bool :=
  c.any fun c => isMarkupBlank c || marks.contains c

/-- The brace that ends a tag. -/
def closeMustache (cs : List Char) : Outcome :=
  if cs.head? = some '}' then .ok (.emitLeave .mustacheEnd 1) else .error 0

def inText (cs : List Char) : Outcome :=
  if startsTag "<script".toList cs then .ok (.pass (lengthThrough "</script>".toList cs))
  else if startsTag "<style".toList cs then .ok (.pass (lengthThrough "</style>".toList cs))
  else if startsWith "<!--".toList cs then .ok (.pass (lengthThrough "-->".toList cs))
  else if startsWith "</".toList cs then .ok (.emitEnter .closeStart 2 .closingTag)
  else if cs.head? = some '<' then .ok (.emitEnter .openStart 1 (.tag none))
  else if cs.head? = some '{' then .ok (.emitEnter .mustacheStart 1 (.mustache false))
  else .ok (.pass (cs.takeWhile fun c => c != '<' && c != '{').length)

def inTag (raw : Option (List Char)) (cs : List Char) : Outcome :=
  if cs.head? = some '>' then
    let after := match raw with
      | some name => lengthUpTo ("</".toList ++ name) cs.tail
      | none => 0
    .ok { Move.emitLeave .openEnd 1 with after }
  else if startsWith "/>".toList cs then .ok (.emitLeave .openEnd 2)
  else if isBlankOr ['/'] cs.head? then .error 0
  else
    let n := runLength ['/', '>'] cs
    let name := cs.take n
    let kind := if cs.head?.any isAsciiUpper then LexemeKind.componentName else .tagName
    let raw := if rawTextElements.contains (String.ofList name) then some name else none
    .ok { Move.emit kind n with change := fun modes => .attributes :: .tag raw :: modes.tail }

def inAttributes (cs : List Char) : Outcome :=
  skippingBlanks cs (.ok (if isOneOf ['/', '>'] cs.head? then .leave else .enter .attribute))

def inAttribute (cs : List Char) : Outcome :=
  if cs.head? = some '{' then .ok (.emitEnter .mustacheStart 1 (.mustache false))
  else if cs.head? = some '=' then .ok (.emitEnter .attributeEqual 1 .attributeValue)
  else if isBlankOr ['/', '>'] cs.head? then .ok .leave
  else if cs.head? = some '}' then .error 0
  else .ok (.enter .attributeName)

def inAttributeName (prev : Option Char) (cs : List Char) : Outcome :=
  if isBlankOr ['=', '/', '>'] cs.head? then .ok .leave
  else if cs.head? = some ':' then
    let nameless := match cs.tail with
      | [] => true
      | c :: _ => isBlankOr ['>', '=', '/', '|'] (some c)
    if prev.all isMarkupBlank || nameless then .error 0
    else .ok (.emitEnter .directiveColon 1 .directiveName)
  else
    let n := runLength ['\'', '"', ':', '|', '=', '/', '>'] cs
    if n = 0 then .error 0 else .ok (.emit .attributeName n)

/-- The name of a directive, or with `modifiers` the words after its name. -/
def inDirective (modifiers : Bool) (cs : List Char) : Outcome :=
  if isBlankOr ['=', '/', '>'] cs.head? then .ok .leave
  else if cs.head? = some '|' then
    .ok (if modifiers then .emit .directivePipe 1
      else .emitEnter .directivePipe 1 .directiveModifiers)
  else
    let n := runLength ['{', '}', '\'', '"', '|', '=', '/', '>'] cs
    if n = 0 || !isBlankOr ['|', '=', '/', '>'] (cs.drop n).head? then .error 0
    else .ok (.emit (if modifiers then .directiveModifier else .directiveName) n)

def inAttributeValue (prev : Option Char) (cs : List Char) : Outcome :=
  if cs.head? = some '{' then .ok (.emitEnter .mustacheStart 1 (.mustache false))
  else if cs.head? = some '"' then .ok (.emitEnter .doubleQuote 1 (.quotedValue '"'))
  else if cs.head? = some '\'' then .ok (.emitEnter .singleQuote 1 (.quotedValue '\''))
  else if isBlankOr ['/', '>'] cs.head? then .ok .leave
  else
    let n := runLength ['{', '}', '\'', '"', '/', '>'] cs
    if prev ≠ some '=' || n = 0 || !isBlankOr ['/', '>'] (cs.drop n).head? then .error 0
    else .ok (.emit .attributeValue n)

def inQuotedValue (quote : Char) (prev : Option Char) (cs : List Char) : Outcome :=
  if cs.head? = some quote then
    if prev = some '\\' then .error 0
    else .ok (.emitLeave (if quote = '"' then .doubleQuote else .singleQuote) 1)
  else if cs.head? = some '{' then .ok (.emitEnter .mustacheStart 1 (.mustache false))
  else if cs.head? = some '}' then .error 0
  else .ok (.emit .attributeValue (cs.takeWhile fun c => c != quote && c != '{' && c != '}').length)

def inClosingTag (cs : List Char) : Outcome :=
  if cs.head? = some '>' then .ok (.emitLeave .closeEnd 1)
  else
    let n := runLength ['>'] cs
    if n = 0 then .error 0 else .ok (.emitEnter .tagName n .closingTagEnd)

/-- The words that open a tag in braces. -/
def mustacheKeywords : List (String × LexemeKind) :=
  [("#if", .ifOpen), ("#each", .eachOpen), ("#await", .awaitOpen), (":else", .elseOpen),
   (":then", .awaitThen), (":catch", .awaitCatch), ("/if", .ifClose), ("/each", .eachClose),
   ("/await", .awaitClose), ("@html", .rawHtml), ("@debug", .debug)]

/-- What follows such a word. -/
def modeAfter : LexemeKind → Mode
  | .ifOpen | .rawHtml => .expression
  | .eachOpen => .each .start
  | .awaitOpen => .await .start
  | .elseOpen => .elseBranch
  | .awaitThen => .blockValue .awaitValue false
  | .awaitCatch => .blockValue .awaitError false
  | .debug => .debug
  | _ => .blockEnd

def inMustache (entered : Bool) (cs : List Char) : Outcome :=
  if entered then .ok .leave
  else skippingBlanks cs <|
    match mustacheKeywords.find? fun (word, _) => startsWith word.toList cs with
    | none => .ok (.become (.mustache true) .expression)
    | some (word, kind) =>
      .ok { Move.become (.mustache true) (modeAfter kind) with
            lexeme := some (kind, word.length) }

/-- The number of characters of script text before the place to stop. -/
def scriptLength (stop : Balanced.Stop) (prev : Option Char) (cs : List Char) : Nat :=
  (Balanced.takeUntil stop prev cs).length

def inExpression (prev : Option Char) (cs : List Char) : Outcome :=
  let n := scriptLength (Balanced.atAny ['}']) prev cs
  if n < cs.length then .ok { Move.emitLeave .mustacheEnd 1 with before := n } else .ok (.pass n)

def inElse (cs : List Char) : Outcome :=
  skippingBlanks cs <|
    if startsWith "if".toList cs && isBlankOr [] (cs.drop 2).head? then
      .ok (.emitEnter .elseIf 2 .elseCondition)
    else closeMustache cs

def inElseCondition (prev : Option Char) (cs : List Char) : Outcome :=
  .ok { Move.leave with before := scriptLength (Balanced.atAny ['}']) prev cs }

def inEach (phase : Phase) (cs : List Char) : Outcome :=
  match phase with
  | .start => .ok (.become (.each .middle) .eachExpression)
  | .middle => .ok (.become (.each .tail) .eachContext)
  | .tail => skippingBlanks cs <|
    match cs.head? with
    | some ',' => .ok (.emitEnter .eachComma 1 .eachIndex)
    | some '(' => .ok (.emitEnter .eachKeyStart 1 .eachGroupedKey)
    | some '@' => .ok (.emitEnter .eachKeyMark 1 .eachNamedKey)
    | _ => closeMustache cs

def inEachExpression (prev : Option Char) (cs : List Char) : Outcome :=
  let n := scriptLength (Balanced.atBraceOr "as".toList) prev cs
  if isOneOf ['}'] (cs.drop n).head? || n = cs.length then .error n
  else .ok { Move.emitLeave .eachAs 2 with before := n }

def inEachContext (prev : Option Char) (cs : List Char) : Outcome :=
  .ok { Move.leave with
        before := scriptLength (Balanced.atAny [',', '(', '@', '}']) prev cs }

def inEachIndex (cs : List Char) : Outcome :=
  skippingBlanks cs <|
    let n := runLength ['{', '}', '(', ')', '@'] cs
    if n = 0 then .error 0 else .ok (.emitLeave .eachIndex n)

def inEachGroupedKey (prev : Option Char) (cs : List Char) : Outcome :=
  let n := scriptLength (Balanced.atAny [')']) prev cs
  if n = cs.length then .error n else .ok { Move.emitLeave .eachKeyEnd 1 with before := n }

def inEachNamedKey (cs : List Char) : Outcome :=
  let n := runLength ['}'] cs
  if n = 0 then .error 0 else .ok (.emitLeave .eachKey n)

def inAwaitExpression (prev : Option Char) (cs : List Char) : Outcome :=
  let n := scriptLength (Balanced.atBraceOr "then".toList) prev cs
  if isOneOf ['}'] (cs.drop n).head? || n = cs.length then .ok { Move.leave with before := n }
  else
    .ok { Move.emit .awaitCompactThen 4 with
          before := n
          change := fun modes => .blockValue .awaitValue true :: modes.tail }

def inBlockValue (kind : LexemeKind) (compact : Bool) (cs : List Char) : Outcome :=
  let done (m : Move) : Move := if compact then { m with change := List.tail } else m
  skippingBlanks cs <|
    match cs.head? with
    | some '}' => if compact then .ok .leave else closeMustache cs
    | some '{' | some '[' =>
      .ok (done (.pass (scriptLength (Balanced.atAny ['}', ']']) cs.head? cs.tail + 2)))
    | _ => .ok (done (.emit kind (runLength ['{', '}'] cs)))

def inDebug (prev : Option Char) (cs : List Char) : Outcome :=
  let n := scriptLength (Balanced.atAny [',', '}']) prev cs
  match (cs.drop n).head? with
  | none => .ok (.pass n)
  | some ',' => .ok { Move.emit .debugComma 1 with before := n }
  | some _ => .ok { Move.emitLeave .mustacheEnd 1 with before := n }

/-- What the current mode does with the text from here on. -/
def Mode.move (mode : Mode) (prev : Option Char) (cs : List Char) : Outcome :=
  match mode with
  | .text => inText cs
  | .tag raw => inTag raw cs
  | .attributes => inAttributes cs
  | .attribute => inAttribute cs
  | .attributeName => inAttributeName prev cs
  | .directiveName => inDirective false cs
  | .directiveModifiers => inDirective true cs
  | .attributeValue => inAttributeValue prev cs
  | .quotedValue quote => inQuotedValue quote prev cs
  | .closingTag => inClosingTag cs
  | .closingTagEnd =>
    skippingBlanks cs (if cs.head? = some '>' then .ok .leave else .error 0)
  | .mustache entered => inMustache entered cs
  | .expression => inExpression prev cs
  | .elseBranch => inElse cs
  | .elseCondition => inElseCondition prev cs
  | .each phase => inEach phase cs
  | .eachExpression => inEachExpression prev cs
  | .eachContext => inEachContext prev cs
  | .eachIndex => inEachIndex cs
  | .eachGroupedKey => inEachGroupedKey prev cs
  | .eachNamedKey => inEachNamedKey cs
  | .await .start => .ok (.become (.await .tail) .awaitExpression)
  | .await _ | .blockEnd => skippingBlanks cs (closeMustache cs)
  | .awaitExpression => inAwaitExpression prev cs
  | .blockValue kind compact => inBlockValue kind compact cs
  | .debug => inDebug prev cs

structure Reading where
  cursor : Cursor
  modes : Modes := []

/-- The place that a mode refuses. -/
abbrev Refusal := Cursor

def Reading.step (r : Reading) : Except Refusal (Option Lexeme × Reading) :=
  match r.modes.top.move r.cursor.prev r.cursor.rest with
  | .error n => .error (r.cursor.skip n)
  | .ok move =>
    let cursor := r.cursor.skip move.before
    let next (n : Nat) : Reading :=
      { cursor := (cursor.skip n).skip move.after, modes := move.change r.modes }
    match move.lexeme with
    | none => .ok (none, next 0)
    | some (kind, n) =>
      .ok (some { kind, value := cursor.rest.take n, offset := cursor.offset }, next n)

/-- The lexemes of at most the given number of moves. -/
def Reading.run : Nat → Reading → Except Refusal (List Lexeme)
  | 0, _ => .ok []
  | fuel + 1, r =>
    if r.cursor.atEnd then .ok []
    else do
      let (lexeme, r) ← r.step
      let lexemes ← r.run fuel
      return lexeme.toList ++ lexemes

/-- More moves than can follow one another without passing over a character. -/
def movesPerChar : Nat := 16

def scan (source : List Char) : Except Refusal (List Lexeme) :=
  Reading.run (movesPerChar * (source.length + 1)) { cursor := .ofText source }

/-- The number of characters a refusal quotes. -/
def quotedLength : Nat := 12

/-- The lexemes of a component. -/
def lex (index : LineIndex) (source : List Char) : Except Error (List Lexeme) :=
  match scan source with
  | .ok lexemes => .ok lexemes
  | .error place =>
    .error <| .at index place.offset
      ("Unexpected token " ++ Quoted.encode (place.rest.take quotedLength)) .lexer

end SvelteSyntax.Markup
