import SvelteSyntax.Markup.Lexer
import SvelteSyntax.Program.Walk

namespace SvelteSyntax.Program

open Text Markup

inductive NameRole where
  | component
  | directive
  | eachIndex
  | eachKey
  | awaitValue
  | awaitError
  deriving DecidableEq, Repr

namespace NameRole

/-- The lexeme at which the node of the name starts. -/
def start : NameRole → LexemeKind
  | component => .openStart
  | directive => .attributeName
  | eachIndex | eachKey | awaitValue | awaitError => .mustacheStart

/-- The lexeme that is the name. -/
def lexeme : NameRole → LexemeKind
  | component => .componentName
  | directive => .directiveName
  | eachIndex => .eachIndex
  | eachKey => .eachKey
  | awaitValue => .awaitValue
  | awaitError => .awaitError

def ends : NameRole → List LexemeKind
  | component => [.openEnd]
  | directive => [.attributeEqual, .openEnd, .attributeName, .mustacheStart]
  | eachIndex | eachKey | awaitValue | awaitError => [.mustacheEnd]

end NameRole

def seekName (role : NameRole) (last : Lexeme) : List Lexeme → Lexeme ⊕ Lexeme
  | [] => .inr last
  | l :: ls =>
    if l.kind = role.lexeme then .inl l
    else if role.ends.contains l.kind then .inr last
    else seekName role l ls

/-- The lexeme of the name in the node that starts at an offset. -/
def findName (index : LineIndex) (lexemes : List Lexeme) (start : Nat) (role : NameRole)
    (expected : String) : Except Error Lexeme :=
  match lexemes.dropWhile (·.offset ≠ start) with
  | [] => .error (.inconsistent (.missingLexerToken start))
  | first :: rest =>
    if first.kind ≠ role.start then
      .error (.inconsistent (.unexpectedLexerToken start role.start.name first.kind.name))
    else match seekName role first rest with
      | .inl l =>
        if String.ofList l.value = expected then .ok l
        else .error (.inconsistent (.identifierMismatch l.offset expected (String.ofList l.value)))
      | .inr last =>
        .error (.at index last.offset ("Expected identifier " ++ ticked expected) .template)

/-- What the names of a component are looked up in. -/
structure NameContext where
  source : List Char
  index : LineIndex
  lexemes : List Lexeme

/-- Collects tokens and comments on the way. -/
abbrev Collect := StateT Streams (Except Error)

def fail {α : Type} (f : Fault) : Collect α := throw (.inconsistent f)

def pushToken (kind : TokenKind) (value : String) (start stop : Nat) : Collect Unit :=
  modify fun s => { s with tokens := s.tokens ++ [{ kind, value, start, stop }] }

def pushComment (value : String) (start stop : Nat) : Collect Unit :=
  modify fun s => { s with comments := s.comments ++ [{ kind := .block, value, start, stop }] }

def NameContext.find (ctx : NameContext) (start : Nat) (role : NameRole) (expected : String) :
    Collect Lexeme :=
  monadLift (findName ctx.index ctx.lexemes start role expected)

def identifierNode (name : String) (start stop : Nat) : Node :=
  { kind := "Identifier", start, stop, fields := [("name", .string name)] }

def expandName (ctx : NameContext) (n : Node) (field : String) (start : Nat) (role : NameRole) :
    Collect Node := do
  match n.get? field with
  | some (.string name) =>
    let l ← ctx.find start role name
    pushToken .identifier name l.offset l.stop
    return n.set field (.node (identifierNode name l.offset l.stop))
  | some (.node _) => fail (.alreadyExpanded n.kind field n.start)
  | _ => return n

/-- A capital, and then words with dots between them. -/
def isImportedName (name : List Char) : Bool :=
  name.head?.any isAsciiUpper &&
    (splitOn '.' name).all fun part => !part.isEmpty && part.all fun c => isWordChar c || c == '$'

def publishLexemes (ctx : NameContext) : Collect Unit :=
  ctx.lexemes.forM fun l =>
    match l.kind.tokenKind? with
    | some kind => pushToken kind (String.ofList l.value) l.offset l.stop
    | none => pure ()

def publishText (ctx : NameContext) (parent : Option Parent) (n : Node) : Collect Unit := do
  unless parent.any (·.kind == "Attribute") do
    let text := n.text ctx.source
    unless text.all isBlank do pushToken .text (String.ofList text) n.start n.stop

def nameDirective (ctx : NameContext) (n : Node) : Collect Node := do
  if n.is "Let" && !((n.get? "expression").all Value.isNull) then
    -- The expression declares the names; the directive only has to have one.
    let _ ← ctx.find n.start .directive ((n.string? "name").getD "")
    return n
  else expandName ctx n "name" n.start .directive

/-- A directive whose name is no variable, unless it stands for its own value. -/
def valueDirective (ctx : NameContext) (n : Node) : Collect Node := do
  let name := (n.string? "name").getD ""
  let l ← ctx.find n.start .directive name
  match n.child? "expression" with
  | some e =>
    if e.is "Identifier" && e.start == l.offset then
      return n.set "expression" (.node { e with stop := l.stop })
  | none => pure ()
  pushToken .string name l.offset l.stop
  return n

def nameEach (ctx : NameContext) (n : Node) : Collect Node := do
  let n ← expandName ctx n "index" n.start .eachIndex
  match n.get? "key" with
  | some (.string _) => expandName ctx n "key" n.start .eachKey
  | _ => return n

/-- Takes out a section that is not written. -/
def dropSkipped (n : Node) (field : String) : Node :=
  if (n.child? field).any (·.flag "skip") then n.erase field else n

def moveBinding (ctx : NameContext) (n : Node) (binding sectionField : String)
    (start : Node → Nat) (role : NameRole) : Collect Node := do
  let value := (n.get? binding).getD .null
  let n := n.erase binding
  match n.child? sectionField with
  | none => return n
  | some inner =>
    let inner := inner.set binding value
    let inner ← if value matches .string _ then expandName ctx inner binding (start inner) role
      else pure inner
    return n.set sectionField (.node inner)

def nameAwait (ctx : NameContext) (n : Node) : Collect Node := do
  let n := ["pending", "then", "catch"].foldl dropSkipped n
  let compact := !n.has "pending"
  let n ← moveBinding ctx n "value" "then" (fun inner => if compact then n.start else inner.start)
    .awaitValue
  moveBinding ctx n "error" "catch" (·.start) .awaitError

def nameNode (ctx : NameContext) (parent : Option Parent) (n : Node) : Collect Node := do
  match n.kind with
  | "TemplateRoot" => publishLexemes ctx; return n
  | "Text" => publishText ctx parent n; return n
  | "Comment" => pushComment ((n.string? "data").getD "") n.start n.stop; return n
  | "InlineComponent" =>
    if (n.string? "name").any fun name => isImportedName name.toList then
      expandName ctx n "name" n.start .component
    else return n
  | "Action" | "Animation" | "Let" | "Transition" => nameDirective ctx n
  | "Binding" | "Class" | "EventHandler" => valueDirective ctx n
  | "EachBlock" => nameEach ctx n
  | "AwaitBlock" => nameAwait ctx n
  | _ => return n

def namePass (ctx : NameContext) : Pass Collect where
  enter parent n := Step.kept <$> nameNode ctx parent n
  leave n := return n

/-- Names the nodes of a tree. What an await block binds moves into its section, and further down
where the section is an await block as well. What moves is less deep than the block, so the depths of
all that moves add up to at most the square. -/
def nameTree (ctx : NameContext) (n : Node) : Collect Node :=
  (namePass ctx).traverse 0 (n.depth * (n.depth + 1)) n

end SvelteSyntax.Program
