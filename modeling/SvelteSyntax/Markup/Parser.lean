import SvelteSyntax.Markup.Element

namespace SvelteSyntax.Markup

open Text Script

/-- Why a list of siblings ended, and where. -/
inductive Ending where
  | endOfText
  | closingTag (name : String) (start : Nat)
  | blockClose (keyword : String) (start : Nat)
  | branch (keyword : String) (start : Nat)
  deriving DecidableEq, Repr

abbrev Siblings := List Node × Ending

/-- Reads the content of a node of the given kind. -/
abbrev Content := String → Read Siblings

def elementChildren [Access] (content : Content) (kind name : String) (start : Nat) : Read (List Node) := do
  let (children, ending) ← content kind
  match ending with
  | .closingTag closing at_ =>
    unless closing = name do
      refuse "invalid-closing-tag"
        ("</" ++ closing ++ "> attempted to close <" ++ name ++ ">") at_
    closeTag name
    return children
  | _ => refuse "unclosed-element" ("<" ++ name ++ "> was left open") start

def rawChildren [Access] (name : String) (start : Nat) : Read (List Node) := do
  let textStart ← here
  let some data ← readUpTo? ("</" ++ name)
    | refuse "unclosed-element" ("<" ++ name ++ "> was left open") start
  closeTag name
  return if data.isEmpty then [] else [textNode textStart data]

def element [Access] (content : Content) (parent name : String) (start : Nat) : Read Node := do
  let attributes ← attributes
  let closed ← openEnd
  let kind := elementKind name parent
  let mut fields := [("name", Value.string name)]
  let mut plain := attributes
  if name = "svelte:component" then
    let (this, rest) := takeThis attributes
    let some this := this
      | refuse "missing-component-definition" "<svelte:component> must have a 'this' attribute" start
    fields := fields ++ [("expression", .node this)]
    plain := rest
  let children ←
    if closed || voidElements.contains name.toLower then pure []
    else if rawTextElements.contains name then rawChildren name start
    else elementChildren content kind name start
  finish kind start (fields ++ [("attributes", .nodes plain), ("children", .nodes children)])

def tag [Access] (content : Content) (topLevel : Bool) (parent : String) : Read (Option Node) := do
  let start ← here
  skip 1
  let name ← readWhile fun c => !isMarkupBlank c && c != '/' && c != '>'
  let name := String.ofList name
  if name.isEmpty then refuse "expected-tag-name" "Expected a tag name" (start + 1)
  if topLevel && (name = "script" || name = "style") then
    topLevelElement name start
    return none
  return some (← element content parent name start)

/-- Moves past `{/keyword}`. -/
def blockClose [Access] (keyword : String) : Read Unit := do
  expect "\x7b"
  skipBlanks
  expect "/"
  expect keyword
  skipBlanks
  expect "\x7d"

/-- Moves past `{:keyword`. -/
def branchOpen [Access] (keyword : String) : Read Unit := do
  expect "\x7b"
  skipBlanks
  expect ":"
  expect keyword

def refuseEnding {α : Type} (ending : Ending) (block : String) (start : Nat) : Read α :=
  match ending with
  | .endOfText => refuse "unclosed-block" ("Block \x7b#" ++ block ++ "\x7d was left open") start
  | .closingTag name at_ =>
    refuse "invalid-closing-tag"
      ("</" ++ name ++ "> attempted to close an element that was not open") at_
  | .blockClose keyword at_ =>
    refuse "invalid-block-close"
      ("Expected \x7b/" ++ block ++ "\x7d, found \x7b/" ++ keyword ++ "\x7d") at_
  | .branch keyword at_ =>
    refuse "invalid-branch"
      ("\x7b:" ++ keyword ++ "\x7d can not appear inside \x7b#" ++ block ++ "\x7d") at_

def elseNode (start stop : Nat) (children : List Node) : Node :=
  { kind := "ElseBlock", start, stop, fields := [("children", .nodes children)] }

def elseBranch [Access] (content : Content) (branch : Nat) : Read (Node × Ending) := do
  expect "\x7d"
  let (children, ending) ← content "ElseBlock"
  return (elseNode branch (← here) children, ending)

/-- An if block after its condition, up to the `{/if}` that closes the whole chain. The rule `link`
reads the block of an else-if in the same way. -/
def ifLink [Access] (content : Content) (link : (start : Nat) → (condition : Node) → (nested : Bool) → Read Node)
    (start : Nat) (condition : Node) (nested : Bool) : Read Node := do
  let (children, ending) ← content "IfBlock"
  let node : Node :=
    { kind := "IfBlock", start, stop := 0,
      fields := [("expression", .node condition), ("children", .nodes children)] }
  let node := if nested then node.set "elseif" (.bool true) else node
  let (node, ending) ← match ending with
    | .branch "else" branch => do
      branchOpen "else"
      skipBlanks
      if (← wordIn (← cursor).rest) = "if" then
        let inner ← here
        skip 2
        let innerCondition ← expressionToBrace
        let link ← link inner innerCondition true
        let close ← here
        pure (node.set "else" (.node (elseNode branch close [link])), Ending.blockClose "if" close)
      else
        let (other, ending) ← elseBranch content branch
        pure (node.set "else" (.node other), ending)
    | ending => pure (node, ending)
  match ending with
  | .blockClose "if" close => return { node with stop := close }
  | ending => refuseEnding ending "if" start

/-- An if block after its condition and the blocks of all its else-ifs, at most as many as the fuel. -/
def ifChain [Access] (content : Content) : Nat → (start : Nat) → (condition : Node) → (nested : Bool) →
    Read Node
  | 0 => ifLink content fun _ _ _ => exhausted
  | fuel + 1 => ifLink content (ifChain content fuel)

def ifBlock [Access] (content : Content) (fuel start : Nat) : Read Node := do
  let condition ← expressionToBrace
  let node ← ifChain content fuel start condition false
  blockClose "if"
  return { node with stop := ← here }

def isSimpleNameChar (c : Char) : Bool := isAsciiAlphanumeric c || c == '_' || c == '$'

def eachIndex [Access] : Read (List (String × Value)) := do
  unless ← eat "," do return []
  skipBlanks
  let start ← here
  let name ← readWhile isSimpleNameChar
  if name.isEmpty then refuse "expected-name" "Expected an index name" start
  declare (String.ofList name) start
  skipBlanks
  return [("index", .string (String.ofList name))]

def eachKey [Access] : Read (List (String × Value)) := do
  if ← eat "(" then
    let c ← cursor
    let text ← scriptUpTo (Balanced.atAny [')'])
    if text.length = c.rest.length then refuse "unexpected-eof" "Expected )" c.offset
    let key ← expression c.offset text
    pass text 1
    skipBlanks
    return [("key", .node key)]
  else if ← eat "@" then
    let key ← readWhile isSimpleNameChar
    skipBlanks
    return [("key", .string (String.ofList key))]
  else return []

def eachBlock [Access] (content : Content) (start : Nat) : Read Node := do
  let c ← cursor
  let text ← scriptUpTo (Balanced.atBraceOr "as".toList)
  let asAt := c.skip text.length
  if asAt.peek?.all (· == '}') then refuse "expected-as" "Expected 'as'" asAt.offset
  let e ← expression c.offset text
  pass text 2
  let c ← cursor
  let text ← scriptUpTo (Balanced.atAny [',', '(', '@', '}'])
  let context ← pattern c.offset text
  pass text 0
  skipBlanks
  let index ← eachIndex
  let key ← eachKey
  expect "\x7d"
  let (children, ending) ← content "EachBlock"
  let (others, ending) ← match ending with
    | .branch "else" branch => do
      branchOpen "else"
      skipBlanks
      let (other, ending) ← elseBranch content branch
      pure ([("else", Value.node other)], ending)
    | ending => pure ([], ending)
  match ending with
  | .blockClose "each" _ =>
    blockClose "each"
    finish "EachBlock" start ([("expression", .node e), ("context", .node context)] ++ index ++ key ++
      [("children", .nodes children)] ++ others)
  | ending => refuseEnding ending "each" start

/-- A part of an await block. -/
inductive Section where
  | pending
  | fulfilled
  | rejected
  deriving DecidableEq, Repr

def Section.kind : Section → String
  | .pending => "PendingBlock"
  | .fulfilled => "ThenBlock"
  | .rejected => "CatchBlock"

/-- The sections of an await block and what they bind. -/
structure Sections where
  pending : Node
  fulfilled : Node
  rejected : Node
  value : Value := .null
  error : Value := .null

namespace Sections

/-- The sections of an await block at `start` that has none. -/
def none (start : Nat) : Sections :=
  let skipped (s : Section) : Node :=
    { kind := s.kind, start, stop := start,
      fields := [("children", .nodes []), ("skip", .bool true)] }
  { pending := skipped .pending, fulfilled := skipped .fulfilled, rejected := skipped .rejected }

def set (s : Section) (n : Node) (sections : Sections) : Sections :=
  match s with
  | .pending => { sections with pending := n }
  | .fulfilled => { sections with fulfilled := n }
  | .rejected => { sections with rejected := n }

end Sections

/-- What a branch binds, and the brace after it. -/
def branchValue [Access] : Read Value := do
  let c ← cursor
  let text ← scriptUpTo (Balanced.atAny ['}'])
  let value ← blockValue c.offset text
  pass text 0
  expect "\x7d"
  return value

/-- The section that starts at an offset, among the others, and how it ended. -/
def awaitSection (content : Content) (s : Section) (start : Nat) (sections : Sections) :
    Read (Sections × Ending) := do
  let (children, ending) ← content s.kind
  let node : Node :=
    { kind := s.kind, start, stop := ← here,
      fields := [("children", .nodes children), ("skip", .bool false)] }
  return (sections.set s node, ending)

def awaitEnd [Access] (start : Nat) (sections : Sections) : Ending → Read Sections
  | .blockClose "await" _ => do
    blockClose "await"
    return sections
  | ending => refuseEnding ending "await" start

def awaitRejected [Access] (content : Content) (start : Nat) (sections : Sections) : Ending → Read Sections
  | .branch "catch" branch => do
    branchOpen "catch"
    let error ← branchValue
    let (sections, ending) ← awaitSection content .rejected branch { sections with error }
    awaitEnd start sections ending
  | ending => awaitEnd start sections ending

def awaitFulfilled [Access] (content : Content) (start : Nat) (sections : Sections) : Ending → Read Sections
  | .branch "then" branch => do
    branchOpen "then"
    let value ← branchValue
    let (sections, ending) ← awaitSection content .fulfilled branch { sections with value }
    awaitRejected content start sections ending
  | ending => awaitRejected content start sections ending

def awaitBlock [Access] (content : Content) (start : Nat) : Read Node := do
  let c ← cursor
  let text ← scriptUpTo (Balanced.atBraceOr "then".toList)
  let some mark := (c.skip text.length).peek? | refuse "unexpected-eof" "Expected \x7d" c.offset
  let e ← expression c.offset text
  pass text 0
  let compact := mark != '}'
  let value ← if compact then skip 4; branchValue else expect "\x7d"; pure .null
  let first := if compact then Section.fulfilled else .pending
  let (sections, ending) ← awaitSection content first (← here) { Sections.none start with value }
  let sections ← if compact then awaitRejected content start sections ending
    else awaitFulfilled content start sections ending
  finish "AwaitBlock" start
    [("expression", .node e), ("value", sections.value), ("error", sections.error),
     ("pending", .node sections.pending), ("then", .node sections.fulfilled),
     ("catch", .node sections.rejected)]

def debugIdentifiers [Access] : Nat → List (List Char) → Read (List Node)
  | _, [] => return []
  | start, part :: parts => do
    let e ← expression start part
    unless e.is "Identifier" do
      refuse "invalid-debug-args"
        "\x7b@debug ...\x7d arguments must be identifiers, not arbitrary expressions" e.start
    return e :: (← debugIdentifiers (start + byteLength part + 1) parts)

def debugTag [Access] (start : Nat) : Read Node := do
  let c ← cursor
  let some (body, _) := splitAt? ['}'] c.rest | refuse "unexpected-eof" "Expected \x7d" start
  let identifiers ←
    if body.all isBlank then pure [] else debugIdentifiers c.offset (splitOn ',' body)
  pass body 1
  finish "DebugTag" start [("identifiers", .nodes identifiers)]

def mustache [Access] (content : Content) (fuel : Nat) : Read Node := do
  let start ← here
  skip 1
  skipBlanks
  if ← eat "#" then
    let keyword ← wordIn (← cursor).rest
    skip keyword.length
    match keyword with
    | "if" => ifBlock content fuel start
    | "each" => eachBlock content start
    | "await" => awaitBlock content start
    | _ => refuse "expected-block-type" "Expected if, each or await" (← here)
  else if ← eat "@html" then
    let e ← expressionToBrace
    finish "RawMustacheTag" start [("expression", .node e)]
  else if ← eat "@debug" then debugTag start
  else
    let e ← expressionToBrace
    finish "MustacheTag" start [("expression", .node e)]

/-- What is read next in a list of siblings. -/
inductive Next where
  | ends (ending : Ending)
  | comment
  | tag
  | mustache
  | text

def next [Access] : Read Next := do
  let c ← cursor
  if startsWith "<!--".toList c.rest then return .comment
  match c.rest with
  | [] => return .ends .endOfText
  | '<' :: '/' :: cs =>
    let name ← within (·.takeWhile fun c => !isMarkupBlank c && c != '>') cs
    return .ends (.closingTag (String.ofList name) c.offset)
  | '<' :: _ => return .tag
  | '{' :: cs =>
    let blanks ← within (·.takeWhile isMarkupBlank) cs
    match cs.drop blanks.length with
    | '/' :: cs => return .ends (.blockClose (← wordIn cs) c.offset)
    | ':' :: cs => return .ends (.branch (← wordIn cs) c.offset)
    | _ => return .mustache
  | _ => return .text

/-- Siblings in a node of the given kind. Every node takes at least one character, so there are no
more levels and siblings than characters. -/
def siblings [Access] : Nat → (topLevel : Bool) → (parent : String) → Read Siblings
  | 0, _, _ => exhausted
  | fuel + 1, topLevel, parent => do
    let content : Content := siblings fuel false
    let node ← match ← next with
      | .ends ending => return ([], ending)
      | .comment => some <$> comment
      | .tag => tag content topLevel parent
      | .mustache => some <$> mustache content fuel
      | .text => some <$> text
    let (nodes, ending) ← siblings fuel topLevel parent
    return (node.toList ++ nodes, ending)

def fragment [Access] : Read Node := do
  let (children, ending) ← siblings ((← cursor).rest.length + 1) true "Fragment"
  match ending with
  | .endOfText =>
    return { kind := "Fragment", start := (children.head?.map (·.start)).getD 0,
             stop := (children.getLast?.map (·.stop)).getD 0,
             fields := [("children", .nodes children)] }
  | .closingTag name start =>
    refuse "invalid-closing-tag"
      ("</" ++ name ++ "> attempted to close an element that was not open") start
  | .blockClose keyword start =>
    refuse "unexpected-block-close"
      ("Unexpected block closing tag \x7b/" ++ keyword ++ "\x7d") start
  | .branch keyword start =>
    refuse "invalid-branch" ("Unexpected \x7b:" ++ keyword ++ "\x7d outside of a block") start

/-- A template and what the analysis of variables needs from it. -/
structure Parsed where
  template : Template
  sites : Sites

/-- The template of a component, with scripts parsed by the given parser. -/
def parse [Access] (parser : ScriptParser) (source : List Char) : Except CompileError Parsed := do
  let (html, p) ← (fragment.run { source, parser }).run { cursor := .ofText source }
  return { template := ⟨html, p.css, p.instanceScript, p.moduleScript⟩, sites := p.sites }

end SvelteSyntax.Markup
