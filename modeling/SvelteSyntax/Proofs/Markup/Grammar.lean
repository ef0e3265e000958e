import SvelteSyntax.Proofs.Markup.Rules.Siblings

namespace SvelteSyntax.Markup

open Text

/-- A section that an await block at the offset does not have. -/
def skippedNode (s : Section) (start : Nat) : Node :=
  { kind := s.kind, start, stop := start,
    fields := [("children", .nodes []), ("skip", .bool true)] }

/-- A section of an await block, in its place if it is there. -/
def sectionPieces (n : Node) : List Piece := if n.flag "skip" then [] else [.part n]

/-- A section of an await block that is not there is an empty part at the start of the block. -/
def absentPieces (n : Node) : List Piece := if n.flag "skip" then [.part n] else []

/-- The start of an await block up to its promise. -/
def awaitOpener (sections : Sections) : List Piece :=
  absentPieces sections.pending ++ absentPieces sections.fulfilled ++
    absentPieces sections.rejected ++ opener '#' "await"

/-- The rest of an await block after its first tag. -/
def awaitBody (sections : Sections) : List Piece :=
  sectionPieces sections.pending ++ sectionPieces sections.fulfilled ++
    sectionPieces sections.rejected ++ closer "await"

inductive Written : Node → List Piece → Prop
  | text {start : Nat} {data : List Char} : Written (textNode start data) [.word data]
  | comment {start stop : Nat} {data : List Char} :
      Written { kind := "Comment", start, stop, fields := [("data", .string (String.ofList data))] }
        [.word "<!--".toList, .word data, .word "-->".toList]
  | mustache {start stop : Nat} {e : Node} :
      Written { kind := "MustacheTag", start, stop, fields := [("expression", .node e)] }
        ([.word ['{']] ++ loose e ++ [.word ['}']])
  | rawMustache {start stop : Nat} {e : Node} :
      Written { kind := "RawMustacheTag", start, stop, fields := [("expression", .node e)] }
        (opener '@' "html" ++ loose e ++ [.word ['}']])
  | debug {start stop : Nat} {es : List Node} (hne : es ≠ []) :
      Written { kind := "DebugTag", start, stop, fields := [("identifiers", .nodes es)] }
        (opener '@' "debug" ++ listed es ++ [.word ['}']])
  | debugAll {start stop : Nat} {body : List Char} (hbody : body.all isBlank) :
      Written { kind := "DebugTag", start, stop, fields := [("identifiers", .nodes [])] }
        (opener '@' "debug" ++ [.word body, .word ['}']])
  -- attributes
  | spread {start stop : Nat} {e : Node} :
      Written { kind := "Spread", start, stop, fields := [("expression", .node e)] }
        ([.word ['{'], .blank, .word "...".toList] ++ loose e ++ [.word ['}']])
  | shorthandName {start stop : Nat} {e : Node} :
      Written { kind := "AttributeShorthand", start, stop, fields := [("expression", .node e)] }
        [.node e]
  | shorthand {start stop : Nat} {name : String} {e : Node} :
      Written { kind := "Attribute", start, stop,
                fields := [("name", .string name), ("value", .nodes [e])] }
        ([.word ['{']] ++ loose e ++ [.word ['}']])
  | bareAttribute {start stop : Nat} {name : List Char} :
      Written (plainAttribute name start stop none) [.word name]
  | valueAttribute {start stop : Nat} {name : List Char} {chunks : List Node} {quote : List Piece}
      (hquote : quote ∈ quotes) :
      Written (plainAttribute name start stop (some chunks))
        ([.word name, .word ['=']] ++ quote ++ joined chunks ++ quote)
  | bareDirective {start stop : Nat} {kind : String} {word rest : List Char} :
      Written (directiveNode kind word rest start stop none) [.word (word ++ ':' :: rest)]
  | ownDirective {start stop : Nat} {kind : String} {word rest : List Char} {e : Node} :
      Written (directiveNode kind word rest start stop (some e)) [.word (word ++ [':']), .node e]
  | valueDirective {start stop : Nat} {kind : String} {word rest : List Char} {e : Node}
      {quote : List Piece} (hquote : quote ∈ quotes) :
      Written (directiveNode kind word rest start stop (some e))
        ([.word (word ++ ':' :: rest), .word ['=']] ++ quote ++ [.word ['{']] ++ loose e ++
          [.word ['}']] ++ quote)
  -- elements
  | emptyElement {start stop : Nat} {kind name : String} {this : Option Node}
      {attributes plain : List Node} {closed : Bool}
      (hplain : PlainAttributes name attributes this plain)
      (hempty : closed || voidElements.contains name.toLower) :
      Written (elementNode kind name start stop this plain [])
        (tagHead name.toList attributes ++ [.word (if closed then "/>" else ">").toList])
  | element {start stop : Nat} {kind name : String} {this : Option Node}
      {attributes plain children : List Node}
      (hplain : PlainAttributes name attributes this plain) :
      Written (elementNode kind name start stop this plain children)
        (tagHead name.toList attributes ++ [.word ['>']] ++ joined children ++ tagClose name.toList)
  | emptyStyle {start stop : Nat} {attributes : List Node} :
      Written (styleNode start stop stop attributes [])
        (tagHead "style".toList attributes ++ [.word "/>".toList])
  | style {start stop contentStart : Nat} {attributes : List Node} {content : List Char} :
      Written (styleNode start stop contentStart attributes content)
        (tagHead "style".toList attributes ++ [.word ['>'], .word content] ++
          tagClose "style".toList)
  | emptyScript {start stop : Nat} {attributes : List Node} :
      Written (scriptNode start stop stop attributes [])
        (tagHead "script".toList attributes ++ [.word "/>".toList, .part (.pending "Program" stop stop)])
  | script {start stop contentStart : Nat} {attributes : List Node} {content : List Char} :
      Written (scriptNode start stop contentStart attributes content)
        (tagHead "script".toList attributes ++
          [.word ['>'],
           .part (.pending "Program" contentStart (contentStart + byteLength content))] ++
          tagClose "script".toList)
  -- blocks
  | ifBlock {start stop : Nat} {condition : Node} {children : List Node} {other : Option Node} :
      Written (ifNode start stop condition false children other)
        (opener '#' "if" ++ loose condition ++ [.word ['}']] ++ joined children ++
          joined other.toList ++ closer "if")
  | elseIf {start stop : Nat} {condition : Node} {children : List Node} {other : Option Node} :
      Written (ifNode start stop condition true children other)
        ([.word "if".toList] ++ loose condition ++ [.word ['}']] ++ joined children ++
          joined other.toList)
  | otherwise {start stop : Nat} {children : List Node} :
      Written (elseNode start stop children)
        (opener ':' "else" ++ [.blank, .word ['}']] ++ joined children)
  | otherwiseIf {start stop : Nat} {link : Node} :
      Written (elseNode start stop [link]) (opener ':' "else" ++ [.blank, .node link])
  | each {start stop : Nat} {list context : Node} {index key : List (String × Value)}
      {children : List Node} {other : Option Node} (hindex : ∀ f ∈ index, f.1 = "index")
      (hkey : ∀ f ∈ key, f.1 = "key") :
      Written
        (eachNode start stop list context index key children
          (other.toList.map fun e => ("else", .node e)))
        (opener '#' "each" ++ loose list ++ [.word "as".toList] ++ loose context ++
          indexPieces index ++ keyPieces key ++ [.word ['}']] ++ joined children ++
          joined other.toList ++ closer "each")
  | await {start stop : Nat} {e : Node} {sections : Sections} :
      Written (awaitNode start stop e sections)
        (awaitOpener sections ++ loose e ++ [.word ['}']] ++ awaitBody sections)
  | awaitThen {start stop : Nat} {e : Node} {sections : Sections}
      (hpending : sections.pending.flag "skip") :
      Written (awaitNode start stop e sections)
        (awaitOpener sections ++ loose e ++ [.word "then".toList] ++ boundPieces sections.value ++
          [.word ['}']] ++ awaitBody sections)
  | skippedSection {start : Nat} {s : Section} : Written (skippedNode s start) []
  | firstSection {start stop : Nat} {s : Section} {children : List Node} (hs : s ≠ .rejected) :
      Written (sectionNode s start stop children) (joined children)
  | thenSection {start stop : Nat} {value : Value} {children : List Node} :
      Written (sectionNode .fulfilled start stop children)
        (opener ':' "then" ++ boundPieces value ++ [.word ['}']] ++ joined children)
  | catchSection {start stop : Nat} {error : Value} {children : List Node} :
      Written (sectionNode .rejected start stop children)
        (opener ':' "catch" ++ boundPieces error ++ [.word ['}']] ++ joined children)

/-- The text of the node is what the node is written as. -/
def WrittenIn (source : List Char) (n : Node) : Prop :=
  ∃ c c' pieces, c.In source ∧ c.offset = n.start ∧ c'.offset = n.stop ∧ Written n pieces ∧
    Spelled c pieces c'

end SvelteSyntax.Markup
