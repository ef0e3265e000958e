import SvelteSyntax.Text.Position

namespace SvelteSyntax

open Text

inductive TokenKind where
  | punctuator
  | keyword
  | identifier
  | privateIdentifier
  | string
  | numeric
  | boolean
  | null
  | template
  | regularExpression
  | text
  deriving DecidableEq, Repr, Inhabited

def TokenKind.name : TokenKind → String
  | .punctuator => "Punctuator"
  | .keyword => "Keyword"
  | .identifier => "Identifier"
  | .privateIdentifier => "PrivateIdentifier"
  | .string => "String"
  | .numeric => "Numeric"
  | .boolean => "Boolean"
  | .null => "Null"
  | .template => "Template"
  | .regularExpression => "RegularExpression"
  | .text => "Text"

structure Token where
  kind : TokenKind
  value : String
  start : Nat
  stop : Nat
  loc : Option Location := none
  deriving DecidableEq, Repr, Inhabited

inductive CommentKind where
  | line
  | block
  deriving DecidableEq, Repr, Inhabited

def CommentKind.name : CommentKind → String
  | .line => "Line"
  | .block => "Block"

structure Comment where
  kind : CommentKind
  value : String
  start : Nat
  stop : Nat
  loc : Option Location := none
  deriving DecidableEq, Repr, Inhabited

/-- The two streams of a text. -/
structure Streams where
  tokens : List Token := []
  comments : List Comment := []
  deriving DecidableEq, Repr, Inhabited

def Streams.append (a b : Streams) : Streams :=
  ⟨a.tokens ++ b.tokens, a.comments ++ b.comments⟩

instance : Append Streams := ⟨Streams.append⟩

end SvelteSyntax
