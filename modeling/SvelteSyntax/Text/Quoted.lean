import SvelteSyntax.Text.CharClass

namespace SvelteSyntax.Text.Quoted

/-- The shortest lower-case hexadecimal digits of the code point, in braces. -/
def codePoint (c : Char) : String :=
  "\\u\x7b" ++ String.ofList (Nat.toDigits 16 c.toNat) ++ "\x7d"

def escape (c : Char) : String :=
  match c with
  | '\x00' => "\\0"
  | '\t' => "\\t"
  | '\r' => "\\r"
  | '\n' => "\\n"
  | '\\' => "\\\\"
  | '"' => "\\\""
  | c => if isGraphemeExtend c || !isPrintable c then codePoint c else c.toString

def encode (cs : List Char) : String :=
  "\"" ++ String.join (cs.map escape) ++ "\""

end SvelteSyntax.Text.Quoted
