import SvelteSyntax.Text.CharClass
import SvelteSyntax.Text.Bytes

namespace SvelteSyntax.Markup.Balanced

open Text

/-- A construct that is open, and in code how many brackets are. -/
inductive Frame where
  | code (depth : Nat)
  | quoted (quote : Char)
  | template
  | lineComment
  | blockComment
  /-- The next character has no meaning. -/
  | skip
  deriving DecidableEq, Repr

/-- What is open after a character of code. -/
def stepCode (depth : Nat) (outer : List Frame) (c : Char) (next : Option Char) : List Frame :=
  match c with
  | '"' | '\'' => .quoted c :: .code depth :: outer
  | '`' => .template :: .code depth :: outer
  | '/' =>
    match next with
    | some '*' => .skip :: .blockComment :: .code depth :: outer
    | some '/' => .lineComment :: .code depth :: outer
    | _ => .code depth :: outer
  | '{' | '[' | '(' => .code (depth + 1) :: outer
  | '}' | ']' | ')' => .code (depth - 1) :: outer
  | _ => .code depth :: outer

/-- What is open after a character, the innermost construct first. -/
def step (frames : List Frame) (c : Char) (next : Option Char) : List Frame :=
  match frames with
  | [] => []
  | .skip :: outer => outer
  | .code depth :: outer =>
    if depth = 0 ∧ outer ≠ [] ∧ c = '}' then outer else stepCode depth outer c next
  | .quoted q :: outer =>
    if c = '\\' then .skip :: .quoted q :: outer else if c = q then outer else .quoted q :: outer
  | .template :: outer =>
    if c = '\\' then .skip :: .template :: outer
    else if c = '`' then outer
    else if c = '$' ∧ next = some '{' then .skip :: .code 0 :: .template :: outer
    else .template :: outer
  | .lineComment :: outer => if c = '\n' then outer else .lineComment :: outer
  | .blockComment :: outer =>
    if c = '*' ∧ next = some '/' then .skip :: outer else .blockComment :: outer

/-- When to stop, asked with the character before a place and the text from there on. -/
abbrev Stop := Option Char → List Char → Bool

def takeFrom (stop : Stop) : List Frame → Option Char → List Char → List Char
  | _, _, [] => []
  | frames, prev, c :: cs =>
    if frames = [.code 0] ∧ stop prev (c :: cs) then []
    else c :: takeFrom stop (step frames c cs.head?) (some c) cs

/-- The text up to the first place outside all brackets, strings, templates and comments where to
stop. -/
def takeUntil (stop : Stop) (prev : Option Char) (text : List Char) : List Char :=
  takeFrom stop [.code 0] prev text

/-- Stops at one of the characters. -/
def atAny (marks : List Char) : Stop := fun _ text => text.head?.any marks.contains

def atKeyword (word : List Char) : Stop := fun prev text =>
  startsWith word text &&
    prev.any (fun c => isMarkupBlank c || [')', ']', '}', '"', '\'', '`'].contains c) &&
    (text.drop word.length).head?.any fun c => isMarkupBlank c || ['{', '[', '}'].contains c

def atBraceOr (word : List Char) : Stop := fun prev text =>
  atAny ['}'] prev text || atKeyword word prev text

end SvelteSyntax.Markup.Balanced
