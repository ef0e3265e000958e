import SvelteSyntax.Error
import SvelteSyntax.Tree.Node
import SvelteSyntax.Tree.Token

namespace SvelteSyntax.Program

/-- Something with a place in the source. -/
class Spanned (α : Type) where
  start : α → Nat
  stop : α → Nat

instance : Spanned Node := ⟨Node.start, Node.stop⟩
instance : Spanned Token := ⟨Token.start, Token.stop⟩
instance : Spanned Comment := ⟨Comment.start, Comment.stop⟩

variable {α : Type} [Spanned α]

def spanLe (a b : α) : Bool :=
  Spanned.start a < Spanned.start b ||
    (Spanned.start a == Spanned.start b && Spanned.stop a ≤ Spanned.stop b)

/-- Refuses a list in which something starts before the one in front of it ends. -/
def checkDisjoint (what : String) : List α → Except Fault Unit
  | a :: b :: rest =>
    if Spanned.stop a > Spanned.start b then
      .error (.overlap what (Spanned.start b) (Spanned.stop a))
    else checkDisjoint what (b :: rest)
  | _ => .ok ()

/-- The things in the order of their places, if they are disjoint. -/
def sortDisjoint (what : String) (items : List α) : Except Fault (List α) := do
  let sorted := items.mergeSort spanLe
  checkDisjoint what sorted
  return sorted

end SvelteSyntax.Program
