namespace SvelteSyntax

/-- A place in a text, from its first byte to the one after its last. -/
structure Span where
  start : Nat
  stop : Nat
  deriving DecidableEq, Repr, Inhabited

end SvelteSyntax
