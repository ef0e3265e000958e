namespace SvelteSyntax

/-- A 64-bit floating-point number, given by its bits. -/
structure Double where
  bits : UInt64
  deriving DecidableEq, Repr, Inhabited

namespace Double

def zero : Double := ⟨0⟩

def infinity : Double := ⟨0x7ff0000000000000⟩

def leadingBit : Nat := 0x10000000000000

def signBit : Nat := 0x8000000000000000

/-- The quotient rounded to the nearest natural number, a tie to the even one. -/
def roundDiv (num den : Nat) : Nat :=
  let quotient := num / den
  let rest := num % den
  if den < 2 * rest || (2 * rest == den && quotient % 2 == 1) then quotient + 1 else quotient

def significand (num den : Nat) (exponent : Int) : Nat :=
  if exponent < 0 then roundDiv (num * Nat.pow 2 (-exponent).toNat) den
  else roundDiv num (den * Nat.pow 2 exponent.toNat)

def ofParts (significand : Nat) (exponent : Int) : Double :=
  let (significand, exponent) :=
    if significand = 2 * leadingBit then (leadingBit, exponent + 1) else (significand, exponent)
  if significand < leadingBit then ⟨significand.toUInt64⟩
  else if 971 < exponent then infinity
  else ⟨((exponent + 1075).toNat * leadingBit + (significand - leadingBit)).toUInt64⟩

def ofRatio (num den : Nat) : Double :=
  if num = 0 ∨ den = 0 then zero
  else
    let guess : Int := (num.log2 : Int) - (den.log2 : Int) - 53
    let exponent := if significand num den guess < 2 * leadingBit then guess else guess + 1
    let exponent := max exponent (-1074)
    ofParts (significand num den exponent) exponent

def ofNat (n : Nat) : Double := ofRatio n 1

def ofDecimal (digits : Nat) (exponent : Int) : Double :=
  let size : Int := (Nat.toDigits 10 digits).length + exponent
  if digits = 0 ∨ size < -400 then zero
  else if 400 < size then infinity
  else if exponent < 0 then ofRatio digits (Nat.pow 10 (-exponent).toNat)
  else ofNat (digits * Nat.pow 10 exponent.toNat)

/-- The number with the other sign. -/
def neg (d : Double) : Double := ⟨d.bits ^^^ 0x8000000000000000⟩

/-- The value of an integral double below `2 ^ 53`. -/
def toInt? (d : Double) : Option Int :=
  let bits := d.bits.toNat
  let negative := signBit ≤ bits
  let exponent := bits / leadingBit % 2048
  let fraction := bits % leadingBit
  let signed (n : Nat) : Int := if negative then -(n : Int) else n
  if exponent = 0 ∧ fraction = 0 then some 0
  else if exponent < 1023 ∨ 1075 < exponent then none
  else
    let scale := Nat.pow 2 (1075 - exponent)
    let whole := leadingBit + fraction
    if whole % scale = 0 then some (signed (whole / scale)) else none

/-- Neither infinite nor "not a number". -/
def isFinite (d : Double) : Bool := d.bits.toNat / leadingBit % 2048 != 2047

end Double

end SvelteSyntax
