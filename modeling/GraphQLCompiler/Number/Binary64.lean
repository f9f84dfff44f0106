import GraphQLCompiler.Number.Decimal

/-!
# Floating point numbers

The finite numbers of the 64-bit binary format: a sign, a significand of at most 53 bits and an
exponent of two. All arithmetic on them is exact arithmetic on integers.

## Main definitions

* `divRound`: a quotient rounded to the nearest integer, a half to the even neighbour.
* `Binary64.ofDecimal?`: the nearest number to a decimal number, unless that is too large.
-/

namespace GraphQLCompiler

/-- The nearest integer to a quotient. A half goes to the even neighbour. -/
def divRound (num den : Nat) : Nat :=
  let q := num / den
  let r := num % den
  if 2 * r < den then q
  else if den < 2 * r then q + 1
  else q + q % 2

/-- A power of two. -/
def twoPow (n : Nat) : Nat := Nat.pow 2 n

/-- A power of ten. -/
def tenPow (n : Nat) : Nat := Nat.pow 10 n

/-- The number `±significand · 2 ^ exponent`. -/
structure Binary64 where
  negative : Bool
  significand : Nat
  exponent : Int
  deriving DecidableEq, Repr

namespace Binary64

/-- The least exponent. -/
def minExponent : Int := -1074

/-- The greatest exponent. -/
def maxExponent : Int := 971

/-- The zero of a sign. -/
def zero (negative : Bool) : Binary64 := { negative, significand := 0, exponent := minExponent }

/-- The exponent of two at which a positive quotient has an integer part of 53 bits. -/
def exponentFor (num den : Nat) : Int :=
  let guess := (num.log2 : Int) - den.log2
  let reached := num * twoPow (-guess).toNat ≥ den * twoPow guess.toNat
  if reached then guess - 52 else guess - 53

/-- The nearest number to a positive quotient, `none` if that is too large. -/
def ofQuotient? (negative : Bool) (num den : Nat) : Option Binary64 :=
  let e := max (exponentFor num den) minExponent
  let m := divRound (num * twoPow (-e).toNat) (den * twoPow e.toNat)
  let (m, e) := if m = twoPow 53 then (twoPow 52, e + 1) else (m, e)
  if e > maxExponent then none else some { negative, significand := m, exponent := e }

/-- Decimal magnitudes beyond which a number is too large, or too small to differ from zero. -/
def magnitudeLimit : Int := 400

/-- The nearest number to a decimal number, `none` if that is too large. -/
def ofDecimal? (d : Decimal) : Option Binary64 :=
  let magnitude := ((Nat.toDigits 10 d.coefficient).length : Int) + d.exponent
  if d.coefficient = 0 ∨ magnitude < -magnitudeLimit then some (zero d.negative)
  else if magnitude > magnitudeLimit then none
  else ofQuotient? d.negative (d.coefficient * tenPow d.exponent.toNat)
    (tenPow (-d.exponent).toNat)

end Binary64

end GraphQLCompiler
