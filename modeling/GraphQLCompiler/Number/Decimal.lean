/-!
# Decimal numbers

A number literal has a sign, digits with a point somewhere among them, and an exponent. Its value
is an integer times a power of ten.

## Main definitions

* `Decimal.read?`: the value of a literal.
* `readInt?`: the value of a literal without a point and an exponent.
-/

namespace GraphQLCompiler

/-- The number `±coefficient · 10 ^ exponent`. -/
structure Decimal where
  negative : Bool
  coefficient : Nat
  exponent : Int
  deriving DecidableEq, Repr

namespace Decimal

/-- The number that a list of decimal digits writes. -/
def ofDigits (digits : List Char) : Nat :=
  digits.foldl (fun n c => 10 * n + (c.toNat - 48)) 0

/-- A minus sign in front of a text, and what follows. -/
def splitMinus : List Char → Bool × List Char
  | '-' :: rest => (true, rest)
  | cs => (false, cs)

/-- A sign in front of a text, and what follows. -/
def splitSign : List Char → Bool × List Char
  | '+' :: rest => (false, rest)
  | cs => splitMinus cs

/-- A nonempty list of digits. -/
def areDigits (cs : List Char) : Bool := !cs.isEmpty && cs.all Char.isDigit

/-- The exponent that a text writes with its letter in front, zero for the empty text. -/
def readExponent? : List Char → Option Int
  | [] => some 0
  | c :: rest =>
    let (negative, digits) := splitSign rest
    if (c = 'e' ∨ c = 'E') ∧ areDigits digits then
      some (if negative then -(ofDigits digits : Int) else ofDigits digits)
    else none

/-- The fraction digits that a text writes with the point in front, and what follows. -/
def splitFraction : List Char → List Char × List Char
  | '.' :: rest => rest.span Char.isDigit
  | cs => ([], cs)

/-- The value of a literal. -/
def read? (literal : String) : Option Decimal := do
  let (negative, unsigned) := splitMinus literal.toList
  let (whole, afterWhole) := unsigned.span Char.isDigit
  let (fraction, afterFraction) := splitFraction afterWhole
  guard (areDigits (whole ++ fraction))
  let exponent ← readExponent? afterFraction
  return {
    negative, coefficient := ofDigits (whole ++ fraction), exponent := exponent - fraction.length }

end Decimal

/-- The value of a literal of a sign and digits alone. -/
def readInt? (literal : String) : Option Int :=
  let (negative, digits) := Decimal.splitMinus literal.toList
  if Decimal.areDigits digits then
    some (if negative then -(Decimal.ofDigits digits : Int) else Decimal.ofDigits digits)
  else none

end GraphQLCompiler
