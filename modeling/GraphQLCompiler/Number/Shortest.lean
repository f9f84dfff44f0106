import GraphQLCompiler.Number.Binary64

/-!
# The shortest decimal of a floating point number

Of the decimals that read back as a number, the text of the number takes one with the fewest
digits, and of those the nearest. The decimals that read back are those between the midpoints to
the neighbours of the number, where a midpoint reads back as the neighbour with the even
significand.

On the grid of the multiples of a power of ten, if any decimal reads back, then one of the two
around the number does. So the first grid with such a one, from the widest on, has the answer.

## Main definitions

* `Binary64.shortest`: the digits and the exponent of ten of the shortest decimal.
* `Binary64.print`: the text of a number.
-/

namespace GraphQLCompiler

namespace Binary64

/-! ### Digits -/

/-- The numbers that read back as a number, in units of a quarter of its last place. -/
structure ReadBack where
  low : Nat
  value : Nat
  high : Nat
  closed : Bool

/-- The numbers that read back as a positive number. Below a power of two the neighbour is nearer
than above. -/
def readBack (x : Binary64) : ReadBack where
  low := if x.significand = twoPow 52 ∧ x.exponent > minExponent then 4 * x.significand - 1
    else 4 * x.significand - 2
  value := 4 * x.significand
  high := 4 * x.significand + 2
  closed := x.significand % 2 = 0

/-- Whether a multiple of a step reads back. -/
def ReadBack.contains (r : ReadBack) (scaled : Nat) (unit : Nat) : Bool :=
  if r.closed then r.low * unit ≤ scaled && scaled ≤ r.high * unit
  else r.low * unit < scaled && scaled < r.high * unit

/-- The multiple of a step that reads back, where the numbers count in a unit. -/
def ReadBack.multiple? (r : ReadBack) (unit step : Nat) : Option Nat :=
  let below := r.value * unit / step
  let above := below + 1
  match r.contains (below * step) unit, r.contains (above * step) unit with
  | false, false => none
  | true, false => some below
  | false, true => some above
  | true, true =>
    let down := r.value * unit - below * step
    let up := above * step - r.value * unit
    if down < up then some below
    else if up < down then some above
    else some (below + below % 2)

/-- Searches the grids from a power of ten downward. -/
def search (r : ReadBack) (binary : Int) : Nat → Int → Nat × Int
  | 0, _ => (0, 0)
  | n + 1, ten =>
    let unit := twoPow binary.toNat * tenPow (-ten).toNat
    let step := twoPow (-binary).toNat * tenPow ten.toNat
    match r.multiple? unit step with
    | some digits => (digits, ten)
    | none => search r binary n (ten - 1)

/-- A power of ten that is not below a positive number. -/
def tenAbove (x : Binary64) : Int :=
  ((x.significand.log2 : Int) + x.exponent + 1) * 30103 / 100000 + 1

/-- The shortest decimal of a positive number, as digits and an exponent of ten. -/
def shortest (x : Binary64) : Nat × Int := search x.readBack (x.exponent - 2) 25 x.tenAbove

/-! ### Text -/

/-- The least and the greatest count of digits before the point of a number that is written
without an exponent. A count below zero means zeros after the point. -/
def plainRange : Int × Int := (-4, 16)

/-- A given count of zeros. -/
def zeros (n : Int) : List Char := List.replicate n.toNat '0'

/-- Digits with the point after a count of them, and at least one digit on each side. -/
def printPlain (digits : List Char) (point : Int) : List Char :=
  if point ≤ 0 then '0' :: '.' :: (zeros (-point) ++ digits)
  else if point < digits.length then
    digits.take point.toNat ++ '.' :: digits.drop point.toNat
  else digits ++ zeros (point - digits.length) ++ ['.', '0']

/-- Digits with the point after the first, and an exponent with its sign. -/
def printScientific (digits : List Char) (exponent : Int) : List Char :=
  let fraction := if digits.length ≤ 1 then [] else '.' :: digits.drop 1
  let sign := if exponent < 0 then '-' else '+'
  digits.take 1 ++ fraction ++ 'e' :: sign :: Nat.toDigits 10 exponent.natAbs

/-- The text of the magnitude of a number. -/
def printMagnitude (x : Binary64) : List Char :=
  if x.significand = 0 then ['0', '.', '0']
  else
    let (coefficient, exponent) := x.shortest
    let digits := Nat.toDigits 10 coefficient
    let point := digits.length + exponent
    if plainRange.1 ≤ point ∧ point ≤ plainRange.2 then printPlain digits point
    else printScientific digits (point - 1)

/-- The text of a number. -/
def print (x : Binary64) : String :=
  String.ofList ((if x.negative then ['-'] else []) ++ x.printMagnitude)

end Binary64

end GraphQLCompiler
