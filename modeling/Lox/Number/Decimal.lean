import Lox.Number.Nearest

/-!
The shortest decimal of a number: the fewest digits that read back as the same number, and among
those the nearest to it. A number is read back from every point of the interval between the
midpoints to its two neighbours, the ends included when its significand is even. On the grid of
decimals with a given count of digits the interval holds a point if and only if it holds one of the
two grid points around the number.
-/

namespace Lox

/-- The value `digits * 10 ^ exponent`. -/
structure Decimal where
  digits : Nat
  exponent : Int
deriving DecidableEq

namespace Decimal

def normalize (decimal : Decimal) : Decimal :=
  if decimal.digits ≠ 0 ∧ decimal.digits % 10 = 0 then
    normalize ⟨decimal.digits / 10, decimal.exponent + 1⟩
  else decimal
termination_by decimal.digits
decreasing_by omega

/-- Where a value half-way between two grid points goes. -/
inductive Tie
  | upper
  | even
deriving DecidableEq

end Decimal

namespace Number

/-- The distance from a finite number down to the midpoint below it, in quarters of its unit. The
neighbour below a power of two is only half a unit away. -/
def lowerMargin (number : Number) : Nat :=
  if number.fractionField = 0 ∧ 1 < number.exponentField then 1 else 2

def readsBack (number : Number) (decimal : Decimal) : Bool :=
  let unit := number.exponent - 2
  let position := decimal.digits * raise 10 decimal.exponent * raise 2 (-unit)
  let scale := raise 2 unit * raise 10 (-decimal.exponent)
  let lower := (4 * number.significand - number.lowerMargin) * scale
  let upper := (4 * number.significand + 2) * scale
  if number.significand % 2 = 0 then lower ≤ position && position ≤ upper
  else lower < position && position < upper

def gridFloor (number : Number) (exponent : Int) : Nat :=
  number.significand * raise 2 number.exponent * raise 10 (-exponent) /
    (raise 10 exponent * raise 2 (-number.exponent))

/-- Whether the number is nearer to the grid point with this index than to the next; `none` when it
stands half-way. -/
def nearerBelow? (number : Number) (index : Nat) (exponent : Int) : Option Bool :=
  let doubled := 2 * number.significand * raise 2 number.exponent * raise 10 (-exponent)
  let middle := (2 * index + 1) * raise 10 exponent * raise 2 (-number.exponent)
  if doubled = middle then none else some (doubled < middle)

/-- How many digits the magnitude has before the point; negative for zeros after it. The smallest
positive number exceeds `10 ^ (-324)`, so a scale of `10 ^ 340` keeps its leading digit. -/
def decimalOrder (number : Number) : Int :=
  ((Nat.toDigits 10 (number.gridFloor (-340))).length : Int) - 340

def onGrid? (tie : Decimal.Tie) (number : Number) (exponent : Int) : Option Decimal :=
  let index := number.gridFloor exponent
  let below : Decimal := ⟨index, exponent⟩
  let above : Decimal := ⟨index + 1, exponent⟩
  match number.readsBack below, number.readsBack above with
  | false, false => none
  | true, false => some below
  | false, true => some above
  | true, true =>
      match number.nearerBelow? index exponent with
      | some true => some below
      | some false => some above
      | none =>
          match tie with
          | .upper => some above
          | .even => some (if index % 2 = 0 then below else above)

/-- The shortest decimal of the magnitude of a finite number other than zero; seventeen digits always
suffice. -/
def shortest (tie : Decimal.Tie) (number : Number) : Decimal :=
  let order := number.decimalOrder
  let found := (List.range 17).findSome? fun count : Nat =>
    number.onGrid? tie (order - (count + 1 : Nat))
  (found.getD ⟨number.gridFloor (order - 17), order - 17⟩).normalize

end Number

end Lox
