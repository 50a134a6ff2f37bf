import Lox.Number

/-!
Reading decimals. The number nearest to a quotient of naturals is found in exact arithmetic; a
quotient half-way between two numbers goes to the one with the even significand, and one past the
largest number becomes infinity.
-/

namespace Lox.Number

/-- The natural nearest to `numerator / denominator`, a half going to the even one. -/
def roundQuotient (numerator denominator : Nat) : Nat :=
  let quotient := numerator / denominator
  let remainder := numerator % denominator
  if 2 * remainder < denominator then quotient
  else if denominator < 2 * remainder then quotient + 1
  else quotient + quotient % 2

/-- The power `base ^ exponent`, or 1 for a negative exponent: a factor of a numerator whose
counterpart `raise base (-exponent)` goes to the denominator. -/
def raise (base : Nat) (exponent : Int) : Nat := Nat.pow base exponent.toNat

def binaryOrder (numerator denominator : Nat) : Int :=
  let guess : Int := (numerator.log2 : Int) - denominator.log2
  if denominator * raise 2 guess ≤ numerator * raise 2 (-guess) then guess else guess - 1

/-- The number nearest to `numerator / denominator`. -/
def nearest (numerator denominator : Nat) : Number :=
  if numerator = 0 then zero
  else
    let unit : Int := max (binaryOrder numerator denominator - 52) (-1074)
    let steps := roundQuotient (numerator * raise 2 (-unit)) (denominator * raise 2 unit)
    let pattern := (unit + 1074).toNat * Nat.pow 2 52 + steps
    ⟨UInt64.ofNat (min pattern infinityBits)⟩

def ofDecimal (digits places : Nat) : Number := nearest digits (Nat.pow 10 places)

end Lox.Number
