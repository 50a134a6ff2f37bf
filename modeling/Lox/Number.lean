/-!
Lox numbers. A number is a double-precision value held as its bit pattern, so that equal texts
and equal bits can be compared without going through floating-point equality. A finite number has
the magnitude `significand * 2 ^ exponent`.
-/

namespace Lox

structure Number where
  bits : UInt64
deriving DecidableEq

namespace Number

def ofFloat (x : Float) : Number := ⟨x.toBits⟩

def toFloat (number : Number) : Float := Float.ofBits number.bits

def zero : Number := ⟨0⟩

def infinityBits : Nat := 2047 * Nat.pow 2 52

/-- The sign bit; it is set for negative zero too. -/
def isNegative (number : Number) : Bool := Nat.pow 2 63 ≤ number.bits.toNat

def exponentField (number : Number) : Nat := number.bits.toNat / Nat.pow 2 52 % Nat.pow 2 11

def fractionField (number : Number) : Nat := number.bits.toNat % Nat.pow 2 52

def isFinite (number : Number) : Bool := number.exponentField < 2047

def isNaN (number : Number) : Bool := number.exponentField = 2047 && number.fractionField ≠ 0

def significand (number : Number) : Nat :=
  if number.exponentField = 0 then number.fractionField else Nat.pow 2 52 + number.fractionField

def exponent (number : Number) : Int := (max number.exponentField 1 : Nat) - 1075

def whole? (number : Number) : Option Nat :=
  if number.isFinite then
    match number.exponent with
    | .ofNat power => some (number.significand * Nat.pow 2 power)
    | .negSucc power =>
        if number.significand % Nat.pow 2 (power + 1) = 0 then
          some (number.significand / Nat.pow 2 (power + 1))
        else none
  else none

def negate (number : Number) : Number := ⟨number.bits ^^^ 0x8000000000000000⟩

def add (left right : Number) : Number := ofFloat (left.toFloat + right.toFloat)

def subtract (left right : Number) : Number := ofFloat (left.toFloat - right.toFloat)

def multiply (left right : Number) : Number := ofFloat (left.toFloat * right.toFloat)

def divide (left right : Number) : Number := ofFloat (left.toFloat / right.toFloat)

def less (left right : Number) : Bool := left.toFloat < right.toFloat

def lessOrEqual (left right : Number) : Bool := left.toFloat ≤ right.toFloat

/-- Numeric equality: the two zeros are equal and a NaN equals nothing. -/
def equals (left right : Number) : Bool := left.toFloat == right.toFloat

end Number

end Lox
