import Lox.Number.Decimal

/-!
Texts of numbers. A running program shows whole numbers below `10 ^ 15` as integers and any other
number by its shortest decimal; a literal in a token or tree keeps all digits of a whole number and a
`.0`; the compact form writes a power of ten where plain digits would be long.
-/

namespace Lox

namespace Decimal

def digitText (decimal : Decimal) : List Char := Nat.toDigits 10 decimal.digits

def pointPosition (decimal : Decimal) : Int := decimal.digitText.length + decimal.exponent

/-- All digits written out, with zeros up to or from the point and no power of ten. -/
def positional (decimal : Decimal) : List Char :=
  let digits := decimal.digitText
  match decimal.exponent with
  | .ofNat zeros => digits ++ List.replicate zeros '0'
  | .negSucc _ =>
      match decimal.pointPosition with
      | .ofNat (point + 1) => digits.take (point + 1) ++ '.' :: digits.drop (point + 1)
      | outside => '0' :: '.' :: List.replicate outside.natAbs '0' ++ digits

def scientific (decimal : Decimal) : List Char :=
  let power := decimal.pointPosition - 1
  let sign := if power < 0 then '-' else '+'
  let fraction := decimal.digitText.drop 1
  decimal.digitText.take 1 ++ (if fraction.isEmpty then [] else '.' :: fraction) ++
    'e' :: sign :: Nat.toDigits 10 power.natAbs

end Decimal

namespace Number

def signText (number : Number) : List Char := if number.isNegative then ['-'] else []

def shortestText (number : Number) : List Char :=
  if number.isNaN then "NaN".toList
  else if ¬ number.isFinite then number.signText ++ "inf".toList
  else if number.significand = 0 then number.signText ++ ['0']
  else number.signText ++ (number.shortest .upper).positional

def isShortWhole (magnitude : Nat) : Bool := magnitude < Nat.pow 10 15

def displayText (number : Number) : List Char :=
  match number.whole? with
  | some magnitude =>
      if isShortWhole magnitude then number.signText ++ Nat.toDigits 10 magnitude
      else number.shortestText
  | none => number.shortestText

def literalText (number : Number) : List Char :=
  match number.whole? with
  | some magnitude => number.signText ++ Nat.toDigits 10 magnitude ++ ['.', '0']
  | none => number.shortestText

/-- The text in a compact JSON object: plain while the point is near the digits. -/
def compactText (number : Number) : List Char :=
  if ¬ number.isFinite then "null".toList
  else if number.significand = 0 then number.signText ++ "0.0".toList
  else
    let decimal := number.shortest .even
    let point := decimal.pointPosition
    number.signText ++
      if -5 < point ∧ point ≤ 16 then
        decimal.positional ++ (if 0 ≤ decimal.exponent then ['.', '0'] else [])
      else decimal.scientific

def display (number : Number) : String := String.ofList number.displayText

def literal (number : Number) : String := String.ofList number.literalText

def compact (number : Number) : String := String.ofList number.compactText

end Number

end Lox
