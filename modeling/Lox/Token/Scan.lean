import Lox.Token

/-!
Scanning. The source is cut into pieces from the front: a gap, a token, or a fault. Each piece takes
at least one character, and the line reported for it counts every newline up to its end.
-/

namespace Lox

inductive LexicalFault
  | unexpectedCharacter (character : Char)
  | unterminatedString
  | unterminatedComment
  | worded (message : String)
deriving DecidableEq

def LexicalFault.message : LexicalFault → String
  | unexpectedCharacter character => "Unexpected character: " ++ character.toString
  | unterminatedString => "Unterminated string."
  | unterminatedComment => "Unterminated block comment."
  | worded message => message

structure LexicalError where
  line : Nat
  fault : LexicalFault
deriving DecidableEq

/-- What stands at the front of a source. -/
inductive Piece
  | gap
  | token (kind : TokenKind) (literal : Option Literal)
  | fault (fault : LexicalFault)
deriving DecidableEq

namespace Piece

def startsWord (character : Char) : Bool := character.isAlpha || character = '_'

def continuesWord (character : Char) : Bool := character.isAlphanum || character = '_'

def commentLength? : List Char → Option Nat
  | '*' :: '/' :: _ => some 2
  | _ :: rest => (commentLength? rest).map (· + 1)
  | [] => none

/-- The digits of a fraction: a point counts only before a digit. -/
def fractionDigits : List Char → List Char
  | '.' :: digit :: rest =>
      if digit.isDigit then digit :: rest.takeWhile Char.isDigit else []
  | _ => []

def operator (second : Char) (long short : TokenKind) (rest : List Char) : Piece × Nat :=
  if rest.head? = some second then (.token long none, 1) else (.token short none, 0)

def slash : List Char → Piece × Nat
  | '/' :: comment => (.gap, 1 + (comment.takeWhile (· ≠ '\n')).length)
  | '*' :: comment =>
      match commentLength? comment with
      | some length => (.gap, 1 + length)
      | none => (.fault .unterminatedComment, 1 + comment.length)
  | _ => (.token .slash none, 0)

/-- The characters up to the next quote; there is no escape. -/
def string (rest : List Char) : Piece × Nat :=
  let body := rest.takeWhile (· ≠ '"')
  if body.length < rest.length then
    (.token .string (some (.string (String.ofList body))), body.length + 1)
  else (.fault .unterminatedString, rest.length)

def number (first : Char) (rest : List Char) : Piece × Nat :=
  let whole := rest.takeWhile Char.isDigit
  let fraction := fractionDigits (rest.drop whole.length)
  let value := Number.ofDecimal (Nat.ofDigitChars 10 (first :: whole ++ fraction) 0) fraction.length
  let length := whole.length + if fraction.isEmpty then 0 else fraction.length + 1
  (.token .number (some (.number value)), length)

def word (first : Char) (rest : List Char) : Piece × Nat :=
  let others := rest.takeWhile continuesWord
  (.token (.ofWord (String.ofList (first :: others))) none, others.length)

/-- The piece that begins with `first`, and how many of the characters after it belong to it. -/
def atFront (first : Char) (rest : List Char) : Piece × Nat :=
  match first with
  | '(' => (.token .leftParen none, 0)
  | ')' => (.token .rightParen none, 0)
  | '\x7b' => (.token .leftBrace none, 0)
  | '\x7d' => (.token .rightBrace none, 0)
  | ',' => (.token .comma none, 0)
  | '.' => (.token .dot none, 0)
  | '-' => (.token .minus none, 0)
  | '+' => (.token .plus none, 0)
  | ';' => (.token .semicolon none, 0)
  | '*' => (.token .star none, 0)
  | '?' => (.token .question none, 0)
  | ':' => (.token .colon none, 0)
  | '!' => operator '=' .bangEqual .bang rest
  | '=' => operator '=' .equalEqual .equal rest
  | '<' => operator '=' .lessEqual .less rest
  | '>' => operator '=' .greaterEqual .greater rest
  | ' ' | '\r' | '\t' | '\n' => (.gap, 0)
  | '/' => slash rest
  | '"' => string rest
  | other =>
      if other.isDigit then number other rest
      else if startsWord other then word other rest
      else (.fault (.unexpectedCharacter other), 0)

end Piece

namespace Token

/-- The tokens and faults of a source whose first character stands on `line`, in order; the ending is
the last of them. -/
def scanFrom (line : Nat) : List Char → List (Except LexicalError Token)
  | [] => [.ok (ending line)]
  | first :: rest =>
      let (piece, length) := Piece.atFront first rest
      let text := first :: rest.take length
      let line := line + text.count '\n'
      let others := scanFrom line (rest.drop length)
      match piece with
      | .gap => others
      | .token kind literal => .ok ⟨kind, String.ofList text, literal, line⟩ :: others
      | .fault fault => .error ⟨line, fault⟩ :: others
termination_by source => source.length
decreasing_by simp only [List.length_drop, List.length_cons]; omega

def scan (source : String) : List (Except LexicalError Token) := scanFrom 1 source.toList

def split (items : List (Except LexicalError Token)) : List Token × List LexicalError :=
  (items.filterMap fun
    | .ok token => some token
    | .error _ => none,
   items.filterMap fun
    | .ok _ => none
    | .error error => some error)

end Token

end Lox
