/-!
Texts between double quotes. The two forms differ in which characters are escaped and how: one is a
JSON string, the other shows a file name in a message.
-/

namespace Lox.Quoted

def hexadecimal (width value : Nat) : List Char :=
  let digits := Nat.toDigits 16 value
  List.replicate (width - digits.length) '0' ++ digits

/-- A JSON string escapes quotes, backslashes and the control characters below the space. -/
def jsonEscape (character : Char) : List Char :=
  match character with
  | '"' => ['\\', '"']
  | '\\' => ['\\', '\\']
  | '\n' => ['\\', 'n']
  | '\r' => ['\\', 'r']
  | '\t' => ['\\', 't']
  | '\x08' => ['\\', 'b']
  | '\x0c' => ['\\', 'f']
  | other => if other < ' ' then '\\' :: 'u' :: hexadecimal 4 other.toNat else [other]

/-- A file name escapes quotes, backslashes and every control character. -/
def nameEscape (character : Char) : List Char :=
  match character with
  | '"' => ['\\', '"']
  | '\\' => ['\\', '\\']
  | '\n' => ['\\', 'n']
  | '\r' => ['\\', 'r']
  | '\t' => ['\\', 't']
  | '\x00' => ['\\', '0']
  | other =>
      if other < ' ' ∨ ('\x7f' ≤ other ∧ other < '\u00a0') then
        '\\' :: 'u' :: '\x7b' :: hexadecimal 1 other.toNat ++ ['\x7d']
      else [other]

def quote (escape : Char → List Char) (text : String) : String :=
  String.ofList ('"' :: text.toList.flatMap escape ++ ['"'])

def json (text : String) : String := quote jsonEscape text

def name (text : String) : String := quote nameEscape text

end Lox.Quoted
