import Lox.Number.Text
import Lox.Text.Quoted

/-!
Tokens: a kind, the text it was read from, the value of a literal, and the line on which it ends.
-/

namespace Lox

inductive TokenKind
  | leftParen
  | rightParen
  | leftBrace
  | rightBrace
  | comma
  | dot
  | minus
  | plus
  | semicolon
  | slash
  | star
  | question
  | colon
  | bang
  | bangEqual
  | equal
  | equalEqual
  | greater
  | greaterEqual
  | less
  | lessEqual
  | identifier
  | string
  | number
  | andWord
  | classWord
  | elseWord
  | falseWord
  | funWord
  | forWord
  | ifWord
  | nilWord
  | orWord
  | printWord
  | returnWord
  | superWord
  | thisWord
  | trueWord
  | varWord
  | whileWord
  | eof
deriving DecidableEq

namespace TokenKind

def name : TokenKind → String
  | leftParen => "LEFT_PAREN"
  | rightParen => "RIGHT_PAREN"
  | leftBrace => "LEFT_BRACE"
  | rightBrace => "RIGHT_BRACE"
  | comma => "COMMA"
  | dot => "DOT"
  | minus => "MINUS"
  | plus => "PLUS"
  | semicolon => "SEMICOLON"
  | slash => "SLASH"
  | star => "STAR"
  | question => "QUESTION"
  | colon => "COLON"
  | bang => "BANG"
  | bangEqual => "BANG_EQUAL"
  | equal => "EQUAL"
  | equalEqual => "EQUAL_EQUAL"
  | greater => "GREATER"
  | greaterEqual => "GREATER_EQUAL"
  | less => "LESS"
  | lessEqual => "LESS_EQUAL"
  | identifier => "IDENTIFIER"
  | string => "STRING"
  | number => "NUMBER"
  | andWord => "AND"
  | classWord => "CLASS"
  | elseWord => "ELSE"
  | falseWord => "FALSE"
  | funWord => "FUN"
  | forWord => "FOR"
  | ifWord => "IF"
  | nilWord => "NIL"
  | orWord => "OR"
  | printWord => "PRINT"
  | returnWord => "RETURN"
  | superWord => "SUPER"
  | thisWord => "THIS"
  | trueWord => "TRUE"
  | varWord => "VAR"
  | whileWord => "WHILE"
  | eof => "EOF"

def all : List TokenKind :=
  [leftParen, rightParen, leftBrace, rightBrace, comma, dot, minus, plus, semicolon, slash, star,
    question, colon, bang, bangEqual, equal, equalEqual, greater, greaterEqual, less, lessEqual,
    identifier, string, number, andWord, classWord, elseWord, falseWord, funWord, forWord, ifWord,
    nilWord, orWord, printWord, returnWord, superWord, thisWord, trueWord, varWord, whileWord, eof]

def ofName? (name : String) : Option TokenKind := all.find? (·.name = name)

def ofWord : String → TokenKind
  | "and" => andWord
  | "class" => classWord
  | "else" => elseWord
  | "false" => falseWord
  | "fun" => funWord
  | "for" => forWord
  | "if" => ifWord
  | "nil" => nilWord
  | "or" => orWord
  | "print" => printWord
  | "return" => returnWord
  | "super" => superWord
  | "this" => thisWord
  | "true" => trueWord
  | "var" => varWord
  | "while" => whileWord
  | _ => identifier

end TokenKind

inductive Literal
  | number (value : Number)
  | string (value : String)
deriving DecidableEq

namespace Literal

def text : Literal → String
  | number value => value.literal
  | string value => value

def json : Literal → String
  | number value => value.compact
  | string value => Quoted.json value

end Literal

structure Token where
  kind : TokenKind
  lexeme : String
  literal : Option Literal
  line : Nat
deriving DecidableEq

namespace Token

def ending (line : Nat) : Token := ⟨.eof, "", none, line⟩

def isEnding (token : Token) : Bool := token.kind = .eof

/-- Kind, lexeme and literal, with `null` for no literal. -/
def text (token : Token) : String :=
  token.kind.name ++ " " ++ token.lexeme ++ " " ++ (token.literal.map Literal.text).getD "null"

def json (token : Token) : String :=
  "\x7b\"type\":" ++ Quoted.json token.kind.name ++ ",\"lexeme\":" ++ Quoted.json token.lexeme ++
    ",\"literal\":" ++ (token.literal.map Literal.json).getD "null" ++ ",\"line\":" ++
    toString token.line ++ "\x7d"

end Token

end Lox
