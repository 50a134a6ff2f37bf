import Lox.Token

/-!
Expressions. Each use of a variable, of `this` and of `super` carries an identity, under which the
distance to its declaration is recorded.
-/

namespace Lox

/-- The identity of an expression that refers to a binding. -/
abbrev ExprId := Nat

inductive Constant
  | nil
  | bool (value : Bool)
  | number (value : Number)
  | string (value : String)
deriving DecidableEq

def Constant.text : Constant → String
  | nil => "nil"
  | bool true => "true"
  | bool false => "false"
  | number value => value.literal
  | string value => value

def Constant.ofLiteral : Literal → Constant
  | .number value => .number value
  | .string value => .string value

/-- Operators are kept as the tokens they were read from. -/
inductive Expr
  | literal (value : Constant)
  | grouping (inner : Expr)
  | unary (operator : Token) (operand : Expr)
  | binary (left : Expr) (operator : Token) (right : Expr)
  | logical (left : Expr) (operator : Token) (right : Expr)
  | comma (left : Expr) (operator : Token) (right : Expr)
  | conditional (condition thenBranch elseBranch : Expr)
  | var (id : ExprId) (name : Token)
  | assign (id : ExprId) (name : Token) (value : Expr)
  | call (callee : Expr) (paren : Token) (arguments : List Expr)
  | get (object : Expr) (name : Token)
  | set (object : Expr) (name : Token) (value : Expr)
  | this (id : ExprId) (keyword : Token)
  | super (id : ExprId) (keyword method : Token)

namespace Expr

mutual
/-- The tree as text in prefix form. -/
def text : Expr → String
  | literal value => value.text
  | grouping inner => "(group " ++ inner.text ++ ")"
  | unary operator operand => "(" ++ operator.lexeme ++ " " ++ operand.text ++ ")"
  | binary left operator right | logical left operator right | comma left operator right =>
      "(" ++ operator.lexeme ++ " " ++ left.text ++ " " ++ right.text ++ ")"
  | conditional condition thenBranch elseBranch =>
      "(?: " ++ condition.text ++ " " ++ thenBranch.text ++ " " ++ elseBranch.text ++ ")"
  | var _ name => name.lexeme
  | assign _ name value => "(= " ++ name.lexeme ++ " " ++ value.text ++ ")"
  | call callee _ arguments => "(call " ++ callee.text ++ texts arguments ++ ")"
  | get object name => "(. " ++ object.text ++ " " ++ name.lexeme ++ ")"
  | set object name value =>
      "(= (. " ++ object.text ++ " " ++ name.lexeme ++ ") " ++ value.text ++ ")"
  | this _ _ => "this"
  | super _ _ method => "(super " ++ method.lexeme ++ ")"

def texts : List Expr → String
  | [] => ""
  | first :: rest => " " ++ first.text ++ texts rest
end

end Expr

end Lox
