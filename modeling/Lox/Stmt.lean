import Lox.Expr

/-!
Statements and function declarations. A declaration has an identity of its own, so that two equal
texts stay two declarations.
-/

namespace Lox

abbrev DeclId := Nat

mutual
structure FunctionDecl where
  id : DeclId
  name : Token
  params : List Token
  body : List Stmt

inductive Stmt
  | expression (value : Expr)
  | print (keyword : Token) (value : Expr)
  | varDecl (name : Token) (initializer : Option Expr)
  | block (body : List Stmt)
  | ifThen (condition : Expr) (thenBranch : Stmt)
  | ifElse (condition : Expr) (thenBranch elseBranch : Stmt)
  | whileLoop (condition : Expr) (body : Stmt)
  | functionDecl (decl : FunctionDecl)
  | returnStmt (keyword : Token) (value : Option Expr)
  | classDecl (name : Token) (superclass : Option Expr) (methods : List FunctionDecl)
end

mutual
/-- The tree as text in prefix form. -/
def Stmt.text : Stmt → String
  | .expression value => "(; " ++ value.text ++ ")"
  | .print _ value => "(print " ++ value.text ++ ")"
  | .varDecl name initializer => "(var " ++ name.lexeme ++ Expr.texts initializer.toList ++ ")"
  | .block body => "(block" ++ Stmt.texts body ++ ")"
  | .ifThen condition thenBranch => "(if " ++ condition.text ++ " " ++ thenBranch.text ++ ")"
  | .ifElse condition thenBranch elseBranch =>
      "(if-else " ++ condition.text ++ " " ++ thenBranch.text ++ " " ++ elseBranch.text ++ ")"
  | .whileLoop condition body => "(while " ++ condition.text ++ " " ++ body.text ++ ")"
  | .functionDecl decl => "(fun " ++ decl.text
  | .returnStmt _ value => "(return" ++ Expr.texts value.toList ++ ")"
  | .classDecl name superclass methods =>
      "(class " ++ name.lexeme ++
        (match superclass with
          | some parent => " < " ++ parent.text
          | none => "") ++
        FunctionDecl.methodTexts methods ++ ")"

def Stmt.texts : List Stmt → String
  | [] => ""
  | first :: rest => " " ++ first.text ++ Stmt.texts rest

def FunctionDecl.text : FunctionDecl → String
  | ⟨_, name, params, body⟩ =>
      name.lexeme ++ "(" ++ " ".intercalate (params.map Token.lexeme) ++ ")" ++ Stmt.texts body ++ ")"

def FunctionDecl.methodTexts : List FunctionDecl → String
  | [] => ""
  | first :: rest => " (method " ++ first.text ++ FunctionDecl.methodTexts rest
end

end Lox
