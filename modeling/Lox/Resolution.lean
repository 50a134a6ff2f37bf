import Lox.Stmt

/-!
Static scoping. Each use of a name inside local scopes is given its depth, the number of scopes
between it and the innermost one that declares the name so far; names that no local scope declares
are global and get none. Programs that break a scoping rule are reported.
-/

namespace Lox

inductive ScopeFault
  | alreadyDeclared
  | ownInitializer
  | inheritsItself
  | returnAtTopLevel
  | valueFromInitializer
  | thisOutsideClass
  | superOutsideClass
  | superWithoutSuperclass
deriving DecidableEq

def ScopeFault.message : ScopeFault → String
  | alreadyDeclared => "Already a variable with this name in this scope."
  | ownInitializer => "Can't read local variable in its own initializer."
  | inheritsItself => "A class can't inherit from itself."
  | returnAtTopLevel => "Can't return from top-level code."
  | valueFromInitializer => "Can't return a value from an initializer."
  | thisOutsideClass => "Can't use 'this' outside of a class."
  | superOutsideClass => "Can't use 'super' outside of a class."
  | superWithoutSuperclass => "Can't use 'super' in a class with no superclass."

structure ScopeError where
  token : Token
  fault : ScopeFault
deriving DecidableEq

abbrev Scope := List String

inductive FunctionContext
  | topLevel
  | function
  | method
  | initializer
deriving DecidableEq

inductive ClassContext
  | outside
  | plain
  | subclass
deriving DecidableEq

structure Surroundings where
  function : FunctionContext
  enclosingClass : ClassContext

def Surroundings.topLevel : Surroundings := ⟨.topLevel, .outside⟩

/-- The depths and faults found in a part of a program, in order. -/
structure Resolution where
  depths : List (ExprId × Nat)
  errors : List ScopeError

namespace Resolution

def none : Resolution := ⟨[], []⟩

def error (token : Token) (fault : ScopeFault) : Resolution := ⟨[], [⟨token, fault⟩]⟩

def append (first second : Resolution) : Resolution :=
  ⟨first.depths ++ second.depths, first.errors ++ second.errors⟩

instance : Append Resolution := ⟨append⟩

def lookUp (scopes : List Scope) (id : ExprId) (name : Token) : Resolution :=
  match scopes.findIdx? (·.contains name.lexeme) with
  | some depth => ⟨[(id, depth)], []⟩
  | .none => none

/-- Declares a name in the innermost scope. The global scope keeps no record. -/
def declare (scopes : List Scope) (name : Token) : Resolution × List Scope :=
  match scopes with
  | [] => (none, [])
  | scope :: outer =>
      if scope.contains name.lexeme then (error name .alreadyDeclared, scopes)
      else (none, (name.lexeme :: scope) :: outer)

/-- The name that is being initialized after its declaration, when a scope has recorded it anew. -/
def pendingName (before : List Scope) (name : Token) : Option String :=
  match before with
  | [] => .none
  | scope :: _ => if scope.contains name.lexeme then .none else some name.lexeme

def declareAll (scopes : List Scope) : List Token → Resolution × List Scope
  | [] => (none, scopes)
  | name :: names =>
      let (first, scopes) := declare scopes name
      let (rest, scopes) := declareAll scopes names
      (first ++ rest, scopes)

end Resolution

open Resolution (lookUp declare declareAll pendingName)

namespace Expr

mutual
/-- The depths of an expression's names; `pending` is the variable of the innermost scope whose
initializer the expression stands in. -/
def resolve (enclosingClass : ClassContext) (scopes : List Scope) (pending : Option String) :
    Expr → Resolution
  | literal _ => .none
  | grouping inner => inner.resolve enclosingClass scopes pending
  | unary _ operand => operand.resolve enclosingClass scopes pending
  | binary left _ right | logical left _ right | comma left _ right =>
      left.resolve enclosingClass scopes pending ++ right.resolve enclosingClass scopes pending
  | conditional condition thenBranch elseBranch =>
      condition.resolve enclosingClass scopes pending ++
        thenBranch.resolve enclosingClass scopes pending ++
        elseBranch.resolve enclosingClass scopes pending
  | var id name =>
      (if pending = some name.lexeme then .error name .ownInitializer else .none) ++
        lookUp scopes id name
  | assign id name value =>
      value.resolve enclosingClass scopes pending ++ lookUp scopes id name
  | call callee _ arguments =>
      callee.resolve enclosingClass scopes pending ++
        resolveAll enclosingClass scopes pending arguments
  | get object _ => object.resolve enclosingClass scopes pending
  | set object _ value =>
      object.resolve enclosingClass scopes pending ++ value.resolve enclosingClass scopes pending
  | this id keyword =>
      match enclosingClass with
      | .outside => .error keyword .thisOutsideClass
      | .plain | .subclass => lookUp scopes id keyword
  | super id keyword _ =>
      (match enclosingClass with
        | .outside => .error keyword .superOutsideClass
        | .plain => .error keyword .superWithoutSuperclass
        | .subclass => .none) ++
        lookUp scopes id keyword

def resolveAll (enclosingClass : ClassContext) (scopes : List Scope) (pending : Option String) :
    List Expr → Resolution
  | [] => .none
  | first :: rest =>
      first.resolve enclosingClass scopes pending ++ resolveAll enclosingClass scopes pending rest
end

end Expr

def Expr.useOf? (expr : Expr) (name : Token) : Option Token :=
  match expr with
  | .var _ used => if used.lexeme = name.lexeme then some used else none
  | _ => none

def FunctionContext.ofMethod (name : Token) : FunctionContext :=
  if name.lexeme = "init" then .initializer else .method

mutual
/-- The depths and faults of a statement, and the scopes as the next statement finds them. Only the
innermost scope can have changed. -/
def Stmt.resolve (around : Surroundings) (scopes : List Scope) : Stmt → Resolution × List Scope
  | .expression value | .print _ value =>
      (value.resolve around.enclosingClass scopes none, scopes)
  | .varDecl name initializer =>
      let (declared, inside) := declare scopes name
      let value := Expr.resolveAll around.enclosingClass inside (pendingName scopes name)
        initializer.toList
      (declared ++ value, inside)
  | .block body => (Stmt.resolveAll around ([] :: scopes) body, scopes)
  | .ifThen condition thenBranch =>
      let (first, scopes') := thenBranch.resolve around scopes
      (condition.resolve around.enclosingClass scopes none ++ first, scopes')
  | .ifElse condition thenBranch elseBranch =>
      let (first, scopes') := thenBranch.resolve around scopes
      let (second, scopes'') := elseBranch.resolve around scopes'
      (condition.resolve around.enclosingClass scopes none ++ first ++ second, scopes'')
  | .whileLoop condition body =>
      let (round, scopes') := body.resolve around scopes
      (condition.resolve around.enclosingClass scopes none ++ round, scopes')
  | .functionDecl decl =>
      let (declared, inside) := declare scopes decl.name
      (declared ++ decl.resolve { around with function := .function } inside, inside)
  | .returnStmt keyword value =>
      let misplaced : Resolution :=
        if around.function = .topLevel then .error keyword .returnAtTopLevel else .none
      let valued : Resolution :=
        if value.isSome ∧ around.function = .initializer then .error keyword .valueFromInitializer
        else .none
      (misplaced ++ valued ++ Expr.resolveAll around.enclosingClass scopes none value.toList, scopes)
  | .classDecl name superclass methods =>
      let (declared, inside) := declare scopes name
      match superclass with
      | some parent =>
          let circular : Resolution :=
            match parent.useOf? name with
            | some used => .error used .inheritsItself
            | none => .none
          let found := FunctionDecl.resolveMethods { around with enclosingClass := .subclass }
            (["this"] :: ["super"] :: inside) methods
          (declared ++ circular ++ parent.resolve .subclass inside none ++ found, inside)
      | none =>
          let found := FunctionDecl.resolveMethods { around with enclosingClass := .plain }
            (["this"] :: inside) methods
          (declared ++ found, inside)

def Stmt.resolveAll (around : Surroundings) (scopes : List Scope) : List Stmt → Resolution
  | [] => .none
  | first :: rest =>
      let (found, scopes') := first.resolve around scopes
      found ++ Stmt.resolveAll around scopes' rest

/-- The parameters and the body of a function share one scope. -/
def FunctionDecl.resolve (around : Surroundings) (scopes : List Scope) : FunctionDecl → Resolution
  | ⟨_, _, params, body⟩ =>
      let (declared, inside) := declareAll ([] :: scopes) params
      declared ++ Stmt.resolveAll around inside body

def FunctionDecl.resolveMethods (around : Surroundings) (scopes : List Scope) :
    List FunctionDecl → Resolution
  | [] => .none
  | first :: rest =>
      first.resolve { around with function := .ofMethod first.name } scopes ++
        FunctionDecl.resolveMethods around scopes rest
end

def Resolution.ofProgram (stmts : List Stmt) : Resolution :=
  Stmt.resolveAll .topLevel [] stmts

def Resolution.ofExpr (expr : Expr) : Resolution := expr.resolve .outside [] .none

end Lox
