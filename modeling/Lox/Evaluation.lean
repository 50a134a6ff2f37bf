import Lox.Native
import Lox.Operator

/-!
Running programs. Fuel bounds how deep evaluations nest and how many rounds a loop takes, so every
function here ends; with enough fuel for a program, more fuel changes nothing.
-/

namespace Lox

def Expr.superclassPlace (parent : Expr) (name : Token) : Token :=
  match parent with
  | .var _ used => used
  | _ => name

namespace Run

/-- The parameters of a function with their arguments; missing arguments leave parameters unbound. -/
def parameterBindings (params : List Token) (arguments : List Value) : Bindings :=
  (params.zip arguments).foldl (fun table (param, value) => table.insert param.lexeme value) {}

/-- The result of a function: an initializer always yields its instance. -/
def functionResult (closure : Closure) (flow : Flow) : Run Value := do
  if closure.isInitializer then
    match (← get).scopes.getAt? closure.env 0 "this" with
    | some value => pure value
    | none => fail .initializerWithoutInstance closure.decl.name
  else
    match flow with
    | .returned value => pure value
    | .normal => pure .nil

def requireClass (value : Value) (place : Token) : Run ClassObject :=
  match value with
  | .callable (.constructor cls) => pure cls
  | _ => fail .superclassNotClass place

/-- Declares a class whose superclass, if any, is known. The methods of a subclass have a scope around
them that binds `super`. -/
def declareClass (name : Token) (superclass : Option ClassObject) (methods : List FunctionDecl) :
    Run Unit := do
  define name.lexeme .nil
  let present := (← get).env
  let env ←
    match superclass with
    | some parent => openScope present (({} : Bindings).insert "super" (.ofClass parent))
    | none => pure present
  let cls ← makeClass name.lexeme superclass env methods
  define name.lexeme (.ofClass cls)

end Run

open Run

mutual
def evaluate : Nat → Expr → Run Value
  | 0, _ => throw .outOfFuel
  | fuel + 1, expr => do
      match expr with
      | .literal value => pure (.ofConstant value)
      | .grouping inner => evaluate fuel inner
      | .unary operator operand =>
          let value ← evaluate fuel operand
          orFailAt operator (Operator.unary operator.kind value)
      | .binary left operator right =>
          let first ← evaluate fuel left
          let second ← evaluate fuel right
          orFailAt operator (Operator.binary operator.kind first second)
      | .logical left operator right =>
          let first ← evaluate fuel left
          if Operator.shortCircuits operator.kind first then pure first else evaluate fuel right
      | .comma left _ right =>
          let _ ← evaluate fuel left
          evaluate fuel right
      | .conditional condition thenBranch elseBranch =>
          let value ← evaluate fuel condition
          if value.isTruthy then evaluate fuel thenBranch else evaluate fuel elseBranch
      | .var id name => readVariable id name
      | .assign id name value =>
          let result ← evaluate fuel value
          assignVariable id name result
          pure result
      | .call callee paren arguments =>
          let function ← evaluate fuel callee
          let values ← evaluateAll fuel arguments
          call fuel function paren values
      | .get object name =>
          match ← evaluate fuel object with
          | .object inst => getProperty inst name
          | _ => fail .propertyOfNonInstance name
      | .set object name value =>
          match ← evaluate fuel object with
          | .object inst =>
              let result ← evaluate fuel value
              setField inst name result
              pure result
          | _ => fail .fieldOfNonInstance name
      | .this id keyword => readVariable id keyword
      | .super id keyword method => readSuper id keyword method

def evaluateAll : Nat → List Expr → Run (List Value)
  | 0, _ => throw .outOfFuel
  | fuel + 1, exprs => do
      match exprs with
      | [] => pure []
      | first :: rest =>
          let value ← evaluate fuel first
          let values ← evaluateAll fuel rest
          pure (value :: values)

/-- A call as it stands in a program: the callee, the number of arguments and the number of calls in
progress are checked in this order. -/
def call : Nat → Value → Token → List Value → Run Value
  | 0, _, _, _ => throw .outOfFuel
  | fuel + 1, function, paren, arguments => do
      match function.callable? with
      | none => fail .notCallable paren
      | some callee =>
          if arguments.length ≠ callee.arity then
            fail (.wrongArgumentCount callee.arity arguments.length) paren
          else
            let machine ← get
            if machine.maxCallDepth ≤ machine.callDepth then fail .stackOverflow paren
            else nested paren (invoke fuel callee arguments)

def invoke : Nat → Callable → List Value → Run Value
  | 0, _, _ => throw .outOfFuel
  | fuel + 1, callee, arguments => do
      match callee with
      | .native builtin => builtin.call arguments
      | .function closure => invokeFunction fuel closure arguments
      | .constructor cls =>
          let inst ← newInstance cls
          match cls.findMethod? "init" with
          | some initializer =>
              let bound ← bindMethod initializer inst
              let _ ← invokeFunction fuel bound arguments
              pure (.object inst)
          | none => pure (.object inst)

/-- The body of a function runs in a scope of its own inside the scopes of its declaration. -/
def invokeFunction : Nat → Closure → List Value → Run Value
  | 0, _, _ => throw .outOfFuel
  | fuel + 1, closure, arguments => do
      let env ← openScope closure.env (parameterBindings closure.decl.params arguments)
      let flow ← inside env (executeAll fuel closure.decl.body)
      functionResult closure flow

def execute : Nat → Stmt → Run Flow
  | 0, _ => throw .outOfFuel
  | fuel + 1, stmt => do
      match stmt with
      | .expression value =>
          let _ ← evaluate fuel value
          pure .normal
      | .print keyword value =>
          let result ← evaluate fuel value
          print keyword result
          pure .normal
      | .varDecl name initializer =>
          let value ← evaluateOr fuel initializer
          define name.lexeme value
          pure .normal
      | .block body =>
          let env ← openScope (← get).env {}
          inside env (executeAll fuel body)
      | .ifThen condition thenBranch =>
          let value ← evaluate fuel condition
          if value.isTruthy then execute fuel thenBranch else pure .normal
      | .ifElse condition thenBranch elseBranch =>
          let value ← evaluate fuel condition
          if value.isTruthy then execute fuel thenBranch else execute fuel elseBranch
      | .whileLoop condition body => repeatWhile fuel condition body
      | .functionDecl decl =>
          define decl.name.lexeme (.function ⟨decl, (← get).env, false⟩)
          pure .normal
      | .returnStmt _ value =>
          let result ← evaluateOr fuel value
          pure (.returned result)
      | .classDecl name superclass methods =>
          match superclass with
          | some parent =>
              let value ← evaluate fuel parent
              let cls ← requireClass value (parent.superclassPlace name)
              declareClass name (some cls) methods
              pure .normal
          | none =>
              declareClass name none methods
              pure .normal

def evaluateOr : Nat → Option Expr → Run Value
  | 0, _ => throw .outOfFuel
  | fuel + 1, expr => do
      match expr with
      | some value => evaluate fuel value
      | none => pure .nil

def executeAll : Nat → List Stmt → Run Flow
  | 0, _ => throw .outOfFuel
  | fuel + 1, stmts => do
      match stmts with
      | [] => pure .normal
      | first :: rest =>
          match ← execute fuel first with
          | .returned value => pure (.returned value)
          | .normal => executeAll fuel rest

def repeatWhile : Nat → Expr → Stmt → Run Flow
  | 0, _, _ => throw .outOfFuel
  | fuel + 1, condition, body => do
      let value ← evaluate fuel condition
      if value.isTruthy then
        match ← execute fuel body with
        | .returned result => pure (.returned result)
        | .normal => repeatWhile fuel condition body
      else pure .normal
end

/-- Executes the statements of a program in order, each to its end whatever it returns. -/
def executeProgram (fuel : Nat) : List Stmt → Run Unit
  | [] => pure ()
  | first :: rest => do
      let _ ← execute fuel first
      executeProgram fuel rest

/-- Flushes the output after a program; a failure counts only if the program had none. -/
def interpret (fuel : Nat) (stmts : List Stmt) : Run Unit := do
  try executeProgram fuel stmts
  catch abort =>
    let _ ← flush
    throw abort
  match ← flush with
  | .ok () => pure ()
  | .error fault => failBare (.outputFailed fault)

end Lox
