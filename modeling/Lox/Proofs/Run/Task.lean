import Lox.Session

/-!
The moments of a run. A task is a piece of evaluation, and `Substep` says which pieces it begins and in
which state of the machine, one rule for each place where the evaluator calls itself. The moments of a
run are the tasks that are reached in this way; this covers runs that fail and runs that never end.
-/

namespace Lox

def Run.final {α : Type} (step : Run α) (machine : Machine) : Machine :=
  match step machine with
  | .ok _ after => after
  | .error _ after => after

namespace Machine

def entering (machine : Machine) (outer : Env) (bindings : Bindings) : Machine :=
  { machine with
    env := (machine.scopes.enter outer bindings).1
    scopes := (machine.scopes.enter outer bindings).2 }

def calling (machine : Machine) : Machine := { machine with callDepth := machine.callDepth + 1 }

end Machine

inductive Task
  | evaluate (fuel : Nat) (expr : Expr)
  | evaluateAll (fuel : Nat) (exprs : List Expr)
  | evaluateOr (fuel : Nat) (expr : Option Expr)
  | call (fuel : Nat) (function : Value) (paren : Token) (arguments : List Value)
  | invoke (fuel : Nat) (callee : Callable) (arguments : List Value)
  | invokeFunction (fuel : Nat) (closure : Closure) (arguments : List Value)
  | bindMethod (method : Closure) (inst : Instance)
  | execute (fuel : Nat) (stmt : Stmt)
  | executeAll (fuel : Nat) (stmts : List Stmt)
  | repeatWhile (fuel : Nat) (condition : Expr) (body : Stmt)
  | declareClass (name : Token) (superclass : Option ClassObject) (methods : List FunctionDecl)
  | executeProgram (fuel : Nat) (stmts : List Stmt)

namespace Task

@[reducible] def Result : Task → Type
  | evaluate _ _ | evaluateOr _ _ | call _ _ _ _ | invoke _ _ _ | invokeFunction _ _ _ => Value
  | evaluateAll _ _ => List Value
  | bindMethod _ _ => Closure
  | execute _ _ | executeAll _ _ | repeatWhile _ _ _ => Flow
  | declareClass _ _ _ | executeProgram _ _ => Unit

def run : (task : Task) → Run task.Result
  | evaluate fuel expr => Lox.evaluate fuel expr
  | evaluateAll fuel exprs => Lox.evaluateAll fuel exprs
  | evaluateOr fuel expr => Lox.evaluateOr fuel expr
  | call fuel function paren arguments => Lox.call fuel function paren arguments
  | invoke fuel callee arguments => Lox.invoke fuel callee arguments
  | invokeFunction fuel closure arguments => Lox.invokeFunction fuel closure arguments
  | bindMethod method inst => Run.bindMethod method inst
  | execute fuel stmt => Lox.execute fuel stmt
  | executeAll fuel stmts => Lox.executeAll fuel stmts
  | repeatWhile fuel condition body => Lox.repeatWhile fuel condition body
  | declareClass name superclass methods => Run.declareClass name superclass methods
  | executeProgram fuel stmts => Lox.executeProgram fuel stmts

end Task

open Lox (evaluate evaluateAll evaluateOr execute)

inductive Substep : Task → Machine → Task → Machine → Prop
  | grouping {fuel inner machine} :
      Substep (.evaluate (fuel + 1) (.grouping inner)) machine (.evaluate fuel inner) machine
  | operand {fuel operator operand machine} :
      Substep (.evaluate (fuel + 1) (.unary operator operand)) machine
        (.evaluate fuel operand) machine
  | binaryLeft {fuel left operator right machine} :
      Substep (.evaluate (fuel + 1) (.binary left operator right)) machine
        (.evaluate fuel left) machine
  | binaryRight {fuel left operator right machine value after} :
      evaluate fuel left machine = .ok value after →
      Substep (.evaluate (fuel + 1) (.binary left operator right)) machine
        (.evaluate fuel right) after
  | logicalLeft {fuel left operator right machine} :
      Substep (.evaluate (fuel + 1) (.logical left operator right)) machine
        (.evaluate fuel left) machine
  | logicalRight {fuel left operator right machine value after} :
      evaluate fuel left machine = .ok value after →
      Operator.shortCircuits operator.kind value = false →
      Substep (.evaluate (fuel + 1) (.logical left operator right)) machine
        (.evaluate fuel right) after
  | commaLeft {fuel left operator right machine} :
      Substep (.evaluate (fuel + 1) (.comma left operator right)) machine
        (.evaluate fuel left) machine
  | commaRight {fuel left operator right machine value after} :
      evaluate fuel left machine = .ok value after →
      Substep (.evaluate (fuel + 1) (.comma left operator right)) machine
        (.evaluate fuel right) after
  | condition {fuel condition thenBranch elseBranch machine} :
      Substep (.evaluate (fuel + 1) (.conditional condition thenBranch elseBranch)) machine
        (.evaluate fuel condition) machine
  | thenBranch {fuel condition thenBranch elseBranch machine value after} :
      evaluate fuel condition machine = .ok value after → value.isTruthy = true →
      Substep (.evaluate (fuel + 1) (.conditional condition thenBranch elseBranch)) machine
        (.evaluate fuel thenBranch) after
  | elseBranch {fuel condition thenBranch elseBranch machine value after} :
      evaluate fuel condition machine = .ok value after → value.isTruthy = false →
      Substep (.evaluate (fuel + 1) (.conditional condition thenBranch elseBranch)) machine
        (.evaluate fuel elseBranch) after
  | assigned {fuel id name value machine} :
      Substep (.evaluate (fuel + 1) (.assign id name value)) machine (.evaluate fuel value) machine
  | callee {fuel callee paren arguments machine} :
      Substep (.evaluate (fuel + 1) (.call callee paren arguments)) machine
        (.evaluate fuel callee) machine
  | arguments {fuel callee paren arguments machine function after} :
      evaluate fuel callee machine = .ok function after →
      Substep (.evaluate (fuel + 1) (.call callee paren arguments)) machine
        (.evaluateAll fuel arguments) after
  | call {fuel callee paren arguments machine function middle values after} :
      evaluate fuel callee machine = .ok function middle →
      evaluateAll fuel arguments middle = .ok values after →
      Substep (.evaluate (fuel + 1) (.call callee paren arguments)) machine
        (.call fuel function paren values) after
  | getObject {fuel object name machine} :
      Substep (.evaluate (fuel + 1) (.get object name)) machine (.evaluate fuel object) machine
  | getMethod {fuel object name machine inst method after} :
      evaluate fuel object machine = .ok (.object inst) after →
      after.field? inst name.lexeme = none → inst.cls.findMethod? name.lexeme = some method →
      Substep (.evaluate (fuel + 1) (.get object name)) machine (.bindMethod method inst) after
  | setObject {fuel object name value machine} :
      Substep (.evaluate (fuel + 1) (.set object name value)) machine
        (.evaluate fuel object) machine
  | setValue {fuel object name value machine inst after} :
      evaluate fuel object machine = .ok (.object inst) after →
      Substep (.evaluate (fuel + 1) (.set object name value)) machine (.evaluate fuel value) after
  | superMethod {fuel id keyword method machine depth superclass inst found} :
      machine.depths[id]? = some (depth + 1) →
      machine.scopes.getAt? machine.env (depth + 1) "super" =
        some (.callable (.constructor superclass)) →
      machine.scopes.getAt? machine.env depth "this" = some (.object inst) →
      superclass.findMethod? method.lexeme = some found →
      Substep (.evaluate (fuel + 1) (.super id keyword method)) machine
        (.bindMethod found inst) machine
  | firstOf {fuel first rest machine} :
      Substep (.evaluateAll (fuel + 1) (first :: rest)) machine (.evaluate fuel first) machine
  | restOf {fuel first rest machine value after} :
      evaluate fuel first machine = .ok value after →
      Substep (.evaluateAll (fuel + 1) (first :: rest)) machine (.evaluateAll fuel rest) after
  | present {fuel value machine} :
      Substep (.evaluateOr (fuel + 1) (some value)) machine (.evaluate fuel value) machine
  | invoke {fuel function paren arguments callee machine} :
      function.callable? = some callee → arguments.length = callee.arity →
      machine.callDepth < machine.maxCallDepth →
      Substep (.call (fuel + 1) function paren arguments) machine
        (.invoke fuel callee arguments) machine.calling
  | function {fuel closure arguments machine} :
      Substep (.invoke (fuel + 1) (.function closure) arguments) machine
        (.invokeFunction fuel closure arguments) machine
  | bindInitializer {fuel cls arguments machine inst initializer after} :
      Run.newInstance cls machine = .ok inst after → cls.findMethod? "init" = some initializer →
      Substep (.invoke (fuel + 1) (.constructor cls) arguments) machine
        (.bindMethod initializer inst) after
  | initializer {fuel cls arguments machine inst initializer middle bound after} :
      Run.newInstance cls machine = .ok inst middle → cls.findMethod? "init" = some initializer →
      Run.bindMethod initializer inst middle = .ok bound after →
      Substep (.invoke (fuel + 1) (.constructor cls) arguments) machine
        (.invokeFunction fuel bound arguments) after
  | functionBody {fuel closure arguments machine} :
      Substep (.invokeFunction (fuel + 1) closure arguments) machine
        (.executeAll fuel closure.decl.body)
        (machine.entering closure.env (Run.parameterBindings closure.decl.params arguments))
  | expression {fuel value machine} :
      Substep (.execute (fuel + 1) (.expression value)) machine (.evaluate fuel value) machine
  | printed {fuel keyword value machine} :
      Substep (.execute (fuel + 1) (.print keyword value)) machine (.evaluate fuel value) machine
  | initialValue {fuel name value machine} :
      Substep (.execute (fuel + 1) (.varDecl name value)) machine (.evaluateOr fuel value) machine
  | block {fuel body machine} :
      Substep (.execute (fuel + 1) (.block body)) machine
        (.executeAll fuel body) (machine.entering machine.env {})
  | ifCondition {fuel condition thenBranch machine} :
      Substep (.execute (fuel + 1) (.ifThen condition thenBranch)) machine
        (.evaluate fuel condition) machine
  | ifThen {fuel condition thenBranch machine value after} :
      evaluate fuel condition machine = .ok value after → value.isTruthy = true →
      Substep (.execute (fuel + 1) (.ifThen condition thenBranch)) machine
        (.execute fuel thenBranch) after
  | ifElseCondition {fuel condition thenBranch elseBranch machine} :
      Substep (.execute (fuel + 1) (.ifElse condition thenBranch elseBranch)) machine
        (.evaluate fuel condition) machine
  | ifElseThen {fuel condition thenBranch elseBranch machine value after} :
      evaluate fuel condition machine = .ok value after → value.isTruthy = true →
      Substep (.execute (fuel + 1) (.ifElse condition thenBranch elseBranch)) machine
        (.execute fuel thenBranch) after
  | ifElseElse {fuel condition thenBranch elseBranch machine value after} :
      evaluate fuel condition machine = .ok value after → value.isTruthy = false →
      Substep (.execute (fuel + 1) (.ifElse condition thenBranch elseBranch)) machine
        (.execute fuel elseBranch) after
  | whileLoop {fuel condition body machine} :
      Substep (.execute (fuel + 1) (.whileLoop condition body)) machine
        (.repeatWhile fuel condition body) machine
  | returned {fuel keyword value machine} :
      Substep (.execute (fuel + 1) (.returnStmt keyword value)) machine
        (.evaluateOr fuel value) machine
  | superclass {fuel name parent methods machine} :
      Substep (.execute (fuel + 1) (.classDecl name (some parent) methods)) machine
        (.evaluate fuel parent) machine
  | declareSubclass {fuel name parent methods machine cls after} :
      evaluate fuel parent machine = .ok (.callable (.constructor cls)) after →
      Substep (.execute (fuel + 1) (.classDecl name (some parent) methods)) machine
        (.declareClass name (some cls) methods) after
  | declareClass {fuel name methods machine} :
      Substep (.execute (fuel + 1) (.classDecl name none methods)) machine
        (.declareClass name none methods) machine
  | firstStmt {fuel first rest machine} :
      Substep (.executeAll (fuel + 1) (first :: rest)) machine (.execute fuel first) machine
  | restStmts {fuel first rest machine after} :
      execute fuel first machine = .ok .normal after →
      Substep (.executeAll (fuel + 1) (first :: rest)) machine (.executeAll fuel rest) after
  | loopCondition {fuel condition body machine} :
      Substep (.repeatWhile (fuel + 1) condition body) machine (.evaluate fuel condition) machine
  | loopBody {fuel condition body machine value after} :
      evaluate fuel condition machine = .ok value after → value.isTruthy = true →
      Substep (.repeatWhile (fuel + 1) condition body) machine (.execute fuel body) after
  | nextRound {fuel condition body machine value middle after} :
      evaluate fuel condition machine = .ok value middle → value.isTruthy = true →
      execute fuel body middle = .ok .normal after →
      Substep (.repeatWhile (fuel + 1) condition body) machine
        (.repeatWhile fuel condition body) after
  | firstOfProgram {fuel first rest machine} :
      Substep (.executeProgram fuel (first :: rest)) machine (.execute fuel first) machine
  | restOfProgram {fuel first rest machine flow after} :
      execute fuel first machine = .ok flow after →
      Substep (.executeProgram fuel (first :: rest)) machine (.executeProgram fuel rest) after

/-- While a task runs from a state of the machine, another one is begun in some state. -/
inductive Reaches (task : Task) (machine : Machine) : Task → Machine → Prop
  | here : Reaches task machine task machine
  | begun {middle other : Task} {present later : Machine} :
      Reaches task machine middle present → Substep middle present other later →
      Reaches task machine other later

end Lox
