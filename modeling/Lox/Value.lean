import Lox.Stmt
import Std.Data.TreeMap

/-!
Values of a running program. Scopes and instances are shared and changed in place, so a value refers
to them; functions and classes never change, so a value holds them. What a program can tell apart by
`==` has an identity: a scope, an instance, a class and a function declaration.
-/

namespace Lox

structure ScopeRef where
  index : Nat
deriving DecidableEq

/-- A scope and those around it, the innermost first. -/
abbrev Env := List ScopeRef

/-- A function value: a declaration and the scopes around it where it was executed. -/
structure Closure where
  decl : FunctionDecl
  env : Env
  isInitializer : Bool

namespace Closure

def name (closure : Closure) : String := closure.decl.name.lexeme

def arity (closure : Closure) : Nat := closure.decl.params.length

def same (left right : Closure) : Bool :=
  left.decl.id = right.decl.id && left.env.head? = right.env.head?

end Closure

/-- What one class statement declares. -/
structure ClassBody where
  id : Nat
  name : String
  methods : Std.TreeMap String Closure

/-- A class: its own body and those of its superclasses, the nearest first. -/
structure ClassObject where
  own : ClassBody
  ancestors : List ClassBody

namespace ClassObject

def name (cls : ClassObject) : String := cls.own.name

def chain (cls : ClassObject) : List ClassBody := cls.own :: cls.ancestors

def findMethod? (cls : ClassObject) (name : String) : Option Closure :=
  cls.chain.findSome? fun body => body.methods[name]?

/-- A class takes the arguments of its initializer. -/
def arity (cls : ClassObject) : Nat :=
  match cls.findMethod? "init" with
  | some initializer => initializer.arity
  | none => 0

end ClassObject

/-- An object and the class it was made from; its fields are in the store. -/
structure Instance where
  index : Nat
  cls : ClassObject

inductive Native
  | clock
  | readLine
  | readFile
  | writeFile
  | echo
deriving DecidableEq

namespace Native

def all : List Native := [clock, readLine, readFile, writeFile, echo]

def name : Native → String
  | clock => "clock"
  | readLine => "readLine"
  | readFile => "readFile"
  | writeFile => "writeFile"
  | echo => "echo"

def arity : Native → Nat
  | clock => 0
  | readLine => 0
  | readFile => 1
  | writeFile => 2
  | echo => 1

end Native

inductive Callable
  | native (builtin : Native)
  | function (closure : Closure)
  | constructor (cls : ClassObject)

def Callable.arity : Callable → Nat
  | native builtin => builtin.arity
  | function closure => closure.arity
  | constructor cls => cls.arity

inductive Value
  | nil
  | bool (value : Bool)
  | number (value : Number)
  | string (value : String)
  | callable (callable : Callable)
  | object (inst : Instance)

namespace Value

def ofConstant : Constant → Value
  | .nil => nil
  | .bool value => bool value
  | .number value => number value
  | .string value => string value

def function (closure : Closure) : Value := callable (.function closure)

def ofClass (cls : ClassObject) : Value := callable (.constructor cls)

def ofNative (builtin : Native) : Value := callable (.native builtin)

def isTruthy : Value → Bool
  | nil => false
  | bool value => value
  | _ => true

def callable? : Value → Option Callable
  | callable found => some found
  | _ => none

def typeName : Value → String
  | nil => "nil"
  | bool _ => "boolean"
  | number _ => "number"
  | string _ => "string"
  | callable (.native _) | callable (.function _) => "function"
  | callable (.constructor _) => "class"
  | object _ => "instance"

def text : Value → String
  | nil => "nil"
  | bool true => "true"
  | bool false => "false"
  | number value => value.display
  | string value => value
  | callable (.native builtin) => "<native fn " ++ builtin.name ++ ">"
  | callable (.function closure) => "<fn " ++ closure.name ++ ">"
  | callable (.constructor cls) => cls.name
  | object inst => inst.cls.name ++ " instance"

/-- Values of different types differ; functions, classes and instances are compared by identity. -/
def equals : Value → Value → Bool
  | nil, nil => true
  | bool left, bool right => left = right
  | number left, number right => left.equals right
  | string left, string right => left = right
  | callable (.native left), callable (.native right) => left = right
  | callable (.function left), callable (.function right) => left.same right
  | callable (.constructor left), callable (.constructor right) => left.own.id = right.own.id
  | object left, object right => left.index = right.index
  | _, _ => false

def classChain? : Value → Option (List ClassBody)
  | callable (.constructor cls) => some cls.chain
  | object inst => some inst.cls.chain
  | _ => none

end Value

end Lox
