import Lox.Token

/-!
Faults of a running program. A fault found at a token is reported with its line; a fault of the host
has no token until the call that led to it provides one.
-/

namespace Lox

inductive HostFault
  | notFound
  | notDirectory
  | isDirectory
  | invalidText
  | nulInName
  | sinkClosed
  | pipeClosed
  | other (message : String)
deriving DecidableEq

def HostFault.message : HostFault → String
  | notFound => "No such file or directory (os error 2)"
  | notDirectory => "Not a directory (os error 20)"
  | isDirectory => "Is a directory (os error 21)"
  | invalidText => "stream did not contain valid UTF-8"
  | nulInName => "file name contained an unexpected NUL byte"
  | sinkClosed => "sink closed"
  | pipeClosed => "pipe closed"
  | other message => message

inductive RuntimeFault
  | operandNotNumber
  | operandsNotNumbers
  | operandsNotAddable
  | divisionByZero
  | invalidUnaryOperator
  | invalidBinaryOperator
  | undefinedVariable (name : String)
  | undefinedProperty (name : String)
  | propertyOfNonInstance
  | fieldOfNonInstance
  | notCallable
  | wrongArgumentCount (expected actual : Nat)
  | stackOverflow
  | superclassNotClass
  | superOutsideClass
  | initializerWithoutInstance
  | outputFailed (cause : HostFault)
  | inputFailed (cause : HostFault)
  | fileNotRead (path : String) (cause : HostFault)
  | fileNotWritten (path : String) (cause : HostFault)
  | pathExpected (function actual : String)
  | oneArgumentExpected (function : String)
  | worded (message : String)
deriving DecidableEq

def RuntimeFault.message : RuntimeFault → String
  | operandNotNumber => "Operand must be a number."
  | operandsNotNumbers => "Operands must be numbers."
  | operandsNotAddable => "Operands must be two numbers or two strings."
  | divisionByZero => "Division by zero."
  | invalidUnaryOperator => "Invalid unary operator."
  | invalidBinaryOperator => "Invalid binary operator."
  | undefinedVariable name => "Undefined variable '" ++ name ++ "'."
  | undefinedProperty name => "Undefined property '" ++ name ++ "'."
  | propertyOfNonInstance => "Only instances have properties."
  | fieldOfNonInstance => "Only instances have fields."
  | notCallable => "Can only call functions and classes."
  | wrongArgumentCount expected actual =>
      s!"Expected {expected} arguments but got {actual}."
  | stackOverflow => "Stack overflow."
  | superclassNotClass => "Superclass must be a class."
  | superOutsideClass => "Can't use 'super' outside of a class."
  | initializerWithoutInstance => "Initializer called without an instance."
  | outputFailed cause => "Could not write output: " ++ cause.message
  | inputFailed cause => "Could not read line: " ++ cause.message
  | fileNotRead path cause => "Could not read file '" ++ path ++ "': " ++ cause.message
  | fileNotWritten path cause => "Could not write file '" ++ path ++ "': " ++ cause.message
  | pathExpected function actual => function ++ " expects a string path, got " ++ actual ++ "."
  | oneArgumentExpected function => function ++ " expects one argument."
  | worded message => message

structure RuntimeError where
  fault : RuntimeFault
  place : Option Token
deriving DecidableEq

namespace RuntimeError

def orAt (error : RuntimeError) (token : Token) : RuntimeError :=
  { error with place := some (error.place.getD token) }

def text (error : RuntimeError) : String :=
  error.fault.message ++
    match error.place with
    | some token => s!"\n[line {token.line}]"
    | none => ""

end RuntimeError

end Lox
