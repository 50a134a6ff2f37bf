import Lox.Parse.Program
import Lox.Resolution
import Lox.RuntimeError
import Lox.Token.Scan

/-!
The faults reported so far, in order. Static faults are found before a program runs and keep it from
running; a runtime error is found while it runs.
-/

namespace Lox

inductive Diagnostic
  | lexical (error : LexicalError)
  | syntactic (error : SyntaxError)
  | scoping (error : ScopeError)
  | runtime (error : RuntimeError)
deriving DecidableEq

namespace Diagnostic

def isStatic : Diagnostic → Bool
  | runtime _ => false
  | _ => true

def locate (token : Token) (message : String) : String :=
  s!"[line {token.line}] Error" ++
    (if token.isEnding then " at end" else " at '" ++ token.lexeme ++ "'") ++ ": " ++ message

def text : Diagnostic → String
  | lexical error => s!"[line {error.line}] Error: " ++ error.fault.message
  | syntactic error => locate error.token error.fault.message
  | scoping error => locate error.token error.fault.message
  | runtime error => error.text

end Diagnostic

/-- The faults reported so far, with one flag that is set by static faults and one that is set by
runtime errors. -/
structure Diagnostics where
  errors : List Diagnostic := []
  hadError : Bool := false
  hadRuntimeError : Bool := false

namespace Diagnostics

def add (diagnostics : Diagnostics) (error : Diagnostic) : Diagnostics where
  errors := diagnostics.errors ++ [error]
  hadError := diagnostics.hadError || error.isStatic
  hadRuntimeError := diagnostics.hadRuntimeError || !error.isStatic

def report (diagnostics : Diagnostics) (found : List Diagnostic) : Diagnostics :=
  found.foldl add diagnostics

@[simp] theorem errors_report (diagnostics : Diagnostics) (found : List Diagnostic) :
    (diagnostics.report found).errors = diagnostics.errors ++ found := by
  induction found generalizing diagnostics with
  | nil => simp [report]
  | cons error rest ih => simpa [report, add] using ih (diagnostics.add error)

@[simp] theorem hadError_report (diagnostics : Diagnostics) (found : List Diagnostic) :
    (diagnostics.report found).hadError =
      (diagnostics.hadError || found.any Diagnostic.isStatic) := by
  induction found generalizing diagnostics with
  | nil => simp [report]
  | cons error rest ih => simpa [report, add, Bool.or_assoc] using ih (diagnostics.add error)

@[simp] theorem hadRuntimeError_report (diagnostics : Diagnostics) (found : List Diagnostic) :
    (diagnostics.report found).hadRuntimeError =
      (diagnostics.hadRuntimeError || found.any fun error => !error.isStatic) := by
  induction found generalizing diagnostics with
  | nil => simp [report]
  | cons error rest ih => simpa [report, add, Bool.or_assoc] using ih (diagnostics.add error)

end Diagnostics

end Lox
