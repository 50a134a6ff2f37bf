import Lox.Diagnostics
import Lox.Evaluation

/-!
A session: one machine that runs several inputs, one after the other, and the faults reported so far.
Identities go on counting from input to input. What takes fuel gives no result when the fuel does not
suffice.
-/

namespace Lox

structure Session where
  machine : Machine
  supply : Supply := {}
  diagnostics : Diagnostics := {}

namespace Session

def new (host : Host) (maxCallDepth : Nat) : Session := { machine := .fresh maxCallDepth host }

def report (session : Session) (found : List Diagnostic) : Session :=
  { session with diagnostics := session.diagnostics.report found }

def clear (session : Session) : Session := { session with diagnostics := {} }

def reset (session : Session) : Session := { session with machine := session.machine.reset }

def depthOf? (session : Session) (id : ExprId) : Option Nat := session.machine.depths[id]?

def hadError (session : Session) : Bool := session.diagnostics.hadError

def hadRuntimeError (session : Session) : Bool := session.diagnostics.hadRuntimeError

def tokenize (session : Session) (source : String) : List Token × Session :=
  let (tokens, errors) := Token.split (Token.scan source)
  (tokens, session.report (errors.map .lexical))

def parse (session : Session) (source : String) : List Stmt × Session :=
  let (tokens, session) := session.tokenize source
  let reading := Parse.program tokens session.supply
  (reading.tree,
    { session.report (reading.errors.map .syntactic) with supply := reading.supply })

def parseExpression (session : Session) (source : String) : Option Expr × Session :=
  let (tokens, session) := session.tokenize source
  let reading := Parse.expression tokens session.supply
  (reading.tree,
    { session.report (reading.errors.map .syntactic) with supply := reading.supply })

def resolve (session : Session) (resolution : Resolution) : Session :=
  { session.report (resolution.errors.map .scoping) with
    machine := session.machine.record resolution.depths }

/-- Performs a run on the machine; its error, if any, is handed back. -/
def perform {α : Type} (session : Session) (run : Run α) :
    Option (Except RuntimeError α × Session) :=
  match run session.machine with
  | .ok value machine => some (.ok value, { session with machine })
  | .error (.error error) machine => some (.error error, { session with machine })
  | .error .outOfFuel _ => none

def performReporting {α : Type} (session : Session) (run : Run α) :
    Option (Option α × Session) :=
  match session.perform run with
  | some (.ok value, session) => some (some value, session)
  | some (.error error, session) => some (none, session.report [.runtime error])
  | none => none

/-- The value of an expression, or the faults that kept it from having one. -/
def evaluate (fuel : Nat) (session : Session) (source : String) :
    Option (Option Value × Session) :=
  match session.parseExpression source with
  | (none, session) => some (none, session)
  | (some expr, session) =>
      if session.hadError then some (none, session)
      else
        let session := session.resolve (.ofExpr expr)
        if session.hadError then some (none, session)
        else session.performReporting (Lox.evaluate fuel expr)

/-- Runs a program unless a static fault has been reported, by it or earlier. -/
def run (fuel : Nat) (session : Session) (source : String) : Option Session :=
  let (stmts, session) := session.parse source
  if session.hadError then some session
  else
    let session := session.resolve (.ofProgram stmts)
    if session.hadError then some session
    else (session.performReporting (interpret fuel stmts)).map Prod.snd

def writeLine (session : Session) (text : String) : Except HostFault Unit × Session :=
  let (result, sink) := session.machine.host.sink.writeLine text
  (result, { session with machine.host.sink := sink })

end Session

end Lox
