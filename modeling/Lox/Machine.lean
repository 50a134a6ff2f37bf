import Lox.Host
import Lox.Scopes

/-!
The state of a run and the steps that need no evaluation. A step may end the run with an error; the
state that it has reached is kept. A run is bounded by fuel, and running out of it is told apart from
every error of the program.
-/

namespace Lox

structure Machine where
  scopes : Scopes
  fields : Array Bindings
  nextClass : Nat
  globals : Env
  env : Env
  /-- How many scopes out each use of a local name finds it. -/
  depths : Std.TreeMap ExprId Nat
  callDepth : Nat
  maxCallDepth : Nat
  host : Host

inductive Abort
  | error (error : RuntimeError)
  | outOfFuel

abbrev Run := EStateM Abort Machine

inductive Flow
  | normal
  | returned (value : Value)

namespace Machine

def defaultMaxCallDepth : Nat := 2048

def natives : Bindings :=
  Native.all.foldl (fun table native => table.insert native.name (.ofNative native)) {}

/-- A machine that has run nothing: its only scope holds the functions of the host. -/
def fresh (maxCallDepth : Nat) (host : Host) : Machine :=
  let (globals, scopes) := Scopes.empty.enter [] natives
  { scopes, fields := #[], nextClass := 0, globals, env := globals, depths := {}, callDepth := 0,
    maxCallDepth, host }

/-- Leaves the host and the limit as they are and forgets everything else. -/
def reset (machine : Machine) : Machine := fresh machine.maxCallDepth machine.host

def record (machine : Machine) (depths : List (ExprId × Nat)) : Machine :=
  { machine with
    depths := depths.foldl (fun table (id, depth) => table.insert id depth) machine.depths }

def valueOf? (machine : Machine) (id : ExprId) (name : String) : Option Value :=
  match machine.depths[id]? with
  | some depth => machine.scopes.getAt? machine.env depth name
  | none => machine.scopes.find? machine.globals name

def holderOf? (machine : Machine) (id : ExprId) (name : String) : Option Env :=
  match machine.depths[id]? with
  | some depth => machine.scopes.holderAt? machine.env depth name
  | none => machine.scopes.holder? machine.globals name

def field? (machine : Machine) (inst : Instance) (name : String) : Option Value :=
  machine.fields[inst.index]?.bind fun fields => fields[name]?

end Machine

namespace Run

variable {α : Type}

def fail (fault : RuntimeFault) (place : Token) : Run α := throw (.error ⟨fault, some place⟩)

/-- An error that the call in progress will place. -/
def failBare (fault : RuntimeFault) : Run α := throw (.error ⟨fault, none⟩)

def undefinedVariable (name : Token) : Run α := fail (.undefinedVariable name.lexeme) name

def orFailAt (place : Token) : Except RuntimeFault α → Run α
  | .ok value => pure value
  | .error fault => fail fault place

@[inline] def inside (env : Env) (step : Run α) : Run α := fun machine =>
  let present := machine.env
  match step { machine with env } with
  | .ok value after => .ok value { after with env := present }
  | .error abort after => .error abort { after with env := present }

/-- Counts a call while it runs and places its error. -/
@[inline] def nested (paren : Token) (step : Run α) : Run α := fun machine =>
  match step { machine with callDepth := machine.callDepth + 1 } with
  | .ok value after => .ok value { after with callDepth := after.callDepth - 1 }
  | .error (.error error) after =>
      .error (.error (error.orAt paren)) { after with callDepth := after.callDepth - 1 }
  | .error .outOfFuel after => .error .outOfFuel { after with callDepth := after.callDepth - 1 }

def openScope (outer : Env) (bindings : Bindings) : Run Env := fun machine =>
  let (env, scopes) := machine.scopes.enter outer bindings
  .ok env { machine with scopes }

def defineIn (env : Env) (name : String) (value : Value) : Run Unit :=
  modify fun machine => { machine with scopes := machine.scopes.define env name value }

def define (name : String) (value : Value) : Run Unit := do
  defineIn (← get).env name value

def readVariable (id : ExprId) (name : Token) : Run Value := do
  match (← get).valueOf? id name.lexeme with
  | some value => pure value
  | none => undefinedVariable name

def assignVariable (id : ExprId) (name : Token) (value : Value) : Run Unit := do
  match (← get).holderOf? id name.lexeme with
  | some holder => defineIn holder name.lexeme value
  | none => undefinedVariable name

/-- A method of an instance: its closure gets a scope of its own that binds `this`. -/
def bindMethod (method : Closure) (inst : Instance) : Run Closure := do
  let env ← openScope method.env (({} : Bindings).insert "this" (.object inst))
  pure { method with env }

def newInstance (cls : ClassObject) : Run Instance := fun machine =>
  .ok ⟨machine.fields.size, cls⟩ { machine with fields := machine.fields.push {} }

def getProperty (inst : Instance) (name : Token) : Run Value := do
  match (← get).field? inst name.lexeme with
  | some value => pure value
  | none =>
      match inst.cls.findMethod? name.lexeme with
      | some method => return .function (← bindMethod method inst)
      | none => fail (.undefinedProperty name.lexeme) name

/-- Sets a field, whether or not a method has its name. -/
def setField (inst : Instance) (name : Token) (value : Value) : Run Unit :=
  modify fun machine =>
    { machine with fields := machine.fields.modify inst.index (·.insert name.lexeme value) }

/-- A method of the superclass bound to the current instance, which lies one scope inside the
superclass. -/
def readSuper (id : ExprId) (keyword method : Token) : Run Value := do
  let machine ← get
  match machine.depths[id]? with
  | some (depth + 1) =>
      match machine.scopes.getAt? machine.env (depth + 1) "super",
          machine.scopes.getAt? machine.env depth "this" with
      | some (.callable (.constructor superclass)), some (.object inst) =>
          match superclass.findMethod? method.lexeme with
          | some found => return .function (← bindMethod found inst)
          | none => fail (.undefinedProperty method.lexeme) method
      | _, _ => fail .superOutsideClass keyword
  | _ => fail .superOutsideClass keyword

def writeLine (text : String) : Run (Except HostFault Unit) := fun machine =>
  let (result, sink) := machine.host.sink.writeLine text
  .ok result { machine with host.sink := sink }

def flush : Run (Except HostFault Unit) := fun machine =>
  let (result, sink) := machine.host.sink.flush
  .ok result { machine with host.sink := sink }

def print (keyword : Token) (value : Value) : Run Unit := do
  match ← writeLine value.text with
  | .ok () => pure ()
  | .error fault => fail (.outputFailed fault) keyword

/-- The class that a class statement makes; of two methods of one name the later counts. -/
def makeClass (name : String) (superclass : Option ClassObject) (env : Env)
    (methods : List FunctionDecl) : Run ClassObject := fun machine =>
  let table := methods.foldl
    (fun table decl => table.insert decl.name.lexeme ⟨decl, env, decl.name.lexeme = "init"⟩) {}
  let ancestors :=
    match superclass with
    | some parent => parent.chain
    | none => []
  .ok ⟨⟨machine.nextClass, name, table⟩, ancestors⟩
    { machine with nextClass := machine.nextClass + 1 }

end Run

end Lox
