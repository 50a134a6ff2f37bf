import Lox.Value

/-!
The store of scopes. A scope binds names to values and lies in the scopes that were around it when it
was opened. A name can be looked for from the innermost scope outwards, or in the scope that lies a
known number of steps out and in no other.
-/

namespace Lox

abbrev Bindings := Std.TreeMap String Value

structure Scopes where
  tables : Array Bindings

namespace Scopes

def empty : Scopes := ⟨#[]⟩

def lookUp? (scopes : Scopes) (ref : ScopeRef) (name : String) : Option Value :=
  scopes.tables[ref.index]?.bind fun table => table[name]?

/-- Opens a scope with these bindings inside `outer`; with no scope around it, it is a root. -/
def enter (scopes : Scopes) (outer : Env) (bindings : Bindings) : Env × Scopes :=
  (⟨scopes.tables.size⟩ :: outer, ⟨scopes.tables.push bindings⟩)

/-- Binds a name in the innermost scope, replacing any earlier binding. -/
def define (scopes : Scopes) (env : Env) (name : String) (value : Value) : Scopes :=
  match env with
  | [] => scopes
  | ref :: _ => ⟨scopes.tables.modify ref.index (·.insert name value)⟩

def find? (scopes : Scopes) (env : Env) (name : String) : Option Value :=
  env.findSome? fun ref => scopes.lookUp? ref name

/-- The innermost scope that binds a name, with those around it. -/
def holder? (scopes : Scopes) (env : Env) (name : String) : Option Env :=
  match env with
  | [] => none
  | ref :: outer =>
      if (scopes.lookUp? ref name).isSome then some (ref :: outer) else scopes.holder? outer name

def assign? (scopes : Scopes) (env : Env) (name : String) (value : Value) : Option Scopes :=
  (scopes.holder? env name).map fun holder => scopes.define holder name value

def ancestor? (env : Env) (distance : Nat) : Option Env :=
  match env.drop distance with
  | [] => none
  | ref :: outer => some (ref :: outer)

def getAt? (scopes : Scopes) (env : Env) (distance : Nat) (name : String) : Option Value :=
  match env.drop distance with
  | [] => none
  | ref :: _ => scopes.lookUp? ref name

def holderAt? (scopes : Scopes) (env : Env) (distance : Nat) (name : String) : Option Env :=
  match env.drop distance with
  | [] => none
  | ref :: outer => if (scopes.lookUp? ref name).isSome then some (ref :: outer) else none

def assignAt? (scopes : Scopes) (env : Env) (distance : Nat) (name : String) (value : Value) :
    Option Scopes :=
  (scopes.holderAt? env distance name).map fun holder => scopes.define holder name value

end Scopes

end Lox
