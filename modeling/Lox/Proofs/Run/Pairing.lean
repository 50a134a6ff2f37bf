import Lox.Proofs.Run.Simulation

/-!
Two runs in lockstep. A pairing says which trees, tokens, identities and hosts of the two runs
correspond. Both runs open the same scopes, one after the other, so machines correspond if the same names
are bound in the same scopes. Each piece of evaluation, with the same fuel, comes to ends that correspond.
-/

namespace Lox

def Links.plain (Tokens : Token → Token → Prop) (Ids : ExprId → ExprId → Prop)
    (Exprs : Expr → Expr → Prop) (Stmts : Stmt → Stmt → Prop)
    (Decls : FunctionDecl → FunctionDecl → Prop) : Links where
  Place := Unit
  enter := id
  Open _ := True
  Tokens := Tokens
  Ids _ := Ids
  Heirs _ := Ids
  Exprs _ := Exprs
  Stmts _ := Stmts
  Decls _ := Decls

/-- Trees that correspond are parallel, and declarations that correspond are told apart in the same
way. Hosts that correspond answer alike and go on corresponding. -/
structure Pairing where
  Tokens : Token → Token → Prop
  Ids : ExprId → ExprId → Prop
  Exprs : Expr → Expr → Prop
  Stmts : Stmt → Stmt → Prop
  Decls : FunctionDecl → FunctionDecl → Prop
  Hosts : Host → Host → Prop
  kind : ∀ {token token'}, Tokens token token' → token'.kind = token.kind
  lexeme : ∀ {token token'}, Tokens token token' → token'.lexeme = token.lexeme
  expr : ∀ {expr expr'}, Exprs expr expr' →
    expr.Parallel (.plain Tokens Ids Exprs Stmts Decls) () expr'
  stmt : ∀ {stmt stmt'}, Stmts stmt stmt' →
    stmt.Parallel (.plain Tokens Ids Exprs Stmts Decls) () stmt'
  decl : ∀ {decl decl'}, Decls decl decl' →
    decl.Parallel (.plain Tokens Ids Exprs Stmts Decls) () decl'
  identity : ∀ {decl decl' other other'}, Decls decl decl' → Decls other other' →
    (decl'.id = other'.id ↔ decl.id = other.id)
  files : ∀ {host host'}, Hosts host host' → host'.files = host.files
  clock : ∀ {host host'}, Hosts host host' → host'.clock.read.1 = host.clock.read.1 ∧
    Hosts { host with clock := host.clock.read.2 } { host' with clock := host'.clock.read.2 }
  written : ∀ {host host'} files, Hosts host host' →
    Hosts { host with files } { host' with files }
  takeLine : ∀ {host host'}, Hosts host host' → host'.takeLine.1 = host.takeLine.1 ∧
    Hosts host.takeLine.2 host'.takeLine.2
  writeLine : ∀ {host host'} text, Hosts host host' →
    (host'.sink.writeLine text).1 = (host.sink.writeLine text).1 ∧
    Hosts { host with sink := (host.sink.writeLine text).2 }
      { host' with sink := (host'.sink.writeLine text).2 }

structure Closure.Pairs (pairing : Pairing) (closure closure' : Closure) : Prop where
  decl : pairing.Decls closure.decl closure'.decl
  env : closure'.env = closure.env
  isInitializer : closure'.isInitializer = closure.isInitializer

def Pairing.kin (pairing : Pairing) : Kinship where
  Functions := Closure.Pairs pairing
  Methods := Closure.Pairs pairing
  name paired := pairing.lexeme (pairing.decl paired.decl).name
  arity paired := (pairing.decl paired.decl).params.length_eq.symm
  methodArity paired := (pairing.decl paired.decl).params.length_eq.symm
  same paired paired' := by
    simp only [Closure.same, paired.env, paired'.env, pairing.identity paired.decl paired'.decl]

/-- The same names are bound in the same scopes, to values that correspond. -/
structure Machine.Pairs (pairing : Pairing) (machine machine' : Machine) : Prop where
  size : machine'.scopes.tables.size = machine.scopes.tables.size
  scopes : ∀ ref name, Option.Rel (Value.Alike pairing.kin)
    (machine.scopes.lookUp? ref name) (machine'.scopes.lookUp? ref name)
  fields : FieldsMatch (Value.Alike pairing.kin) machine.fields machine'.fields
  nextClass : machine'.nextClass = machine.nextClass
  globals : machine'.globals = machine.globals
  env : machine'.env = machine.env
  depths : ∀ id id', pairing.Ids id id' → machine'.depths[id']? = machine.depths[id]?
  callDepth : machine'.callDepth = machine.callDepth
  maxCallDepth : machine'.maxCallDepth = machine.maxCallDepth
  host : pairing.Hosts machine.host machine'.host

namespace Machine.Pairs

variable {pairing : Pairing} {machine machine' : Machine}

theorem fresh (maxCallDepth : Nat) {host host' : Host} (hosts : pairing.Hosts host host') :
    (Machine.fresh maxCallDepth host).Pairs pairing (.fresh maxCallDepth host') where
  size := rfl
  scopes := by
    intro ref name
    simp only [Machine.fresh, Scopes.lookUp?_enter]
    split
    · have natives : TablesMatch (Value.Alike pairing.kin) Machine.natives Machine.natives := by
        have same : List.Forall₂ Eq Native.all Native.all := List.forall₂_refl _
        refine .fill (fun _ _ same => congrArg Native.name same.symm) (fun _ _ same => ?_) same .empty
        subst same
        exact .callable (.native _)
      exact natives name
    · exact .none
  fields := ⟨rfl, fun _ _ => .none⟩
  nextClass := rfl
  globals := rfl
  env := rfl
  depths id id' _ := rfl
  callDepth := rfl
  maxCallDepth := rfl
  host := hosts

variable (paired : machine.Pairs pairing machine')

include paired

theorem store : machine.scopes.Alike Eq (Value.Alike pairing.kin) machine'.scopes where
  inj := by
    rintro _ _ _ _ rfl rfl
    rfl
  inStore := by
    rintro _ _ rfl
    rw [paired.size]
  bound := by
    rintro _ _ rfl
    exact paired.scopes _

theorem enter (outer : Env) {bindings bindings' : Bindings}
    (related : TablesMatch (Value.Alike pairing.kin) bindings bindings') :
    (machine'.scopes.enter outer bindings').1 = (machine.scopes.enter outer bindings).1 ∧
      Machine.Pairs pairing { machine with scopes := (machine.scopes.enter outer bindings).2 }
        { machine' with scopes := (machine'.scopes.enter outer bindings').2 } := by
  refine ⟨?_, { paired with size := ?_, scopes := ?_ }⟩
  · simp only [Scopes.enter, paired.size]
  · simp only [Scopes.enter, Array.size_push, paired.size]
  · intro ref name
    rw [Scopes.lookUp?_enter, Scopes.lookUp?_enter, paired.size]
    split
    · exact related name
    · exact paired.scopes ref name

theorem define {env env' : Env} (heads : Option.Rel Eq env.head? env'.head?) (name : String)
    {value value' : Value} (related : value.Alike pairing.kin value') :
    Machine.Pairs pairing { machine with scopes := machine.scopes.define env name value }
      { machine' with scopes := machine'.scopes.define env' name value' } := by
  refine { paired with size := ?_, scopes := ?_ }
  · rw [Scopes.size_define, Scopes.size_define, paired.size]
  · exact fun _ => (paired.store.define heads name related).bound rfl

theorem valueOf? {id id' : ExprId} (known : pairing.Ids id id') (name : String) :
    Option.Rel (Value.Alike pairing.kin) (machine.valueOf? id name) (machine'.valueOf? id' name) := by
  unfold Machine.valueOf?
  rw [paired.depths id id' known, paired.env, paired.globals]
  split
  · exact paired.store.getAt? (relRefl (fun _ => rfl) _) name
  · exact paired.store.find? (List.forall₂_refl _) name

theorem holderOf? {id id' : ExprId} (known : pairing.Ids id id') (name : String) :
    Option.Rel (fun holder holder' => Option.Rel Eq holder.head? holder'.head?)
      (machine.holderOf? id name) (machine'.holderOf? id' name) := by
  unfold Machine.holderOf?
  rw [paired.depths id id' known, paired.env, paired.globals]
  split
  · exact paired.store.holderAt? (relRefl (fun _ => rfl) _) name
  · exact paired.store.holder? (List.forall₂_refl _) name

end Machine.Pairs

namespace Pairing

variable (pairing : Pairing)

def correspondence : Correspondence where
  toLinks := .plain pairing.Tokens pairing.Ids pairing.Exprs pairing.Stmts pairing.Decls
  World := Unit
  later _ _ := True
  kin _ := pairing.kin
  Envs _ _ env env' := env' = env
  Machines _ _ := Machine.Pairs pairing

theorem step {machine machine' : Machine} (paired : machine.Pairs pairing machine') {deed deed' : Deed}
    {R : pairing.correspondence.World → deed.Result → deed'.Result → Prop}
    (deeds : Deed.Alike pairing.correspondence () () deed deed' R) :
    R () (deed.answer machine) (deed'.answer machine') ∧
      (deed.change machine).Pairs pairing (deed'.change machine') := by
  cases deeds with
  | value name ids => exact ⟨paired.valueOf? ids name, paired⟩
  | assign name ids values =>
      simp only [Deed.answer, Deed.change]
      rcases relCases (paired.holderOf? ids name) with
        ⟨none, none'⟩ | ⟨holder, holder', found, found', heads⟩
      · rw [none, none']
        exact ⟨rfl, paired⟩
      · rw [found, found']
        exact ⟨rfl, paired.define heads name values⟩
  | env => exact ⟨paired.env, paired⟩
  | define name _ values =>
      refine ⟨trivial, paired.define ?_ name values⟩
      rw [paired.env]
      exact relRefl (fun _ => rfl) _
  | openScope envs tables =>
      subst envs
      exact paired.enter _ tables
  | newInstance classes =>
      exact ⟨⟨paired.fields.size, classes⟩, { paired with fields := paired.fields.push }⟩
  | field name index =>
      refine ⟨?_, paired⟩
      simp only [Deed.answer, Machine.field?, index]
      exact paired.fields.stored _ name
  | setField index lexeme values =>
      refine ⟨trivial, { paired with fields := ?_ }⟩
      simp only [Deed.change, index, lexeme]
      exact paired.fields.modify _ _ values
  | heritage ids =>
      refine ⟨?_, paired⟩
      simp only [Deed.answer, Deed.inherited, paired.depths _ _ ids, paired.env]
      split
      · exact Value.Alike.heirs (paired.store.getAt? (relRefl (fun _ => rfl) _) _)
          (paired.store.getAt? (relRefl (fun _ => rfl) _) _)
      · exact .none
  | receiver _ envs =>
      subst envs
      exact ⟨paired.store.getAt? (relRefl (fun _ => rfl) _) "this", paired⟩
  | makeClass name superclass envs decls =>
      subst envs
      refine ⟨.made paired.nextClass name superclass decls ?_ ?_,
        { paired with nextClass := congrArg (· + 1) paired.nextClass }⟩
      · exact fun decl decl' declared => pairing.lexeme (pairing.decl declared).name
      · exact fun decl decl' _ declared => ⟨declared, rfl, rfl⟩
  | writeLine same =>
      subst same
      obtain ⟨same, host⟩ := pairing.writeLine _ paired.host
      exact ⟨same, { paired with host }⟩
  | readLine =>
      obtain ⟨same, host⟩ := pairing.takeLine paired.host
      exact ⟨same, { paired with host }⟩
  | readFile path => exact ⟨by simp only [Deed.answer, pairing.files paired.host], paired⟩
  | writeFile path same =>
      subst same
      simp only [Deed.answer, Deed.change, pairing.files paired.host, true_and]
      split
      · exact { paired with host := pairing.written _ paired.host }
      · exact paired
  | clock =>
      obtain ⟨same, host⟩ := pairing.clock paired.host
      exact ⟨same, { paired with host }⟩

def simulation : Simulation where
  toCorrespondence := pairing.correspondence
  refl _ := trivial
  trans _ _ := trivial
  open_enter _ := trivial
  kind := pairing.kind
  lexeme := pairing.lexeme
  expr := pairing.expr
  stmt := pairing.stmt
  decl := pairing.decl
  envs _ same := same
  function_iff := ⟨fun paired => ⟨paired.isInitializer, (), trivial, paired.env, paired.decl⟩,
    fun ⟨isInitializer, _, _, env, decl⟩ => ⟨decl, env, isInitializer⟩⟩
  method_iff := ⟨fun paired => ⟨paired.isInitializer, (), paired.env, paired.decl⟩,
    fun ⟨isInitializer, _, env, decl⟩ => ⟨decl, env, isInitializer⟩⟩
  inside paired same := { paired with env := same }
  outside _ paired ended := { ended with env := paired.env }
  callDepth paired := ⟨paired.callDepth, paired.maxCallDepth⟩
  atDepth paired change := { paired with callDepth := congrArg change paired.callDepth }
  step paired deeds := ⟨(), trivial, pairing.step paired deeds⟩

end Pairing

inductive Ended (pairing : Pairing) {α β : Type} (R : α → β → Prop) :
    EStateM.Result Abort Machine α → EStateM.Result Abort Machine β → Prop
  | ok {value value' after after'} : R value value' → after.Pairs pairing after' →
      Ended pairing R (.ok value after) (.ok value' after')
  | error {abort abort' after after'} : abort.Alike pairing.Tokens abort' →
      after.Pairs pairing after' →
      Ended pairing R (.error abort after) (.error abort' after')

namespace Run

variable {α α' : Type} {pairing : Pairing} {R : α → α' → Prop}

def Pairs (pairing : Pairing) (R : α → α' → Prop) (step : Run α) (step' : Run α') : Prop :=
  ∀ machine machine', machine.Pairs pairing machine' →
    Ended pairing R (step machine) (step' machine')

theorem Pairs.final {step : Run α} {step' : Run α'} {machine machine' : Machine}
    (steps : Pairs pairing R step step') (paired : machine.Pairs pairing machine') :
    (step.final machine).Pairs pairing (step'.final machine') := by
  have ended := steps machine machine' paired
  unfold Run.final
  generalize step machine = result at ended
  generalize step' machine' = result' at ended
  cases ended with
  | ok _ after => exact after
  | error _ after => exact after

end Run

section Evaluation

variable {pairing : Pairing}

theorem Task.pairs {task task' : Task} {R : pairing.simulation.World → task.Result → task'.Result → Prop}
    (tasks : Task.Alike pairing.simulation () () task task' R) :
    Run.Pairs pairing (R ()) task.run task'.run := by
  intro machine machine' paired
  have ended := Simulation.run tasks paired
  generalize task.run machine = result at ended
  generalize task'.run machine' = result' at ended
  cases ended with
  | ok _ related after => exact .ok related after
  | error _ raised after => exact .error raised after

theorem evaluate_pairs (fuel : Nat) {expr expr' : Expr} (paired : pairing.Exprs expr expr') :
    Run.Pairs pairing (Value.Alike pairing.kin) (evaluate fuel expr) (evaluate fuel expr') :=
  Task.pairs (.evaluate fuel paired)

theorem executeProgram_pairs (fuel : Nat) {stmts stmts' : List Stmt}
    (paired : List.Forall₂ pairing.Stmts stmts stmts') :
    Run.Pairs pairing (fun _ _ => True) (executeProgram fuel stmts) (executeProgram fuel stmts') :=
  Task.pairs (.executeProgram fuel paired)

end Evaluation

end Lox
