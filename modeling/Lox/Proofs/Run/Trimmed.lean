import Lox.Proofs.Run.Discipline
import Lox.Proofs.Run.Idle

/-!
Runs without idle scopes. From machines that correspond, the evaluation of trees that correspond comes
to ends that correspond: the same errors at the same places, the same effects on the host, and the same
values in the scopes that both runs have.
-/

namespace Lox

/-- The machines hold the same in the scopes that both have; those on the roster are all that the
trimmed run has. The mask says which of the present scopes are idle. -/
structure Machine.Trims (tables : Tables) (roster : Roster) (mask : Mask)
    (machine machine' : Machine) : Prop where
  nodup : roster.Nodup
  inStore : ∀ ref ∈ roster, ref.index < machine.scopes.tables.size
  size : machine'.scopes.tables.size = roster.length
  scopes : ∀ ref ref', roster.Link ref ref' → ∀ name, Option.Rel (Value.Trims tables roster)
    (machine.scopes.lookUp? ref name) (machine'.scopes.lookUp? ref' name)
  instances : machine'.fields.size = machine.fields.size
  fields : ∀ (index : Nat) (name : String), Option.Rel (Value.Trims tables roster)
    (machine.fields[index]?.bind fun fields => fields[name]?)
    (machine'.fields[index]?.bind fun fields => fields[name]?)
  nextClass : machine'.nextClass = machine.nextClass
  globals : List.Forall₂ roster.Link machine.globals machine'.globals
  env : Env.Trims roster mask machine.env machine'.env
  full : machine.depths = tables.full
  trimmed : machine'.depths = tables.trimmed
  callDepth : machine'.callDepth = machine.callDepth
  maxCallDepth : machine'.maxCallDepth = machine.maxCallDepth
  host : machine'.host = machine.host

namespace Machine.Trims

variable {tables : Tables} {roster : Roster} {mask : Mask}
  {machine machine' : Machine}

section Same

variable (trims : machine.Trims tables roster mask machine')

include trims

theorem inEnv {inner : Mask} {env env' : Env} (envs : Env.Trims roster inner env env') :
    Machine.Trims tables roster inner { machine with env } { machine' with env := env' } :=
  { trims with env := envs }

theorem store : machine.scopes.Alike roster.Link (Value.Trims tables roster) machine'.scopes where
  inj := Roster.link_inj trims.nodup
  inStore := fun {ref ref'} link => by
    have inside := trims.inStore ref (List.mem_of_getElem? link)
    have inside' := (List.getElem?_eq_some_iff.mp link).1
    rw [← trims.size] at inside'
    exact iff_of_true inside' inside
  bound := fun link => trims.scopes _ _ link

theorem enter (outer outer' : Env) {bindings bindings' : Bindings}
    (related : TablesMatch (Value.Trims tables roster) bindings bindings') :
    Machine.Trims tables (roster ++ [⟨machine.scopes.tables.size⟩]) mask
      { machine with scopes := (machine.scopes.enter outer bindings).2 }
      { machine' with scopes := (machine'.scopes.enter outer' bindings').2 } := by
  have grown : roster <+: roster ++ [⟨machine.scopes.tables.size⟩] := List.prefix_append _ _
  have fresh : (⟨machine.scopes.tables.size⟩ : ScopeRef) ∉ roster := fun member =>
    Nat.lt_irrefl _ (trims.inStore _ member)
  refine { trims with
    nodup := List.Nodup.append trims.nodup (List.nodup_singleton _) (by simpa using fresh)
    inStore := ?_
    size := ?_
    scopes := ?_
    fields := fun index name => relImp (fun _ _ value => value.mono grown) (trims.fields index name)
    globals := trims.globals.imp fun _ _ link => link.mono grown
    env := trims.env.mono grown }
  · intro ref member
    simp only [Scopes.enter, Array.size_push]
    rcases List.mem_append.mp member with member | member
    · exact Nat.lt_succ_of_lt (trims.inStore ref member)
    · rw [List.mem_singleton.mp member]
      exact Nat.lt_succ_self _
  · simp [Scopes.enter, trims.size]
  · intro ref ref' link name
    rw [Scopes.lookUp?_enter, Scopes.lookUp?_enter]
    by_cases last : ref'.index = roster.length
    · have same : ref.index = machine.scopes.tables.size := by
        rw [Roster.Link, last, List.getElem?_concat_length] at link
        exact congrArg ScopeRef.index (Option.some.inj link).symm
      rw [if_pos same, if_pos (last.trans trims.size.symm)]
      exact relImp (fun _ _ value => value.mono grown) (related name)
    · have inside : ref'.index < roster.length := by
        have bound := (List.getElem?_eq_some_iff.mp link).1
        rw [List.length_append, List.length_singleton] at bound
        omega
      rw [Roster.Link, List.getElem?_append_left inside] at link
      have earlier := trims.inStore ref (List.mem_of_getElem? link)
      rw [if_neg earlier.ne, if_neg (trims.size ▸ last)]
      exact relImp (fun _ _ value => value.mono grown) (trims.scopes ref ref' link name)

theorem link_enter : Roster.Link (roster ++ [⟨machine.scopes.tables.size⟩])
    ⟨machine.scopes.tables.size⟩ ⟨machine'.scopes.tables.size⟩ := by
  rw [Roster.Link, trims.size]
  exact List.getElem?_concat_length

theorem enterIdle (outer : Env) (bindings : Bindings) :
    Machine.Trims tables roster mask
      { machine with scopes := (machine.scopes.enter outer bindings).2 } machine' := by
  refine { trims with inStore := ?_, scopes := ?_ }
  · intro ref member
    simp only [Scopes.enter, Array.size_push]
    exact Nat.lt_succ_of_lt (trims.inStore ref member)
  · intro ref ref' link name
    have earlier := trims.inStore ref (List.mem_of_getElem? link)
    rw [Scopes.lookUp?_enter, if_neg earlier.ne]
    exact trims.scopes ref ref' link name

theorem define {env env' : Env} (heads : Option.Rel roster.Link env.head? env'.head?)
    (name : String) {value value' : Value} (related : value.Trims tables roster value') :
    Machine.Trims tables roster mask
      { machine with scopes := machine.scopes.define env name value }
      { machine' with scopes := machine'.scopes.define env' name value' } := by
  refine { trims with inStore := ?_, size := ?_, scopes := ?_ }
  · rw [Scopes.size_define]
    exact trims.inStore
  · rw [Scopes.size_define, trims.size]
  · exact fun _ _ link => (trims.store.define heads name related).bound link

theorem valueOf? {id id' : ExprId}
    (known : Option.Rel (Passes mask) tables.full[id]? tables.trimmed[id']?)
    (name : String) :
    Option.Rel (Value.Trims tables roster) (machine.valueOf? id name)
      (machine'.valueOf? id' name) := by
  unfold Machine.valueOf?
  rw [trims.full, trims.trimmed]
  rcases relCases known with ⟨none, none'⟩ | ⟨depth, depth', found, found', passes⟩
  · rw [none, none']
    exact trims.store.find? trims.globals name
  · rw [found, found']
    exact trims.store.getAt? (trims.env.head_drop passes) name

theorem holderOf? {id id' : ExprId}
    (known : Option.Rel (Passes mask) tables.full[id]? tables.trimmed[id']?)
    (name : String) :
    Option.Rel (fun holder holder' => Option.Rel roster.Link holder.head? holder'.head?)
      (machine.holderOf? id name) (machine'.holderOf? id' name) := by
  unfold Machine.holderOf?
  rw [trims.full, trims.trimmed]
  rcases relCases known with ⟨none, none'⟩ | ⟨depth, depth', found, found', passes⟩
  · rw [none, none']
    exact trims.store.holder? trims.globals name
  · rw [found, found']
    exact trims.store.holderAt? (trims.env.head_drop passes) name

theorem fieldsMatch : FieldsMatch (Value.Trims tables roster) machine.fields machine'.fields :=
  ⟨trims.instances, trims.fields⟩

theorem inherited {id id' : ExprId}
    (known : Option.Rel (PassesInside mask) tables.full[id]? tables.trimmed[id']?) :
    Option.Rel (fun heir heir' : ClassObject × Instance =>
        heir.1.Alike (tables.kin ⟨roster, trims.nodup⟩) heir'.1 ∧
          heir.2.Alike (tables.kin ⟨roster, trims.nodup⟩) heir'.2)
      (Deed.inherited machine id) (Deed.inherited machine' id') := by
  have found {depth depth' : Nat} (passes : Passes mask depth depth') (name : String) :=
    relImp (fun _ _ => (@Value.trims_iff tables ⟨roster, trims.nodup⟩ _ _).mp)
      (trims.store.getAt? (trims.env.head_drop passes) name)
  unfold Deed.inherited
  rw [trims.full, trims.trimmed]
  rcases relCases known with ⟨none, none'⟩ | ⟨depth, depth', recorded, recorded', passes⟩
  · rw [none, none']
    exact .none
  · rw [recorded, recorded']
    cases passes with
    | innermost => exact .none
    | within outer inner => exact Value.Alike.heirs (found outer "super") (found inner "this")

end Same

end Machine.Trims

/-! Steps of the two runs. What a step yields may refer to scopes that it has opened, so a result is
related by the roster at its end. -/

namespace Run

variable {α α' β β' : Type}

inductive TrimsEnd (tables : Tables) (roster : Roster) (mask : Mask)
    (R : Roster → α → α' → Prop) :
    EStateM.Result Abort Machine α → EStateM.Result Abort Machine α' → Prop
  | ok {later value value' after after'} : roster <+: later → R later value value' →
      after.Trims tables later mask after' →
      TrimsEnd tables roster mask R (.ok value after) (.ok value' after')
  | error (abort : Abort) {later after after'} : roster <+: later →
      after.Trims tables later mask after' →
      TrimsEnd tables roster mask R (.error abort after) (.error abort after')

theorem TrimsEnd.since {tables : Tables} {roster later : Roster} {mask : Mask}
    {R : Roster → α → α' → Prop} {result : EStateM.Result Abort Machine α}
    {result' : EStateM.Result Abort Machine α'}
    (ended : TrimsEnd tables later mask R result result') (grown : roster <+: later) :
    TrimsEnd tables roster mask R result result' := by
  cases ended with
  | ok grown' related after => exact .ok (grown.trans grown') related after
  | error abort grown' after => exact .error abort (grown.trans grown') after

def Trims (tables : Tables) (roster : Roster) (mask : Mask)
    (R : Roster → α → α' → Prop) (step : Run α) (step' : Run α') : Prop :=
  ∀ later, roster <+: later → ∀ machine machine', machine.Trims tables later mask machine' →
    TrimsEnd tables later mask R (step machine) (step' machine')

namespace Trims

variable {tables : Tables} {roster : Roster} {mask : Mask}
  {R : Roster → α → α' → Prop} {S : Roster → β → β' → Prop}

theorem pure {value : α} {value' : α'}
    (related : ∀ later, roster <+: later → R later value value') :
    Trims tables roster mask R (pure value) (pure value') :=
  fun later grown _ _ trims => .ok List.prefix_rfl (related later grown) trims

theorem throw (abort : Abort) :
    Trims tables roster mask R (throw abort : Run α) (throw abort : Run α') :=
  fun _ _ _ _ trims => .error abort List.prefix_rfl trims

theorem get : Trims tables roster mask
    (fun later machine machine' => machine.Trims tables later mask machine') get get :=
  fun _ _ _ _ trims => .ok List.prefix_rfl trims trims

theorem bind {step : Run α} {step' : Run α'} {next : α → Run β} {next' : α' → Run β'}
    (first : Trims tables roster mask R step step')
    (second : ∀ later, roster <+: later → ∀ value value', R later value value' →
      Trims tables later mask S (next value) (next' value')) :
    Trims tables roster mask S (step >>= next) (step' >>= next') := by
  intro later grown machine machine' trims
  simp only [Bind.bind, EStateM.bind]
  have ended := first later grown machine machine' trims
  generalize step machine = result at ended
  generalize step' machine' = result' at ended
  cases ended with
  | error abort grown' after => exact .error abort grown' after
  | @ok middle value value' after after' grown' related trims =>
      have rest := second middle (grown.trans grown') value value' related middle List.prefix_rfl
        after after' trims
      exact rest.since grown'

theorem inside {inner : Mask} {env env' : Env} (envs : Env.Trims roster inner env env')
    {step : Run α} {step' : Run α'} (first : Trims tables roster inner R step step') :
    Trims tables roster mask R (inside env step) (inside env' step') := by
  intro later grown machine machine' trims
  have ended := first later grown _ _ (trims.inEnv (envs.mono grown))
  unfold Run.inside
  generalize step { machine with env } = result at ended
  generalize step' { machine' with env := env' } = result' at ended
  cases ended with
  | ok grown' related after => exact .ok grown' related (after.inEnv (trims.env.mono grown'))
  | error abort grown' after => exact .error abort grown' (after.inEnv (trims.env.mono grown'))

theorem openScope {inner : Mask} {outer outer' : Env} (envs : Env.Trims roster inner outer outer')
    {bindings bindings' : Bindings}
    (related : TablesMatch (Value.Trims tables roster) bindings bindings') :
    Trims tables roster mask (fun later => Env.Trims later (false :: inner))
      (openScope outer bindings) (openScope outer' bindings') := by
  intro later grown machine machine' trims
  have added := List.prefix_append later [⟨machine.scopes.tables.size⟩]
  refine .ok added (.shared trims.link_enter (envs.mono (grown.trans added)))
    (trims.enter outer outer' ?_)
  exact fun name => relImp (fun _ _ value => value.mono grown) (related name)

/-- A step in an idle scope does what it does without that scope. -/
theorem idle {step : Run α} {step' : Run α'} (keeps : Keeps step')
    (first : Trims tables roster (true :: mask) R step step') :
    Trims tables roster mask R
      (do let env ← Run.openScope (← MonadState.get).env {}
          Run.inside env step) step' := by
  intro later grown machine machine' trims
  have ended := first later grown
    { machine with
      scopes := (machine.scopes.enter machine.env {}).2
      env := (machine.scopes.enter machine.env {}).1 } machine'
    ((trims.enterIdle machine.env {}).inEnv (.idle trims.env))
  change TrimsEnd tables later mask R (Run.inside (machine.scopes.enter machine.env {}).1 step
    { machine with scopes := (machine.scopes.enter machine.env {}).2 }) _
  unfold Run.inside
  have kept := (keeps machine').env
  unfold Run.final at kept
  generalize step _ = result at ended
  generalize step' machine' = result' at ended kept
  -- the trimmed run is in its old scopes without having left them
  have back {end' : Roster} (grown' : later <+: end') {after' : Machine}
      (same : after'.env = machine'.env) : Env.Trims end' mask machine.env after'.env :=
    same ▸ trims.env.mono grown'
  cases ended with
  | ok grown' related after => exact .ok grown' related { after with env := back grown' kept }
  | error abort grown' after => exact .error abort grown' { after with env := back grown' kept }

end Trims

end Run

/-! The two runs simulate each other. -/

namespace Tables

variable (tables : Tables)

def correspondence : Correspondence where
  Place := Mask
  enter := (false :: ·)
  Open := Mask.Open
  Tokens := Eq
  Ids mask id id' := Option.Rel (Passes mask) tables.full[id]? tables.trimmed[id']?
  Heirs mask id id' := Option.Rel (PassesInside mask) tables.full[id]? tables.trimmed[id']?
  Exprs := Expr.Trims tables
  Stmts := Stmt.Trims tables
  Decls := FunctionDecl.Trims tables
  World := { roster : Roster // roster.Nodup }
  later roster next := roster.1 <+: next.1
  kin := tables.kin
  Envs roster := Env.Trims roster.1
  Machines roster mask := Machine.Trims tables roster.1 mask

theorem parallel_expr {mask : Mask} {expr expr' : Expr} (trims : expr.Trims tables mask expr') :
    expr.Parallel tables.correspondence.toLinks mask expr' := by
  cases trims with
  | literal value => exact .literal value
  | grouping inner => exact .grouping inner
  | unary operator operand => exact .unary rfl operand
  | binary operator left right => exact .binary left rfl right
  | logical operator left right => exact .logical left rfl right
  | comma operator left right => exact .comma left right
  | conditional condition thenBranch elseBranch => exact .conditional condition thenBranch elseBranch
  | var name known => exact .var known rfl
  | assign name known value => exact .assign known rfl value
  | call paren callee arguments => exact .call callee rfl arguments
  | get name object => exact .get object rfl
  | set name object value => exact .set object rfl value
  | this keyword known => exact .this known rfl
  | super keyword method known => exact .super known rfl rfl

theorem parallel_stmt {mask : Mask} {stmt stmt' : Stmt} (trims : stmt.Trims tables mask stmt') :
    stmt.Parallel tables.correspondence.toLinks mask stmt' := by
  cases trims with
  | expression value => exact .expression value
  | print keyword value => exact .print rfl value
  | varDecl name isOpen initializer => exact .varDecl isOpen rfl initializer
  | block body => exact .block body.forall₂
  | ifThen condition thenBranch => exact .ifThen condition thenBranch
  | ifElse condition thenBranch elseBranch => exact .ifElse condition thenBranch elseBranch
  | whileLoop condition body => exact .whileLoop condition body
  | functionDecl isOpen decl => exact .functionDecl isOpen decl
  | returnStmt keyword value => exact .returnStmt value
  | classDecl name isOpen superclass methods => exact .classDecl isOpen rfl superclass methods.forall₂

theorem step {roster : Roster} (nodup : roster.Nodup) {mask : Mask} {machine machine' : Machine}
    (trims : machine.Trims tables roster mask machine') {deed deed' : Deed}
    {R : tables.correspondence.World → deed.Result → deed'.Result → Prop}
    (deeds : Deed.Alike tables.correspondence ⟨roster, nodup⟩ mask deed deed' R) :
    ∃ next, tables.correspondence.later ⟨roster, nodup⟩ next ∧
      R next (deed.answer machine) (deed'.answer machine') ∧
      tables.correspondence.Machines next mask (deed.change machine) (deed'.change machine') := by
  -- most deeds open no scope
  have stays {answered : Prop} {after after' : Machine} (answer : answered)
      (changed : after.Trims tables roster mask after') :=
    And.intro (List.prefix_refl roster) (And.intro answer changed)
  have values {value value' : Option Value}
      (related : Option.Rel (Value.Trims tables roster) value value') :
      Option.Rel (Value.Alike (tables.kin ⟨roster, nodup⟩)) value value' :=
    relImp (fun _ _ => Value.trims_iff.mp) related
  cases deeds with
  | value name ids => exact ⟨⟨roster, nodup⟩, stays (values (trims.valueOf? ids name)) trims⟩
  | assign name ids value =>
      refine ⟨⟨roster, nodup⟩, ?_⟩
      simp only [Deed.answer, Deed.change]
      rcases relCases (trims.holderOf? ids name) with
        ⟨none, none'⟩ | ⟨holder, holder', found, found', heads⟩
      · rw [none, none']
        exact stays rfl trims
      · rw [found, found']
        exact stays rfl (trims.define heads name (Value.trims_iff.mpr value))
  | env => exact ⟨⟨roster, nodup⟩, stays trims.env trims⟩
  | define name isOpen value =>
      exact ⟨⟨roster, nodup⟩,
        stays trivial (trims.define (trims.env.head isOpen) name (Value.trims_iff.mpr value))⟩
  | @openScope inner outer outer' bindings bindings' envs bound =>
      have related (name : String) := relImp (fun _ _ => Value.trims_iff.mpr) (bound name)
      have entered := trims.enter outer outer' related
      have grown := List.prefix_append roster [⟨machine.scopes.tables.size⟩]
      exact ⟨⟨_, entered.nodup⟩, grown, .shared trims.link_enter (envs.mono grown), entered⟩
  | newInstance classes =>
      have pushed := trims.fieldsMatch.push
      exact ⟨⟨roster, nodup⟩, stays ⟨trims.instances, classes⟩
        { trims with instances := pushed.size, fields := pushed.stored }⟩
  | field name index =>
      refine ⟨⟨roster, nodup⟩, stays (values ?_) trims⟩
      simp only [Deed.answer, Machine.field?, index]
      exact trims.fields _ name
  | @setField inst _ name _ _ _ index lexeme value =>
      have set := trims.fieldsMatch.modify inst.index name.lexeme (Value.trims_iff.mpr value)
      refine ⟨⟨roster, nodup⟩, stays trivial ?_⟩
      simp only [Deed.change, index, lexeme]
      exact { trims with instances := set.size, fields := set.stored }
  | heritage ids => exact ⟨⟨roster, nodup⟩, stays (trims.inherited ids) trims⟩
  | receiver isOpen envs =>
      exact ⟨⟨roster, nodup⟩,
        stays (values (trims.store.getAt? (envs.head_drop (.zero isOpen)) "this")) trims⟩
  | @makeClass name _ _ inner _ _ _ _ superclass envs decls =>
      refine ⟨⟨roster, nodup⟩, stays (.made trims.nextClass name superclass decls ?_ ?_)
        { trims with nextClass := congrArg (· + 1) trims.nextClass }⟩
      · exact fun decl decl' declared => congrArg Token.lexeme declared.name
      · exact fun decl decl' _ declared => ⟨⟨inner, envs, declared⟩, rfl⟩
  | writeLine same =>
      subst same
      refine ⟨⟨roster, nodup⟩, stays ?_ { trims with host := ?_ }⟩
      · simp only [Deed.answer, trims.host]
      · simp only [Deed.change, trims.host]
  | readLine =>
      refine ⟨⟨roster, nodup⟩, stays ?_ { trims with host := ?_ }⟩
      · simp only [Deed.answer, trims.host]
      · simp only [Deed.change, trims.host]
  | readFile path =>
      refine ⟨⟨roster, nodup⟩, stays ?_ trims⟩
      simp only [Deed.answer, trims.host]
  | writeFile path same =>
      subst same
      refine ⟨⟨roster, nodup⟩, stays ?_ ?_⟩
      · simp only [Deed.answer, trims.host]
      · simp only [Deed.change, trims.host]
        split
        · exact { trims with host := rfl }
        · exact trims
  | clock =>
      refine ⟨⟨roster, nodup⟩, stays ?_ { trims with host := ?_ }⟩
      · simp only [Deed.answer, trims.host]
      · simp only [Deed.change, trims.host]

def simulation : Simulation where
  toCorrespondence := tables.correspondence
  refl _ := List.prefix_rfl
  trans := List.IsPrefix.trans
  open_enter := Mask.open_cons
  kind same := congrArg Token.kind same.symm
  lexeme same := congrArg Token.lexeme same.symm
  expr := tables.parallel_expr
  stmt := tables.parallel_stmt
  decl trims := ⟨trims.name.symm, List.forall₂_eq_eq_eq ▸ trims.params.symm, trims.body.forall₂⟩
  envs grown trims := trims.mono grown
  function_iff := ⟨fun ⟨declared, isInitializer⟩ => ⟨isInitializer, declared⟩,
    fun ⟨isInitializer, declared⟩ => ⟨declared, isInitializer⟩⟩
  method_iff := ⟨fun ⟨declared, isInitializer⟩ => ⟨isInitializer, declared⟩,
    fun ⟨isInitializer, declared⟩ => ⟨declared, isInitializer⟩⟩
  inside trims envs := trims.inEnv envs
  outside grown trims ended := ended.inEnv (trims.env.mono grown)
  callDepth trims := ⟨trims.callDepth, trims.maxCallDepth⟩
  atDepth trims change := { trims with callDepth := congrArg change trims.callDepth }
  step {world} {_} {_} {_} {_} {_} {_} trims deeds := tables.step world.2 trims deeds

end Tables

section Evaluation

variable {tables : Tables} {roster : Roster} {mask : Mask}

theorem Task.trims {task task' : Task}
    {R : tables.simulation.World → task.Result → task'.Result → Prop}
    {S : Roster → task.Result → task'.Result → Prop}
    (tasks : ∀ world, Task.Alike tables.simulation world mask task task' R)
    (implies : ∀ world result result', R world result result' → S world.1 result result') :
    Run.Trims tables roster mask S task.run task'.run := by
  intro later grown machine machine' trims
  have ended := Simulation.run (tasks ⟨later, trims.nodup⟩) trims
  generalize task.run machine = result at ended
  generalize task'.run machine' = result' at ended
  cases ended with
  | ok grown related after => exact .ok grown (implies _ _ _ related) after
  | error grown raised after =>
      rw [raised.eq fun _ _ => Eq.symm]
      exact .error _ grown after

theorem evaluate_trims (fuel : Nat) {expr expr' : Expr} (trims : expr.Trims tables mask expr') :
    Run.Trims tables roster mask (Value.Trims tables) (evaluate fuel expr) (evaluate fuel expr') :=
  Task.trims (fun _ => .evaluate fuel trims) fun _ _ _ => Value.trims_iff.mpr

theorem evaluateOr_trims (fuel : Nat) {expr expr' : Option Expr}
    (trims : Option.Rel (Expr.Trims tables mask) expr expr') :
    Run.Trims tables roster mask (Value.Trims tables) (evaluateOr fuel expr)
      (evaluateOr fuel expr') :=
  Task.trims (fun _ => .evaluateOr fuel trims) fun _ _ _ => Value.trims_iff.mpr

theorem execute_trims (fuel : Nat) {stmt stmt' : Stmt} (trims : stmt.Trims tables mask stmt') :
    Run.Trims tables roster mask (Flow.Trims tables) (execute fuel stmt) (execute fuel stmt') :=
  Task.trims (fun _ => .execute fuel trims) fun _ _ _ => Flow.trims_of_alike

end Evaluation

end Lox
