import Mathlib
import Lox.Proofs.Session.Classes
import Lox.Proofs.Session.Receiver

/-!
The construction of instances. A call of a class makes an instance that was not there before,
invokes the nearest initializer once, if there is one, and yields the instance whatever the
initializer does. An initializer that is called as a method yields the instance to which it is
bound.
-/

namespace Lox

open Run

def initializer? (statements : List ClassStatement) : Option Closure :=
  statements.findSome? (·.method? "init")

def parameterCount (statements : List ClassStatement) : Nat :=
  ((initializer? statements).map fun initializer => initializer.decl.params.length).getD 0

/-- The tasks that make a new instance ready: its initializer is bound to it and invoked once, with
the arguments of the class. -/
inductive Initializes (inst : Instance) (arguments : List Value) :
    Option Closure → List (Task × Machine) → Prop
  | nothing : Initializes inst arguments none []
  | once {initializer fuel created bound} :
      bound.scopes.getAt? (initializer.boundIn created).env 0 "this" = some (.object inst) →
      Initializes inst arguments (some initializer)
        [(.bindMethod initializer inst, created),
          (.invokeFunction fuel (initializer.boundIn created) arguments, bound)]

section Calls

variable {moment : Task → Machine → Prop} {cls : ClassObject} {statements : List ClassStatement}
  (descends : Descends moment cls statements) {fuel : Nat} {paren : Token}
  {arguments : List Value} {machine : Machine}

include descends

theorem Descends.arity_eq : cls.arity = parameterCount statements := by
  unfold ClassObject.arity parameterCount initializer?
  rw [descends.findMethod?]
  cases statements.findSome? (·.method? "init") <;> rfl

theorem Descends.call_refused (wrong : arguments.length ≠ parameterCount statements) :
    call (fuel + 1) (.ofClass cls) paren arguments machine =
      .error (.error ⟨.wrongArgumentCount (parameterCount statements) arguments.length, some paren⟩)
        machine := by
  have refused : arguments.length ≠ (Callable.constructor cls).arity := by
    rwa [Callable.arity, descends.arity_eq]
  rw [← descends.arity_eq]
  simp only [call, Value.ofClass, Value.callable?, if_pos refused]
  rfl

theorem Descends.call_accepted (enough : arguments.length = parameterCount statements) :
    call (fuel + 1) (.ofClass cls) paren arguments machine =
      guarded paren (invoke fuel (.constructor cls) arguments) machine := by
  have passed : ¬ arguments.length ≠ (Callable.constructor cls).arity := by
    rw [Callable.arity, descends.arity_eq]
    exact not_not.mpr enough
  simp only [call, Value.ofClass, Value.callable?, if_neg passed]
  rfl

end Calls

section Results

variable {fuel : Nat} {paren : Token} {arguments : List Value} {machine after : Machine}
  {value : Value}

theorem ok_of_call {function : Value} {callee : Callable}
    (callable : function.callable? = some callee)
    (ended : call (fuel + 1) function paren arguments machine = .ok value after) :
    arguments.length = callee.arity ∧ machine.callDepth < machine.maxCallDepth ∧
      ∃ last, invoke fuel callee arguments machine.calling = .ok value last ∧
        after = { last with callDepth := last.callDepth - 1 } := by
  simp only [call, callable] at ended
  split at ended
  · cases ended
  · rename_i enough
    have guard : (Setting.nested paren).around (invoke fuel callee arguments) machine =
      .ok value after := ended
    obtain ⟨present, last, entered, invoked, left⟩ := Setting.ok_of_around guard
    obtain ⟨room, ⟨⟩⟩ := Option.ite_none_right_eq_some.mp entered
    exact ⟨not_not.mp enough, room, last, invoked, left⟩

theorem ok_of_construct {cls : ClassObject}
    (ended : invoke fuel (.constructor cls) arguments machine = .ok value after) :
    value = .object ⟨machine.fields.size, cls⟩ := by
  cases fuel with
  | zero => cases ended
  | succ fuel =>
      unfold invoke at ended
      obtain ⟨inst, middle, created, ended⟩ := ok_of_bind ended
      cases created
      cases found : cls.findMethod? "init" with
      | none =>
          rw [found] at ended
          cases ended
          rfl
      | some initializer =>
          rw [found] at ended
          obtain ⟨bound, next, -, ended⟩ := ok_of_bind ended
          obtain ⟨result, last, -, ended⟩ := ok_of_bind ended
          cases ended
          rfl

theorem initializes_stages (cls : ClassObject) :
    Initializes ⟨machine.fields.size, cls⟩ arguments (cls.findMethod? "init")
      ((Task.invoke (fuel + 1) (.constructor cls) arguments).stages machine) := by
  simp only [Task.stages, Task.plan, Plan.ofCallable, Plan.stages, Deed.answer, Deed.change]
  cases cls.findMethod? "init" with
  | none => exact .nothing
  | some initializer =>
      obtain ⟨bound, ended, -, this⟩ := bindMethod_eq initializer ⟨machine.fields.size, cls⟩
        { machine with fields := machine.fields.push {} }
      simp only [Plan.stages, Setting.enter?, Setting.around, Task.run, ended]
      split <;> exact .once this

theorem ok_of_initializer {closure : Closure} (initializes : closure.isInitializer = true)
    (ended : invokeFunction fuel closure arguments machine = .ok value after) :
    after.scopes.getAt? closure.env 0 "this" = some value := by
  cases fuel with
  | zero => cases ended
  | succ fuel =>
      unfold invokeFunction at ended
      obtain ⟨env, entered, -, ended⟩ := ok_of_bind ended
      obtain ⟨flow, last, -, ended⟩ := ok_of_bind ended
      simp only [functionResult, initializes, if_true] at ended
      obtain ⟨_, _, ⟨⟩, ended⟩ := ok_of_bind ended
      cases found : last.scopes.getAt? closure.env 0 "this" with
      | some result =>
          rw [found] at ended
          cases ended
          exact found
      | none =>
          rw [found] at ended
          cases ended

end Results

theorem Substep.retrieves {fuel : Nat} {object : Expr} {name : Token} {machine middle : Machine}
    {method : Closure} {inst : Instance}
    (step : Substep (.evaluate fuel (.get object name)) machine (.bindMethod method inst) middle) :
    inst.cls.findMethod? name.lexeme = some method ∧
      ∃ after, evaluate fuel (.get object name) machine =
          .ok (.function (method.boundIn middle)) after ∧
        after.scopes.getAt? (method.boundIn middle).env 0 "this" = some (.object inst) := by
  cases step with
  | getMethod ended absent found =>
      obtain ⟨after, bound, -, this⟩ := bindMethod_eq method inst middle
      refine ⟨found, after, ?_, this⟩
      unfold evaluate
      simp only [Bind.bind, EStateM.bind, ended]
      rw [getProperty_method absent found]
      simp only [Bind.bind, EStateM.bind, bound]
      rfl

/-- A call of a class in a state: what is known of it by the statements that have made the class. -/
structure Constructs (past : List Event) (machine : Machine) (cls : ClassObject)
    (statements : List ClassStatement) (fuel : Nat) (paren : Token) (arguments : List Value) :
    Prop where
  refused : arguments.length ≠ parameterCount statements →
    call (fuel + 1) (.ofClass cls) paren arguments machine =
      .error (.error ⟨.wrongArgumentCount (parameterCount statements) arguments.length, some paren⟩)
        machine
  accepted : arguments.length = parameterCount statements →
    call (fuel + 1) (.ofClass cls) paren arguments machine =
      guarded paren (invoke fuel (.constructor cls) arguments) machine
  yields : ∀ value after, call (fuel + 1) (.ofClass cls) paren arguments machine = .ok value after →
    ∃ inst, value = .object inst ∧ inst.cls = cls ∧
      (∀ other, History.Known past machine other → value.equals other = false) ∧
      (Task.call (fuel + 1) (.ofClass cls) paren arguments).stages machine =
        [(.invoke fuel (.constructor cls) arguments, machine.calling)] ∧
      Initializes inst arguments (initializer? statements)
        ((Task.invoke fuel (.constructor cls) arguments).stages machine.calling)

theorem Value.Present.equals_eq_false {moment : Task → Machine → Prop} {machine : Machine}
    {other : Value} (present : other.Present moment machine) (cls : ClassObject) :
    (Value.object ⟨machine.fields.size, cls⟩).equals other = false := by
  cases other with
  | object inst =>
      have older : inst.index < machine.fields.size := present.1
      simp only [equals, decide_eq_false_iff_not]
      omega
  | _ => rfl

theorem Descends.constructs {moment : Task → Machine → Prop}
    {cls : ClassObject} {statements : List ClassStatement}
    (descends : Descends moment cls statements) {past : List Event} {machine : Machine}
    (present : ∀ other, History.Known past machine other → other.Present moment machine)
    (fuel : Nat) (paren : Token) (arguments : List Value) :
    Constructs past machine cls statements fuel paren arguments := by
  refine ⟨descends.call_refused, descends.call_accepted, fun value after ended => ?_⟩
  obtain ⟨enough, free, last, invoked, -⟩ := ok_of_call rfl ended
  obtain rfl := ok_of_construct invoked
  refine ⟨_, rfl, rfl, fun other known => (present other known).equals_eq_false cls, ?_, ?_⟩
  · simp only [Task.stages, Task.plan, Plan.ofCall, Value.ofClass, Value.callable?, ne_eq, enough,
      not_true, if_false, Plan.stages, Setting.enter?, if_pos free]
    split <;> rfl
  · cases fuel with
    | zero => cases invoked
    | succ fuel =>
        unfold initializer?
        rw [← descends.findMethod?]
        exact initializes_stages cls

namespace History

variable {history : History} {session : Session} {launch : Launch}

theorem Driven.keeps_this (driven : history.Driven session) (starts : session.Starts launch)
    {task : Task} {result : task.Result} {machine after : Machine}
    (reaches : Reaches launch.task launch.session.machine task machine)
    (ended : task.run machine = .ok result after) {env : Env} {value : Value}
    (bound : machine.scopes.getAt? env 0 "this" = some value) :
    after.scopes.getAt? env 0 "this" = some value := by
  obtain ⟨admitted, within⟩ := driven.admitted starts reaches
  have moment : (history.worldOf launch).moments task machine :=
    ⟨_, mem_starts_add history launch, reaches⟩
  have leads := (history.worldOf launch).lineages.confines task machine moment admitted within
  have preserved : machine.scopes.Preserves after.scopes := (leads.of_ok ended).1.later
  have reserved : ¬ Nameable "this" := fun nameable => nameable.ne_this rfl
  unfold Scopes.getAt? at bound ⊢
  split at bound
  · cases bound
  · exact preserved _ "this" value reserved bound

theorem Driven.isInitializer (driven : history.Driven session) (starts : session.Starts launch)
    {method : Closure} {inst : Instance} {machine : Machine}
    (reaches : Reaches launch.task launch.session.machine (.bindMethod method inst) machine)
    (found : inst.cls.findMethod? "init" = some method) : method.isInitializer = true := by
  have started : ∀ input ∈ some launch, session.Starts input := by
    rintro _ ⟨⟩
    exact starts
  have moment : (history.add launch).Moment (.bindMethod method inst) machine := .of_reaches reaches
  obtain ⟨past, future, split⟩ := List.append_of_mem moment.mem_journal.1
  have stands : history.Stands session (some launch)
    (past ++ [.begun (.bindMethod method inst) machine]) machine := .during split
  have known : Known (past ++ [.begun (.bindMethod method inst) machine]) machine (.object inst) :=
    .inr ⟨_, List.mem_append_right past List.mem_cons_self, .given List.mem_cons_self⟩
  obtain ⟨-, ⟨statements, descends⟩, -⟩ := driven.present started stands known
  rw [descends.findMethod?] at found
  obtain ⟨statement, -, declared⟩ := List.exists_of_findSome?_eq_some found
  obtain ⟨decl, -, rfl⟩ := Option.map_eq_some_iff.mp declared
  rfl

theorem Driven.initializer_yields (driven : history.Driven session) (starts : session.Starts launch)
    {fuel : Nat} {object : Expr} {name paren : Token} {arguments : List Expr}
    {machine middle after : Machine} {method : Closure} {inst : Instance} {value : Value}
    (reaches : Reaches launch.task launch.session.machine
      (.evaluate (fuel + 1) (.call (.get object name) paren arguments)) machine)
    (initializes : name.lexeme = "init")
    (retrieves : Substep (.evaluate fuel (.get object name)) machine (.bindMethod method inst)
      middle)
    (ended : Lox.evaluate (fuel + 1) (.call (.get object name) paren arguments) machine =
      .ok value after) : value = .object inst := by
  obtain ⟨found, first, callee, this⟩ := retrieves.retrieves
  have isInitializer := driven.isInitializer starts ((reaches.begun .callee).begun retrieves)
    (initializes ▸ found)
  unfold Lox.evaluate at ended
  obtain ⟨function, _, callee', ended⟩ := ok_of_bind ended
  cases callee.symm.trans callee'
  obtain ⟨values, second, computed, called⟩ := ok_of_bind ended
  -- neither the arguments nor the body change what the method is bound to
  have kept := driven.keeps_this starts (reaches.begun (.arguments callee)) computed this
  have kept' := driven.keeps_this starts (reaches.begun (.call callee computed)) called kept
  cases fuel with
  | zero => cases called
  | succ fuel =>
      obtain ⟨-, -, last, invoked, rfl⟩ := ok_of_call rfl called
      cases fuel with
      | zero => cases invoked
      | succ fuel =>
          have entered : invokeFunction fuel (method.boundIn middle) values second.calling =
            .ok value last := invoked
          have yielded : last.scopes.getAt? (method.boundIn middle).env 0 "this" = some value :=
            ok_of_initializer isInitializer entered
          exact Option.some.inj (yielded.symm.trans kept')

end History

/-- In every state of a session, between its inputs and while one of them runs, a call of a class
is refused if the arguments are not as many as the parameters of its nearest initializer, or not
none if it has no initializer. Otherwise, if the call succeeds, its result is an instance of that
class which equals nothing that was there before, and the class has invoked its nearest initializer
once, bound to the instance and with these arguments. And wherever an input calls the initializer of
an instance as a method, the result of a call that succeeds is the instance. -/
theorem constructors_yield_new_instances {history : History} {session : Session}
    {launch? : Option Launch} (driven : history.Driven session)
    (starts : ∀ launch ∈ launch?, session.Starts launch) :
    (∀ past machine, history.Stands session launch? past machine →
      ∀ cls, History.Known past machine (.ofClass cls) →
        ∃ statements, Descends (history.extend launch?).Moment cls statements ∧
          ∀ fuel paren arguments, Constructs past machine cls statements fuel paren arguments) ∧
    ∀ launch ∈ launch?, ∀ fuel object name paren arguments machine method inst middle value after,
      Reaches launch.task launch.session.machine
        (.evaluate (fuel + 1) (.call (.get object name) paren arguments)) machine →
      name.lexeme = "init" →
      Substep (.evaluate fuel (.get object name)) machine (.bindMethod method inst) middle →
      evaluate (fuel + 1) (.call (.get object name) paren arguments) machine = .ok value after →
      value = .object inst := by
  constructor
  · intro past machine stands cls known
    obtain ⟨⟨statements, descends⟩, -⟩ := driven.present starts stands known
    exact ⟨statements, descends, descends.constructs fun _ => driven.present starts stands⟩
  · intro launch member fuel object name paren arguments machine method inst middle value after
      reaches initializes retrieves ended
    exact driven.initializer_yields (starts launch member) reaches initializes retrieves ended

def Session.globalClass? (session : Session) (name : String) : Option ClassObject :=
  match session.machine.scopes.lookUp? ⟨0⟩ name with
  | some (.callable (.constructor cls)) => some cls
  | _ => none

theorem Session.contains_globalClass {session : Session} {name : String} {cls : ClassObject}
    (found : session.globalClass? name = some cls) : session.machine.Contains (.ofClass cls) := by
  unfold globalClass? at found
  split at found
  · rename_i bound
    cases found
    exact .bound bound
  · cases found

def Session.constructs (session : Session) (cls : ClassObject) (argument : Value) : Bool :=
  match call 9 (.ofClass cls) ⟨.rightParen, ")", none, 1⟩ [argument] session.machine with
  | .ok _ _ => true
  | .error _ _ => false

def Launch.callsInitializer (launch : Launch) : Bool :=
  match launch.task with
  | .evaluate (fuel + 1) (.call (.get object name) paren arguments) =>
      name.lexeme = "init" &&
      ((Task.evaluate fuel (.get object name)).stages launch.session.machine).any (fun stage =>
        match stage.1 with
        | .bindMethod _ _ => true
        | _ => false) &&
      match evaluate (fuel + 1) (.call (.get object name) paren arguments)
        launch.session.machine with
      | .ok _ _ => true
      | .error _ _ => false
  | _ => false

theorem Launch.retrieves_of_callsInitializer {launch : Launch}
    (calls : launch.callsInitializer = true) :
    ∃ fuel object name paren arguments method inst middle value after,
      launch.task = .evaluate (fuel + 1) (.call (.get object name) paren arguments) ∧
      name.lexeme = "init" ∧
      Substep (.evaluate fuel (.get object name)) launch.session.machine (.bindMethod method inst)
        middle ∧
      evaluate (fuel + 1) (.call (.get object name) paren arguments) launch.session.machine =
        .ok value after := by
  unfold callsInitializer at calls
  split at calls
  · rename_i fuel object name paren arguments task
    simp only [Bool.and_eq_true, decide_eq_true_eq, List.any_eq_true] at calls
    obtain ⟨⟨initializes, ⟨other, middle⟩, listed, retrieved⟩, succeeds⟩ := calls
    have step := Task.mem_stages.mp listed
    split at retrieved
    · rename_i method inst same
      split at succeeds
      · rename_i value after ended
        obtain rfl : other = .bindMethod method inst := same
        exact ⟨fuel, object, name, paren, arguments, method, inst, middle, value, after, task,
          initializes, step, ended⟩
      · cases succeeds
    · cases retrieved
  · cases calls

/-- A class with an initializer is called, and then the initializer of the first instance. -/
theorem constructors_yield_new_instances_of_class :
    ∃ (history : History) (session : Session) (launch : Launch) (cls : ClassObject),
      history.Driven session ∧ session.Starts launch ∧
      History.Known history.journal session.machine (.ofClass cls) ∧
      (∃ inst after, call 9 (.ofClass cls) ⟨.rightParen, ")", none, 1⟩ [.nil] session.machine =
        .ok (.object inst) after ∧ inst.cls = cls) ∧
      ∃ fuel object name paren arguments method inst middle after,
        launch.task = .evaluate (fuel + 1) (.call (.get object name) paren arguments) ∧
        Substep (.evaluate fuel (.get object name)) launch.session.machine
          (.bindMethod method inst) middle ∧
        evaluate (fuel + 1) (.call (.get object name) paren arguments) launch.session.machine =
          .ok (.object inst) after := by
  have computed : ((Session.new {} 4).run 24
      "class A { init(x) { return; } } var a = A(nil);").map (fun session =>
        ((session.launchExpr? 9 "a.init(nil)").map Launch.callsInitializer,
          (session.globalClass? "A").map (session.constructs · .nil))) =
      some (some true, some true) := by cbv
  obtain ⟨session, ran, computed⟩ := Option.map_eq_some_iff.mp computed
  obtain ⟨started, called⟩ := Prod.mk.inj computed
  obtain ⟨launch, launched, calls⟩ := Option.map_eq_some_iff.mp started
  obtain ⟨cls, found, constructs⟩ := Option.map_eq_some_iff.mp called
  have driven := History.Driven.run 24 _ (.new {} 4) ran
  have starts : session.Starts launch := ⟨9, "a.init(nil)", .inr launched⟩
  have started : ∀ input ∈ some launch, session.Starts input := by
    rintro _ ⟨⟩
    exact starts
  have known := Session.contains_globalClass found
  obtain ⟨classes, methods⟩ := constructors_yield_new_instances driven started
  refine ⟨_, session, launch, cls, driven, starts, .inl known, ?_, ?_⟩
  · obtain ⟨statements, -, constructed⟩ := classes _ _ .between cls (.inl known)
    unfold Session.constructs at constructs
    split at constructs
    · rename_i value after ended
      obtain ⟨inst, rfl, same, -⟩ := (constructed 8 _ [.nil]).yields value after ended
      exact ⟨inst, after, ended, same⟩
    · cases constructs
  · obtain ⟨fuel, object, name, paren, arguments, method, inst, middle, value, after, task,
      initializes, step, ended⟩ := Launch.retrieves_of_callsInitializer calls
    have reaches : Reaches launch.task launch.session.machine
        (.evaluate (fuel + 1) (.call (.get object name) paren arguments)) launch.session.machine :=
      task ▸ .here
    obtain rfl := methods launch rfl fuel object name paren arguments _ method inst middle value
      after reaches initializes step ended
    exact ⟨fuel, object, name, paren, arguments, method, inst, middle, after, task, step, ended⟩

end Lox
