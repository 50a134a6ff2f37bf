import Mathlib
import Lox.Proofs.Scoping.Activation
import Lox.Proofs.Session.Chronicle

/-!
What `this` and `super` mean. Around every use of `this` there is one innermost call of a method,
and `this` is the instance to which that method was bound, whenever that was. Around every use of
`super` there is in addition one execution of the class statement that declares the method, and the
method is looked up in the superclass that the statement had then.
-/

namespace Lox

namespace World

variable {world big : World} {machine : Machine} {store : Scopes}

theorem class_mono (le : Le world big) {cls : ClassObject}
    (belongs : world.lineages.Class store cls) :
    big.lineages.Class store cls :=
  fun body member name method found =>
    TracedMethod.mono le (.refl store) (belongs body member name method found)

theorem value_mono (le : Le world big) {value : Value}
    (belongs : world.lineages.Value store value) :
    big.lineages.Value store value := by
  match value with
  | .callable (.function closure) => exact TracedFunction.mono le (.refl store) belongs
  | .callable (.constructor cls) => exact class_mono le belongs
  | .object inst => exact ⟨trivial, class_mono le belongs.2⟩
  | .nil | .bool _ | .number _ | .string _ | .callable (.native _) => trivial

theorem within_mono (le : Le world big) (within : world.lineages.Within machine) :
    big.lineages.Within machine where
  globals := fun _ _ => trivial
  scopes := Nat.zero_le _
  objects := Nat.zero_le _
  bound := fun ref name value seen bound => value_mono le (within.bound ref name value seen bound)
  fields := fun inst name value seen found =>
    value_mono le (within.fields inst name value seen found)

end World

namespace History

variable {history : History} {session : Session} {launch : Launch} {fuel : Nat} {source : String}

abbrev worldOf (history : History) (launch : Launch) : World :=
  (history.add launch).world launch.session.machine

theorem Coheres.tracedProgram (coheres : history.Coheres session)
    (launched : session.launchProgram? fuel source = some launch) :
    (history.worldOf launch).lineages.Admits launch.session.machine launch.task := by
  obtain ⟨stmts, parsed, read, clean, resolved, rfl⟩ := Session.launchProgram?_eq_some launched
  obtain ⟨rfl, rfl⟩ := Prod.mk.inj read
  have derived := Session.parse_derives clean
  refine World.traced_of_admitsAll (?_ : World.Lineage _ _ _ Site.topLevel.regions) .topLevel
    ⟨Session.errors_of_resolve resolved, ?_, ?_⟩ ?_
  · show World.Lineage _ _ session.machine.env []
    rw [coheres.atGlobals]
    exact .globals
  · exact derived.formed Session.plain_of_mem_words
  · exact fun visit member => List.mem_append_right _ member
  · exact fun stmt member => (Parse.program_written Session.plain_of_mem_words _ stmt member).spelled

theorem Coheres.tracedExpr (coheres : history.Coheres session)
    (launched : session.launchExpr? fuel source = some launch) :
    (history.worldOf launch).lineages.Admits launch.session.machine launch.task := by
  obtain ⟨expr, parsed, read, resolved, rfl⟩ := Session.launchExpr?_eq_some launched
  obtain rfl : (session.parseExpression source).2 = parsed := congrArg Prod.snd read
  refine ⟨.topLevel, .outside, none, ?_, .topLevel, .inl rfl,
    ⟨Session.errors_of_resolve resolved, ?_⟩, ?_⟩
  · show World.Lineage _ _ session.machine.env []
    rw [coheres.atGlobals]
    exact .globals
  · exact fun visit member => List.mem_append_right _ member
  · exact (Parse.expression_written Session.plain_of_mem_words _ expr (congrArg Prod.fst read)).spelled

theorem Coheres.traced (coheres : history.Coheres session) (starts : session.Starts launch) :
    (history.worldOf launch).lineages.Admits launch.session.machine launch.task := by
  obtain ⟨fuel, source, launched | launched⟩ := starts
  · exact coheres.tracedProgram launched
  · exact coheres.tracedExpr launched

theorem Driven.within (driven : history.Driven session) :
    (history.world session.machine).lineages.Within session.machine := by
  refine driven.machine_induction
    (motive := fun history machine => (history.world machine).lineages.Within machine) ?_ ?_ ?_
  · exact fun limit host => Realm.within_fresh limit host (fun _ _ => trivial) rfl rfl
  · intro history machine pairs within
    have le : World.Le (history.world machine) (history.world (machine.record pairs)) :=
      le_world (fun _ member => member) (fun _ member => member) rfl
    exact (World.within_mono le within).congr rfl rfl rfl
  · intro history session launch host driven starts within
    have le : World.Le (history.world launch.session.machine) (history.worldOf launch) :=
      le_world (fun _ member => List.mem_append_left _ member)
        (fun _ member => List.mem_append_left _ member) rfl
    have leads := (history.worldOf launch).lineages.confines launch.task _
      (moment_of_launch history launch) (driven.coheres.traced starts) (World.within_mono le within)
    obtain ⟨kept, -, after⟩ := leads.extends_final
    have same : (history.add launch).world (launch.task.run.final launch.session.machine) =
        history.worldOf launch := by
      simp only [worldOf, world, kept.depths, kept.globals]
    rw [← same] at after
    exact after.congr rfl rfl rfl

end History

/-- The method in whose body a use of a name stands, when the scopes are these. -/
structure Activation.Runs (activation : Activation) (history : History) (use : Use) (env : Env) :
    Prop where
  occurs : activation.Occurs history.Moment
  encloses : ∃ visit ∈ history.visits, visit.use = use ∧ activation.Encloses env visit.regions

theorem readVariable_eq {machine : Machine} {id : ExprId} {name : Token} {value : Value}
    (known : machine.valueOf? id name.lexeme = some value) :
    Run.readVariable id name machine = .ok value machine := by
  simp only [Run.readVariable, Bind.bind, EStateM.bind, MonadState.get, getThe,
    MonadStateOf.get, EStateM.get, known]
  rfl

def Run.bindInherited (cls : ClassObject) (name : Token) (inst : Instance) : Run Value :=
  match cls.ancestors.findSome? fun body => body.methods[name.lexeme]? with
  | some method => do return .function (← bindMethod method inst)
  | none => fail (.undefinedProperty name.lexeme) name

theorem Run.bindInherited_ne (cls : ClassObject) (name : Token) (inst : Instance)
    (machine after : Machine) (place : Option Token) :
    bindInherited cls name inst machine ≠ .error (.error ⟨.superOutsideClass, place⟩) after := by
  intro failed
  unfold bindInherited at failed
  cases inherited : cls.ancestors.findSome? fun body => body.methods[name.lexeme]? with
  | none =>
      rw [inherited] at failed
      cases failed
  | some method =>
      rw [inherited] at failed
      cases failed

namespace History

variable {history : History} {session : Session} {launch : Launch}

theorem Driven.launches (driven : history.Driven session) (starts : session.Starts launch) :
    history.Launches launch := by
  obtain ⟨fuel, source, launched | launched⟩ := starts
  · exact driven.coheres.launchProgram launched
  · exact driven.coheres.launchExpr launched

section Unique

variable (driven : history.Driven session) (starts : session.Starts launch)
include driven starts

theorem Driven.runs_unique {activation other : Activation} {use : Use} {env : Env}
    (runs : activation.Runs (history.add launch) use env)
    (runs' : other.Runs (history.add launch) use env) :
    activation.method = other.method ∧ activation.receiver = other.receiver := by
  obtain ⟨visit, visited, rfl, encloses⟩ := runs.encloses
  obtain ⟨visit', visited', same, encloses'⟩ := runs'.encloses
  obtain rfl : visit' = visit :=
    List.inj_on_of_nodup_map (driven.launches starts).coheres.nodup visited' visited
      (congrArg Use.id same)
  have envs := encloses.unique encloses'
  -- one scope holds both receivers, so it was opened when either of them was bound
  have ages : activation.binding.age = other.binding.age := by
    simp only [Activation.env, Activation.closure, List.cons.injEq, ScopeRef.mk.injEq] at envs
    exact envs.2.1
  have once := driven.opens_once starts runs.occurs.bound runs'.occurs.bound
    (.this (List.mem_singleton_self _)) (.this (List.mem_singleton_self _)) ages
  simp only [Prod.mk.injEq, Task.bindMethod.injEq] at once
  exact once.1

theorem Driven.makes_unique {subclassing other : Subclassing} {method : Closure}
    (makes : subclassing.Makes (history.add launch).Moment method)
    (makes' : other.Makes (history.add launch).Moment method) :
    subclassing.parent = other.parent := by
  have ages : subclassing.machine.age = other.machine.age := by
    have envs := makes.env.symm.trans makes'.env
    simp only [List.cons.injEq, ScopeRef.mk.injEq] at envs
    exact envs.1
  have once := driven.opens_once starts makes.occurs makes'.occurs .super .super ages
  simp only [Prod.mk.injEq, Task.declareClass.injEq, Option.some.injEq] at once
  exact once.1.2.1

end Unique

section Keywords

variable (driven : history.Driven session) (starts : session.Starts launch) {fuel : Nat}
  {machine : Machine} {id : ExprId} {keyword : Token}
include driven starts

theorem Driven.admitted {task : Task}
    (reaches : Reaches launch.task launch.session.machine task machine) :
    (history.worldOf launch).lineages.Admits machine task ∧
      (history.worldOf launch).lineages.Within machine := by
  have within : (history.worldOf launch).lineages.Within launch.session.machine := by
    obtain ⟨pairs, same⟩ := starts.checks.machine
    have le : World.Le (history.world session.machine) (history.worldOf launch) := by
      refine le_world (fun _ member => List.mem_append_left _ member)
        (fun _ member => List.mem_append_left _ member) ?_
      rw [same]
      rfl
    refine (World.within_mono le driven.within).congr ?_ ?_ ?_ <;> rw [same] <;> rfl
  exact ((history.worldOf launch).lineages.admits_of_reaches (history.moment_of_launch launch)
    (driven.coheres.traced starts) within reaches).2

theorem Driven.ready {task : Task}
    (reaches : Reaches launch.task launch.session.machine task machine) :
    (history.worldOf launch).Ready machine task ∧ (history.worldOf launch).Holds machine :=
  have launches := driven.launches starts
  (World.ready_of_reaches (history.moment_of_launch launch) launches.ready launches.coheres.holds
    reaches).2

theorem Driven.reached {expr : Expr}
    (reaches : Reaches launch.task launch.session.machine (.evaluate (fuel + 1) expr) machine) :
    (history.worldOf launch).TracedExpr machine.scopes machine.env expr ∧
      ∀ visit ∈ (history.add launch).visits, machine.depths[visit.id]? = visit.depth? := by
  obtain ⟨traced, -⟩ := driven.admitted starts reaches
  obtain ⟨-, holds⟩ := driven.ready starts reaches
  refine ⟨traced, fun visit visited => ?_⟩
  rw [holds.depths]
  exact (driven.launches starts).coheres.recorded visit visited

theorem Driven.this_is_receiver
    (reaches : Reaches launch.task launch.session.machine (.evaluate (fuel + 1) (.this id keyword))
      machine) :
    ∃ activation : Activation,
      activation.Runs (history.add launch) ⟨.this, id, keyword⟩ machine.env ∧
      Lox.evaluate (fuel + 1) (.this id keyword) machine =
        .ok (.object activation.receiver) machine := by
  obtain ⟨traced, recorded⟩ := driven.reached starts reaches
  obtain ⟨visit, activation, depth, visited, same, declared, occurs, encloses, receiver⟩ :=
    traced.this
  refine ⟨activation, ⟨occurs, visit, visited, same, encloses⟩, ?_⟩
  have known : machine.depths[id]? = some depth := by
    have depths := recorded visit visited
    rwa [declared, Visit.id, same] at depths
  refine (readVariable_eq ?_ :)
  simp only [Machine.valueOf?, known]
  exact receiver

theorem Driven.super_is_inherited {name : Token}
    (reaches : Reaches launch.task launch.session.machine
      (.evaluate (fuel + 1) (.super id keyword name)) machine) :
    ∃ (activation : Activation) (subclassing : Subclassing),
      activation.Runs (history.add launch) ⟨.super, id, keyword⟩ machine.env ∧
      subclassing.Makes (history.add launch).Moment activation.method ∧
      ∀ cls : ClassObject, cls.ancestors = subclassing.parent.chain →
        Lox.evaluate (fuel + 1) (.super id keyword name) machine =
          Run.bindInherited cls name activation.receiver machine := by
  obtain ⟨traced, recorded⟩ := driven.reached starts reaches
  obtain ⟨visit, activation, subclassing, depth, visited, same, declared, occurs, encloses, makes,
    receiver, parent⟩ := traced.super
  refine ⟨activation, subclassing, ⟨occurs, visit, visited, same, encloses⟩, makes, ?_⟩
  intro cls inherits
  have known : machine.depths[id]? = some (depth + 1) := by
    have depths := recorded visit visited
    rwa [declared, Visit.id, same] at depths
  rw [Run.bindInherited, inherits]
  exact Run.readSuper_eq keyword name known parent receiver

end Keywords

end History

/-- In a session that is driven by its inputs, at every moment of the execution of an input without
static faults: where `this` is evaluated there is one innermost method around it that has been bound
and called, and `this` is the instance to which it was bound, in this input or in an earlier one.
Where `super` is evaluated, that method was in addition made by one execution of a class statement.
The class that was created then inherits from the superclass of that moment, and the method of the
given name is the one that this class inherits, bound to the same instance. -/
theorem this_and_super_denote_receiver_and_parent {history : History} {session : Session}
    {fuel : Nat} {source : String} {launch : Launch} (driven : history.Driven session)
    (launched : session.launchProgram? fuel source = some launch ∨
      session.launchExpr? fuel source = some launch)
    {fuelLeft : Nat} {machine : Machine} {id : ExprId} {keyword : Token} :
    (Reaches launch.task launch.session.machine
        (.evaluate (fuelLeft + 1) (.this id keyword)) machine →
      (∃ activation : Activation,
        activation.Runs (history.add launch) ⟨.this, id, keyword⟩ machine.env) ∧
      ∀ activation : Activation,
        activation.Runs (history.add launch) ⟨.this, id, keyword⟩ machine.env →
        evaluate (fuelLeft + 1) (.this id keyword) machine =
          .ok (.object activation.receiver) machine) ∧
    ∀ name : Token, Reaches launch.task launch.session.machine
        (.evaluate (fuelLeft + 1) (.super id keyword name)) machine →
      (∃ (activation : Activation) (subclassing : Subclassing),
        activation.Runs (history.add launch) ⟨.super, id, keyword⟩ machine.env ∧
        subclassing.Makes (history.add launch).Moment activation.method) ∧
      (∀ (activation : Activation) (subclassing : Subclassing),
        activation.Runs (history.add launch) ⟨.super, id, keyword⟩ machine.env →
        subclassing.Makes (history.add launch).Moment activation.method →
        ∃ cls, subclassing.Creates cls ∧ cls.ancestors = subclassing.parent.chain ∧
          evaluate (fuelLeft + 1) (.super id keyword name) machine =
            Run.bindInherited cls name activation.receiver machine) ∧
      ∀ place after, evaluate (fuelLeft + 1) (.super id keyword name) machine ≠
        .error (.error ⟨.superOutsideClass, place⟩) after := by
  have starts : session.Starts launch := ⟨fuel, source, launched⟩
  constructor
  · intro reaches
    obtain ⟨activation, runs, evaluated⟩ := driven.this_is_receiver starts reaches
    refine ⟨⟨activation, runs⟩, fun other runs' => ?_⟩
    obtain ⟨-, same⟩ := driven.runs_unique starts runs runs'
    rw [evaluated, same]
  · intro name reaches
    obtain ⟨activation, subclassing, runs, makes, evaluated⟩ :=
      driven.super_is_inherited starts reaches
    refine ⟨⟨activation, subclassing, runs, makes⟩, fun other subclassing' runs' makes' => ?_,
      fun place after => ?_⟩
    · obtain ⟨method, receiver⟩ := driven.runs_unique starts runs runs'
      rw [← method] at makes'
      have parent := driven.makes_unique starts makes makes'
      obtain ⟨cls, created, inherits⟩ := subclassing'.creates
      refine ⟨cls, created, inherits, ?_⟩
      rw [← receiver]
      exact evaluated cls (by rw [inherits, parent])
    · obtain ⟨cls, -, inherits⟩ := subclassing.creates
      rw [evaluated cls inherits]
      exact Run.bindInherited_ne cls name activation.receiver machine after place

/-! A session in which one input takes a method from its instance, and the next calls it. -/
namespace Detached

def identifier (name : String) : Token := ⟨.identifier, name, none, 1⟩

def this : Token := ⟨.thisWord, "this", none, 1⟩

def super : Token := ⟨.superWord, "super", none, 1⟩

def opening : Token := ⟨.leftParen, "(", none, 1⟩

def closing : Token := ⟨.rightParen, ")", none, 1⟩

def body : List Stmt :=
  [.expression (.this 1 this), .expression (.super 2 super (identifier "m"))]

def closure : Closure := ⟨⟨1, identifier "m", [], [.block body]⟩, [⟨2⟩, ⟨1⟩, ⟨0⟩], false⟩

def source : String :=
  "class A { m() {} } class B < A { m() { { this; super.m; } } } var f = B().m;"

def parent : Stmt := .classDecl (identifier "A") none [⟨0, identifier "m", [], []⟩]

def child : Stmt := .classDecl (identifier "B") (some (.var 0 (identifier "A"))) [closure.decl]

def taken : Stmt :=
  .varDecl (identifier "f")
    (some (.get (.call (.var 3 (identifier "B")) closing []) (identifier "m")))

def call : Expr := .call (.var 4 (identifier "f")) closing []

def resolved : Session :=
  ({ Session.new {} 8 with supply := ⟨4, 2⟩ } : Session).resolve (.ofProgram [parent, child, taken])

def launch : Launch :=
  ⟨.executeProgram 12 [parent, child, taken], Stmt.visitsAll .topLevel [parent, child, taken],
    resolved⟩

def first : Machine := (execute 12 parent).final resolved.machine

def second : Machine := (execute 12 child).final first

def third : Machine := (execute 12 taken).final second

def session : Session :=
  { resolved with machine := { third with host.sink := third.host.sink.flush.2 } }

def launchCall : Launch :=
  ⟨.evaluate 12 call, Site.topLevel.visits call.uses, { session with supply := ⟨5, 2⟩ }⟩

theorem parsed : (Session.new {} 8).parse source =
    ([parent, child, taken], { Session.new {} 8 with supply := ⟨4, 2⟩ }) := by cbv

theorem launched : (Session.new {} 8).launchProgram? 12 source = some launch := by
  simp only [Session.launchProgram?, parsed]
  rfl

theorem executed : executeProgram 12 [parent, child, taken] resolved.machine = .ok () third := by
  have declared : execute 12 parent resolved.machine = .ok .normal first := by rfl
  have inherited : execute 12 child first = .ok .normal second := by rfl
  have stored : execute 12 taken second = .ok .normal third := by rfl
  simp only [executeProgram, Bind.bind, EStateM.bind, declared, inherited, stored]
  rfl

theorem ran : (Session.new {} 8).run 12 source = some session := by
  have interpreted : interpret 12 [parent, child, taken] resolved.machine =
      .ok () session.machine := by
    simp only [interpret, Bind.bind, EStateM.bind, tryCatch, tryCatchThe, MonadExceptOf.tryCatch,
      EStateM.tryCatch, executed]
    rfl
  obtain ⟨stmts, task, equation⟩ := Session.run_of_launch launched
  cases task
  rw [equation]
  simp only [Session.performReporting, Session.perform, launch, interpreted]
  rfl

theorem driven : ({} : History).add launch |>.Driven session := by
  have after := History.Driven.run 12 source (.new {} 8) ran
  rwa [launched] at after

theorem launchedCall : session.launchExpr? 12 "f()" = some launchCall := by
  have tokens : Token.split (Token.scan "f()") =
      ([identifier "f", opening, closing, .ending 1], []) := by cbv
  have supply : session.supply = ⟨4, 2⟩ := rfl
  have parsed : Parse.expression [identifier "f", opening, closing, .ending 1] ⟨4, 2⟩ =
      ⟨some call, [], ⟨5, 2⟩⟩ := by cbv
  have read : session.parseExpression "f()" =
      (some call, { session with supply := ⟨5, 2⟩ }) := by
    simp only [Session.parseExpression, Session.tokenize, tokens, Session.report, supply, parsed]
    rfl
  simp only [Session.launchExpr?, read]
  rfl

def inBlock : Machine :=
  let called := session.machine.calling.entering closure.env (Run.parameterBindings [] [])
  called.entering called.env {}

theorem reachesBody :
    Reaches launchCall.task launchCall.session.machine (.executeAll 6 body) inBlock := by
  have callee : evaluate 11 (.var 4 (identifier "f")) session.machine =
      .ok (.function closure) session.machine := by rfl
  have allowed : session.machine.callDepth < session.machine.maxCallDepth := by decide
  have called : Reaches launchCall.task launchCall.session.machine
      (.invoke 10 (.function closure) []) session.machine.calling :=
    (Reaches.here.begun (.call callee rfl)).begun (.invoke rfl rfl allowed)
  exact (((called.begun .function).begun .functionBody).begun .firstStmt).begun .block

theorem reachesThis :
    Reaches launchCall.task launchCall.session.machine (.evaluate 4 (.this 1 this)) inBlock :=
  (reachesBody.begun .firstStmt).begun .expression

theorem reachesSuper : Reaches launchCall.task launchCall.session.machine
    (.evaluate 3 (.super 2 super (identifier "m"))) inBlock := by
  have ended : execute 5 (.expression (.this 1 this)) inBlock = .ok .normal inBlock := by rfl
  exact ((reachesBody.begun (.restStmts ended)).begun .firstStmt).begun .expression

theorem receiver : ∃ cls, evaluate 4 (.this 1 this) inBlock = .ok (.object ⟨0, cls⟩) inBlock :=
  ⟨_, by rfl⟩

/-- The method is still that of the first instance, and `super` what the class of the method
inherits. -/
theorem taken_method_keeps_receiver_and_parent :
    (({} : History).add launch).Driven session ∧
      session.launchExpr? 12 "f()" = some launchCall ∧
      Reaches launchCall.task launchCall.session.machine (.evaluate 4 (.this 1 this)) inBlock ∧
      (∃ activation : Activation, activation.receiver.index = 0 ∧
        evaluate 4 (.this 1 this) inBlock = .ok (.object activation.receiver) inBlock) ∧
      Reaches launchCall.task launchCall.session.machine
        (.evaluate 3 (.super 2 super (identifier "m"))) inBlock ∧
      ∃ (activation : Activation) (subclassing : Subclassing) (cls : ClassObject),
        subclassing.Makes ((({} : History).add launch).add launchCall).Moment activation.method ∧
        subclassing.Creates cls ∧
        evaluate 3 (.super 2 super (identifier "m")) inBlock =
          Run.bindInherited cls (identifier "m") activation.receiver inBlock := by
  refine ⟨driven, launchedCall, reachesThis, ?_, reachesSuper, ?_⟩
  · obtain ⟨⟨activation, runs⟩, bound⟩ :=
      (this_and_super_denote_receiver_and_parent driven (.inr launchedCall)).1 reachesThis
    obtain ⟨cls, evaluated⟩ := receiver
    refine ⟨activation, ?_, bound activation runs⟩
    have same := (bound activation runs).symm.trans evaluated
    simp only [EStateM.Result.ok.injEq, Value.object.injEq, and_true] at same
    rw [same]
  · obtain ⟨⟨activation, subclassing, runs, makes⟩, inherited, -⟩ :=
      (this_and_super_denote_receiver_and_parent driven (.inr launchedCall)).2 _ reachesSuper
    obtain ⟨cls, creates, -, evaluated⟩ := inherited activation subclassing runs makes
    exact ⟨activation, subclassing, cls, makes, creates, evaluated⟩

end Detached

end Lox
