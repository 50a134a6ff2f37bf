import Lox.Proofs.Run.Task

/-!
What a task does, one thing after the other. The plan of a task says what it reads from the machine and
how it changes it, which tasks it begins and how it goes on with what they yield. Every task carries out
its plan. So a property of runs that holds of the single deeds, and that is passed on from the tasks
that are begun to those that begin them, holds of all runs, and no proof of one has to go through the
evaluator again.
-/

namespace Lox

/-- A single thing that a task does by itself. -/
inductive Deed
  | value (id : ExprId) (name : String)
  | assign (id : ExprId) (name : String) (value : Value)
  | env
  | define (name : String) (value : Value)
  | openScope (outer : Env) (bindings : Bindings)
  | newInstance (cls : ClassObject)
  | field (inst : Instance) (name : String)
  | setField (inst : Instance) (name : Token) (value : Value)
  | heritage (id : ExprId)
  | receiver (env : Env)
  | makeClass (name : String) (superclass : Option ClassObject) (env : Env)
      (methods : List FunctionDecl)
  | writeLine (text : String)
  | readLine
  | readFile (path : String)
  | writeFile (path text : String)
  | clock

namespace Deed

@[reducible] def Result : Deed → Type
  | value _ _ | field _ _ | receiver _ => Option Value
  | assign _ _ _ => Bool
  | env | openScope _ _ => Env
  | define _ _ | setField _ _ _ => Unit
  | newInstance _ => Instance
  | heritage _ => Option (ClassObject × Instance)
  | makeClass _ _ _ _ => ClassObject
  | writeLine _ | writeFile _ _ => Except HostFault Unit
  | readLine => Except HostFault (Option String)
  | readFile _ => Except HostFault String
  | clock => Number

def inherited (machine : Machine) (id : ExprId) : Option (ClassObject × Instance) :=
  match machine.depths[id]? with
  | some (depth + 1) =>
      match machine.scopes.getAt? machine.env (depth + 1) "super",
          machine.scopes.getAt? machine.env depth "this" with
      | some (.callable (.constructor superclass)), some (.object inst) => some (superclass, inst)
      | _, _ => none
  | _ => none

def answer (machine : Machine) : (deed : Deed) → deed.Result
  | value id name => machine.valueOf? id name
  | assign id name _ => (machine.holderOf? id name).isSome
  | env => machine.env
  | define _ _ | setField _ _ _ => ()
  | openScope outer bindings => (machine.scopes.enter outer bindings).1
  | newInstance cls => ⟨machine.fields.size, cls⟩
  | field inst name => machine.field? inst name
  | heritage id => inherited machine id
  | receiver outer => machine.scopes.getAt? outer 0 "this"
  | makeClass name superclass outer methods =>
      ⟨⟨machine.nextClass, name, methods.foldl
        (fun table decl => table.insert decl.name.lexeme ⟨decl, outer, decl.name.lexeme = "init"⟩)
        {}⟩,
        match superclass with
        | some parent => parent.chain
        | none => []⟩
  | writeLine text => (machine.host.sink.writeLine text).1
  | readLine => machine.host.takeLine.1
  | readFile path => machine.host.files.readText path
  | writeFile path text => (machine.host.files.write path text.toUTF8.toList).map fun _ => ()
  | clock => machine.host.clock.read.1

def change (machine : Machine) : Deed → Machine
  | assign id name result =>
      match machine.holderOf? id name with
      | some holder => { machine with scopes := machine.scopes.define holder name result }
      | none => machine
  | define name result =>
      { machine with scopes := machine.scopes.define machine.env name result }
  | openScope outer bindings => { machine with scopes := (machine.scopes.enter outer bindings).2 }
  | newInstance _ => { machine with fields := machine.fields.push {} }
  | setField inst name result =>
      { machine with fields := machine.fields.modify inst.index (·.insert name.lexeme result) }
  | makeClass _ _ _ _ => { machine with nextClass := machine.nextClass + 1 }
  | writeLine text => { machine with host.sink := (machine.host.sink.writeLine text).2 }
  | readLine => { machine with host := machine.host.takeLine.2 }
  | writeFile path text =>
      match machine.host.files.write path text.toUTF8.toList with
      | .ok files => { machine with host.files := files }
      | .error _ => machine
  | clock => { machine with host.clock := machine.host.clock.read.2 }
  | value _ _ | env | field _ _ | heritage _ | receiver _ | readFile _ => machine

end Deed

namespace Run

variable {α β : Type}

theorem get_bind (next : Machine → Run β) (machine : Machine) :
    (get >>= next) machine = next machine machine := rfl

theorem ok_bind {step : Run α} {next : α → Run β} {machine after : Machine} {value : α}
    (ended : step machine = .ok value after) : (step >>= next) machine = next value after := by
  simp only [Bind.bind, EStateM.bind, ended]

theorem final_of_ok {step : Run α} {machine after : Machine} {value : α}
    (ended : step machine = .ok value after) : step.final machine = after := by
  simp only [final, ended]

theorem final_bind {step : Run α} {next : α → Run β} {machine after : Machine} {value : α}
    (ended : step machine = .ok value after) :
    (step >>= next).final machine = (next value).final after := by
  simp only [final, Bind.bind, EStateM.bind, ended]

def leaving (place : Abort → Abort) (restore : Machine → Machine) :
    EStateM.Result Abort Machine α → EStateM.Result Abort Machine α
  | .ok value after => .ok value (restore after)
  | .error abort after => .error (place abort) (restore after)

theorem leaving_id (result : EStateM.Result Abort Machine α) : leaving id id result = result := by
  cases result <;> rfl

def guarded (paren : Token) (step : Run α) : Run α := do
  let machine ← get
  if machine.maxCallDepth ≤ machine.callDepth then fail .stackOverflow paren
  else nested paren step

variable {paren : Token} {step : Run α} {machine : Machine}

theorem guarded_full (full : machine.maxCallDepth ≤ machine.callDepth) :
    guarded paren step machine = (fail .stackOverflow paren : Run α) machine := by
  rw [guarded, get_bind, if_pos full]

theorem guarded_free (free : ¬ machine.maxCallDepth ≤ machine.callDepth) :
    guarded paren step machine = nested paren step machine := by
  rw [guarded, get_bind, if_neg free]

end Run

/-- Where a task begins another one: where it is itself, inside other scopes, or as a call. -/
inductive Setting
  | here
  | inside (env : Env)
  | nested (paren : Token)

namespace Setting

def enter? (machine : Machine) : Setting → Option Machine
  | here => some machine
  | inside env => some { machine with env }
  | nested _ => if machine.callDepth < machine.maxCallDepth then some machine.calling else none

def leave (machine after : Machine) : Setting → Machine
  | here => after
  | inside _ => { after with env := machine.env }
  | nested _ => { after with callDepth := after.callDepth - 1 }

def placing : Setting → Abort → Abort
  | nested paren, .error error => .error (error.orAt paren)
  | _, abort => abort

def around {α : Type} : Setting → Run α → Run α
  | here, step => step
  | inside env, step => Run.inside env step
  | nested paren, step => Run.guarded paren step

variable {α : Type} {setting : Setting} {step : Run α} {machine present : Machine}

theorem around_of_some (entered : setting.enter? machine = some present) :
    setting.around step machine =
      Run.leaving setting.placing (setting.leave machine) (step present) := by
  cases setting with
  | here =>
      cases entered
      simp only [around]
      cases step machine <;> rfl
  | inside env =>
      cases entered
      simp only [around, Run.inside]
      cases step { machine with env } <;> rfl
  | nested paren =>
      obtain ⟨room, ⟨⟩⟩ := Option.ite_none_right_eq_some.mp entered
      rw [around, Run.guarded_free (Nat.not_le.mpr room), Run.nested]
      simp only [Machine.calling]
      rcases step { machine with callDepth := machine.callDepth + 1 } with
        ⟨value, after⟩ | ⟨error | _, after⟩ <;> rfl

theorem around_of_none (step : Run α) (refused : setting.enter? machine = none) :
    ∃ paren, setting = nested paren ∧ machine.maxCallDepth ≤ machine.callDepth ∧
      setting.around step machine = .error (.error ⟨.stackOverflow, some paren⟩) machine := by
  cases setting with
  | here | inside => cases refused
  | nested paren =>
      have full : machine.maxCallDepth ≤ machine.callDepth := by
        simpa [enter?] using refused
      exact ⟨paren, rfl, full, Run.guarded_full full⟩

theorem ok_of_around {value : α} {last : Machine}
    (ended : setting.around step machine = .ok value last) :
    ∃ present after, setting.enter? machine = some present ∧ step present = .ok value after ∧
      last = setting.leave machine after := by
  cases entered : setting.enter? machine with
  | none =>
      obtain ⟨paren, -, -, refused⟩ := around_of_none step entered
      rw [refused] at ended
      cases ended
  | some present =>
      rw [around_of_some entered] at ended
      cases ran : step present with
      | ok result after =>
          rw [ran] at ended
          cases ended
          exact ⟨present, after, rfl, ran, rfl⟩
      | error abort after =>
          rw [ran] at ended
          cases ended

theorem final_around (entered : setting.enter? machine = some present) :
    (setting.around step).final machine = setting.leave machine (step.final present) := by
  simp only [Run.final, around_of_some entered]
  cases step present <;> rfl

theorem eq_of_enter (entered : setting.enter? machine = some present) :
    ∃ env callDepth, present = { machine with env, callDepth } := by
  cases setting with
  | here =>
      cases entered
      exact ⟨_, _, rfl⟩
  | inside env =>
      cases entered
      exact ⟨_, _, rfl⟩
  | nested paren =>
      obtain ⟨-, ⟨⟩⟩ := Option.ite_none_right_eq_some.mp entered
      exact ⟨_, _, rfl⟩

theorem leave_eq (setting : Setting) (machine after : Machine) :
    ∃ env callDepth, setting.leave machine after = { after with env, callDepth } := by
  cases setting <;> exact ⟨_, _, rfl⟩

end Setting

namespace Task

@[reducible] def fuel : Task → Nat
  | evaluate fuel _ | evaluateAll fuel _ | evaluateOr fuel _ | call fuel _ _ _ | invoke fuel _ _
  | invokeFunction fuel _ _ | execute fuel _ | executeAll fuel _ | repeatWhile fuel _ _ => fuel
  | bindMethod _ _ | declareClass _ _ _ => 0
  | executeProgram fuel _ => fuel + 1

@[reducible] def bound : Task → Nat
  | executeProgram fuel stmts => fuel + stmts.length
  | task => task.fuel

end Task

/-- What is to be done, up to a value or an abort. All tasks that are begun are shorter than a bound. -/
inductive Plan (bound : Nat) (α : Type)
  | done (value : α)
  | stop (abort : Abort)
  | act (deed : Deed) (next : deed.Result → Plan bound α)
  | start (setting : Setting) (task : Task) (next : task.Result → Plan bound α)
      (shorter : task.bound < bound := by simp [Task.bound, Task.fuel])

namespace Plan

variable {α : Type} {bound : Nat}

/-- The plan carried out, with these runs for the tasks that it begins. -/
def play (runs : (task : Task) → Run task.Result) : Plan bound α → Run α
  | done value => pure value
  | stop abort => throw abort
  | act deed next => fun machine => (next (deed.answer machine)).play runs (deed.change machine)
  | start setting task next _ =>
      setting.around (runs task) >>= fun result => (next result).play runs

def fail (fault : RuntimeFault) (place : Token) : Plan bound α := stop (.error ⟨fault, some place⟩)

def failBare (fault : RuntimeFault) : Plan bound α := stop (.error ⟨fault, none⟩)

def orFailAt (place : Token) : Except RuntimeFault α → Plan bound α
  | .ok value => done value
  | .error fault => fail fault place

def readVariable (id : ExprId) (name : Token) : Plan bound Value :=
  act (.value id name.lexeme) fun
    | some value => done value
    | none => fail (.undefinedVariable name.lexeme) name

def assignVariable (id : ExprId) (name : Token) (value : Value) : Plan bound Value :=
  act (.assign id name.lexeme value) fun
    | true => done value
    | false => fail (.undefinedVariable name.lexeme) name

def retrieve (fuel : Nat) (method : Closure) (inst : Instance) : Plan (fuel + 1) Value :=
  start .here (.bindMethod method inst) fun bound => done (.function bound)

def getProperty (fuel : Nat) (inst : Instance) (name : Token) : Plan (fuel + 1) Value :=
  act (.field inst name.lexeme) fun
    | some value => done value
    | none =>
        match inst.cls.findMethod? name.lexeme with
        | some method => retrieve fuel method inst
        | none => fail (.undefinedProperty name.lexeme) name

def readSuper (fuel : Nat) (id : ExprId) (keyword method : Token) : Plan (fuel + 1) Value :=
  act (.heritage id) fun
    | some (superclass, inst) =>
        match superclass.findMethod? method.lexeme with
        | some found => retrieve fuel found inst
        | none => fail (.undefinedProperty method.lexeme) method
    | none => fail .superOutsideClass keyword

def ofExpr (fuel : Nat) : Expr → Plan (fuel + 1) Value
  | .literal value => done (.ofConstant value)
  | .grouping inner => start .here (.evaluate fuel inner) done
  | .unary operator operand =>
      start .here (.evaluate fuel operand) fun value =>
        orFailAt operator (Operator.unary operator.kind value)
  | .binary left operator right =>
      start .here (.evaluate fuel left) fun first =>
        start .here (.evaluate fuel right) fun second =>
          orFailAt operator (Operator.binary operator.kind first second)
  | .logical left operator right =>
      start .here (.evaluate fuel left) fun first =>
        if Operator.shortCircuits operator.kind first then done first
        else start .here (.evaluate fuel right) done
  | .comma left _ right =>
      start .here (.evaluate fuel left) fun _ => start .here (.evaluate fuel right) done
  | .conditional condition thenBranch elseBranch =>
      start .here (.evaluate fuel condition) fun value =>
        if value.isTruthy then start .here (.evaluate fuel thenBranch) done
        else start .here (.evaluate fuel elseBranch) done
  | .var id name => readVariable id name
  | .assign id name value =>
      start .here (.evaluate fuel value) fun result => assignVariable id name result
  | .call callee paren arguments =>
      start .here (.evaluate fuel callee) fun function =>
        start .here (.evaluateAll fuel arguments) fun values =>
          start .here (.call fuel function paren values) done
  | .get object name =>
      start .here (.evaluate fuel object) fun
        | .object inst => getProperty fuel inst name
        | _ => fail .propertyOfNonInstance name
  | .set object name value =>
      start .here (.evaluate fuel object) fun
        | .object inst =>
            start .here (.evaluate fuel value) fun result =>
              act (.setField inst name result) fun _ => done result
        | _ => fail .fieldOfNonInstance name
  | .this id keyword => readVariable id keyword
  | .super id keyword method => readSuper fuel id keyword method

def ofExprs (fuel : Nat) : List Expr → Plan (fuel + 1) (List Value)
  | [] => done []
  | first :: rest =>
      start .here (.evaluate fuel first) fun value =>
        start .here (.evaluateAll fuel rest) fun values => done (value :: values)

def ofCall (fuel : Nat) (function : Value) (paren : Token) (arguments : List Value) :
    Plan (fuel + 1) Value :=
  match function.callable? with
  | none => fail .notCallable paren
  | some callee =>
      if arguments.length ≠ callee.arity then
        fail (.wrongArgumentCount callee.arity arguments.length) paren
      else
        start (.nested paren) (.invoke fuel callee arguments) done

def ofNative (arguments : List Value) : Native → Plan bound Value
  | .clock => act .clock fun time => done (.number time)
  | .readLine =>
      act .readLine fun
        | .ok (some text) => done (.string (Host.trimLine text))
        | .ok none => done .nil
        | .error fault => failBare (.inputFailed fault)
  | .readFile =>
      match arguments with
      | [.string path] =>
          act (.readFile path) fun
            | .ok text => done (.string text)
            | .error fault => failBare (.fileNotRead path fault)
      | _ => failBare (.pathExpected Native.readFile.name (Native.firstType arguments))
  | .writeFile =>
      match arguments with
      | [.string path, content] =>
          act (.writeFile path content.text) fun
            | .ok () => done .nil
            | .error fault => failBare (.fileNotWritten path fault)
      | _ => failBare (.pathExpected Native.writeFile.name (Native.firstType arguments))
  | .echo =>
      match arguments with
      | [value] =>
          act (.writeLine value.text) fun
            | .ok () => done .nil
            | .error fault => failBare (.outputFailed fault)
      | _ => failBare (.oneArgumentExpected Native.echo.name)

def ofCallable (fuel : Nat) (arguments : List Value) : Callable → Plan (fuel + 1) Value
  | .native builtin => ofNative arguments builtin
  | .function closure => start .here (.invokeFunction fuel closure arguments) done
  | .constructor cls =>
      act (.newInstance cls) fun inst =>
        match cls.findMethod? "init" with
        | some initializer =>
            start .here (.bindMethod initializer inst) fun bound =>
              start .here (.invokeFunction fuel bound arguments) fun _ => done (.object inst)
        | none => done (.object inst)

def functionResult (closure : Closure) (flow : Flow) : Plan bound Value :=
  if closure.isInitializer then
    act (.receiver closure.env) fun
      | some value => done value
      | none => fail .initializerWithoutInstance closure.decl.name
  else
    match flow with
    | .returned value => done value
    | .normal => done .nil

def ofFunction (fuel : Nat) (closure : Closure) (arguments : List Value) :
    Plan (fuel + 1) Value :=
  act (.openScope closure.env (Run.parameterBindings closure.decl.params arguments)) fun env =>
    start (.inside env) (.executeAll fuel closure.decl.body) fun flow => functionResult closure flow

def ofStmt (fuel : Nat) : Stmt → Plan (fuel + 1) Flow
  | .expression value => start .here (.evaluate fuel value) fun _ => done .normal
  | .print keyword value =>
      start .here (.evaluate fuel value) fun result =>
        act (.writeLine result.text) fun
          | .ok () => done .normal
          | .error fault => fail (.outputFailed fault) keyword
  | .varDecl name initializer =>
      start .here (.evaluateOr fuel initializer) fun value =>
        act (.define name.lexeme value) fun _ => done .normal
  | .block body =>
      act .env fun outer => act (.openScope outer {}) fun env =>
        start (.inside env) (.executeAll fuel body) done
  | .ifThen condition thenBranch =>
      start .here (.evaluate fuel condition) fun value =>
        if value.isTruthy then start .here (.execute fuel thenBranch) done else done .normal
  | .ifElse condition thenBranch elseBranch =>
      start .here (.evaluate fuel condition) fun value =>
        if value.isTruthy then start .here (.execute fuel thenBranch) done
        else start .here (.execute fuel elseBranch) done
  | .whileLoop condition body => start .here (.repeatWhile fuel condition body) done
  | .functionDecl decl =>
      act .env fun env =>
        act (.define decl.name.lexeme (.function ⟨decl, env, false⟩)) fun _ => done .normal
  | .returnStmt _ value => start .here (.evaluateOr fuel value) fun result => done (.returned result)
  | .classDecl name (some parent) methods =>
      start .here (.evaluate fuel parent) fun
        | .callable (.constructor cls) =>
            start .here (.declareClass name (some cls) methods) fun _ => done .normal
        | _ => fail .superclassNotClass (parent.superclassPlace name)
  | .classDecl name none methods =>
      start .here (.declareClass name none methods) fun _ => done .normal

def ofStmts (fuel : Nat) : List Stmt → Plan (fuel + 1) Flow
  | [] => done .normal
  | first :: rest =>
      start .here (.execute fuel first) fun
        | .returned value => done (.returned value)
        | .normal => start .here (.executeAll fuel rest) done

def ofLoop (fuel : Nat) (condition : Expr) (body : Stmt) : Plan (fuel + 1) Flow :=
  start .here (.evaluate fuel condition) fun value =>
    if value.isTruthy then
      start .here (.execute fuel body) fun
        | .returned result => done (.returned result)
        | .normal => start .here (.repeatWhile fuel condition body) done
    else done .normal

def ofClass (name : Token) (superclass : Option ClassObject) (methods : List FunctionDecl) :
    Plan bound Unit :=
  let finish (env : Env) : Plan bound Unit :=
    act (.makeClass name.lexeme superclass env methods) fun cls =>
      act (.define name.lexeme (.ofClass cls)) fun _ => done ()
  act (.define name.lexeme .nil) fun _ => act .env fun present =>
    match superclass with
    | some parent =>
        act (.openScope present (({} : Bindings).insert "super" (.ofClass parent))) finish
    | none => finish present

def ofProgram (fuel : Nat) : (stmts : List Stmt) → Plan (fuel + stmts.length) Unit
  | [] => done ()
  | first :: rest =>
      start .here (.execute fuel first) fun _ => start .here (.executeProgram fuel rest) done

end Plan

open Plan in
def Task.plan : (task : Task) → Plan task.bound task.Result
  | evaluate 0 _ | evaluateAll 0 _ | evaluateOr 0 _ | call 0 _ _ _ | invoke 0 _ _
  | invokeFunction 0 _ _ | execute 0 _ | executeAll 0 _ | repeatWhile 0 _ _ => stop .outOfFuel
  | evaluate (fuel + 1) expr => ofExpr fuel expr
  | evaluateAll (fuel + 1) exprs => ofExprs fuel exprs
  | evaluateOr (_ + 1) none => done .nil
  | evaluateOr (fuel + 1) (some expr) => start .here (.evaluate fuel expr) done
  | call (fuel + 1) function paren arguments => ofCall fuel function paren arguments
  | invoke (fuel + 1) callee arguments => ofCallable fuel arguments callee
  | invokeFunction (fuel + 1) closure arguments => ofFunction fuel closure arguments
  | bindMethod method inst =>
      act (.openScope method.env (({} : Bindings).insert "this" (.object inst))) fun env =>
        done { method with env }
  | execute (fuel + 1) stmt => ofStmt fuel stmt
  | executeAll (fuel + 1) stmts => ofStmts fuel stmts
  | repeatWhile (fuel + 1) condition body => ofLoop fuel condition body
  | declareClass name superclass methods => ofClass name superclass methods
  | executeProgram fuel stmts => ofProgram fuel stmts

theorem Task.cases_plan {motive : Task → Prop} (task : Task)
    (exhausted : ∀ task : Task, task.plan = .stop .outOfFuel → task.run = throw .outOfFuel →
      motive task)
    (evaluate : ∀ fuel expr, motive (.evaluate (fuel + 1) expr))
    (evaluateAll : ∀ fuel exprs, motive (.evaluateAll (fuel + 1) exprs))
    (evaluateOr : ∀ fuel expr, motive (.evaluateOr (fuel + 1) expr))
    (call : ∀ fuel function paren arguments, motive (.call (fuel + 1) function paren arguments))
    (invoke : ∀ fuel callee arguments, motive (.invoke (fuel + 1) callee arguments))
    (invokeFunction : ∀ fuel closure arguments,
      motive (.invokeFunction (fuel + 1) closure arguments))
    (bindMethod : ∀ method inst, motive (.bindMethod method inst))
    (execute : ∀ fuel stmt, motive (.execute (fuel + 1) stmt))
    (executeAll : ∀ fuel stmts, motive (.executeAll (fuel + 1) stmts))
    (repeatWhile : ∀ fuel condition body, motive (.repeatWhile (fuel + 1) condition body))
    (declareClass : ∀ name superclass methods, motive (.declareClass name superclass methods))
    (executeProgram : ∀ fuel stmts, motive (.executeProgram fuel stmts)) : motive task :=
  match task with
  | .evaluate 0 _ | .evaluateAll 0 _ | .evaluateOr 0 _ | .call 0 _ _ _ | .invoke 0 _ _
  | .invokeFunction 0 _ _ | .execute 0 _ | .executeAll 0 _ | .repeatWhile 0 _ _ =>
      exhausted _ rfl rfl
  | .evaluate (fuel + 1) expr => evaluate fuel expr
  | .evaluateAll (fuel + 1) exprs => evaluateAll fuel exprs
  | .evaluateOr (fuel + 1) expr => evaluateOr fuel expr
  | .call (fuel + 1) function paren arguments => call fuel function paren arguments
  | .invoke (fuel + 1) callee arguments => invoke fuel callee arguments
  | .invokeFunction (fuel + 1) closure arguments => invokeFunction fuel closure arguments
  | .bindMethod method inst => bindMethod method inst
  | .execute (fuel + 1) stmt => execute fuel stmt
  | .executeAll (fuel + 1) stmts => executeAll fuel stmts
  | .repeatWhile (fuel + 1) condition body => repeatWhile fuel condition body
  | .declareClass name superclass methods => declareClass name superclass methods
  | .executeProgram fuel stmts => executeProgram fuel stmts

/-! Every task carries out its plan. -/

def Task.runWith (more : Option Nat) : (task : Task) → Run task.Result
  | evaluate fuel expr => Lox.evaluate (more.getD fuel) expr
  | evaluateAll fuel exprs => Lox.evaluateAll (more.getD fuel) exprs
  | evaluateOr fuel expr => Lox.evaluateOr (more.getD fuel) expr
  | call fuel function paren arguments => Lox.call (more.getD fuel) function paren arguments
  | invoke fuel callee arguments => Lox.invoke (more.getD fuel) callee arguments
  | invokeFunction fuel closure arguments =>
      Lox.invokeFunction (more.getD fuel) closure arguments
  | bindMethod method inst => Run.bindMethod method inst
  | execute fuel stmt => Lox.execute (more.getD fuel) stmt
  | executeAll fuel stmts => Lox.executeAll (more.getD fuel) stmts
  | repeatWhile fuel condition body => Lox.repeatWhile (more.getD fuel) condition body
  | declareClass name superclass methods => Run.declareClass name superclass methods
  | executeProgram fuel stmts => Lox.executeProgram (more.getD fuel) stmts

theorem Task.runWith_none (task : Task) : task.runWith none = task.run := by
  cases task <;> rfl

def Task.refuel (more : Option Nat) : Task → Task
  | evaluate fuel expr => .evaluate (more.getD fuel) expr
  | evaluateAll fuel exprs => .evaluateAll (more.getD fuel) exprs
  | evaluateOr fuel expr => .evaluateOr (more.getD fuel) expr
  | call fuel function paren arguments => .call (more.getD fuel) function paren arguments
  | invoke fuel callee arguments => .invoke (more.getD fuel) callee arguments
  | invokeFunction fuel closure arguments => .invokeFunction (more.getD fuel) closure arguments
  | execute fuel stmt => .execute (more.getD fuel) stmt
  | executeAll fuel stmts => .executeAll (more.getD fuel) stmts
  | repeatWhile fuel condition body => .repeatWhile (more.getD fuel) condition body
  | executeProgram fuel stmts => .executeProgram (more.getD fuel) stmts
  | task => task

theorem Task.refuel_none (task : Task) : task.refuel none = task := by
  cases task <;> rfl

namespace Plan

variable {α : Type} {bound : Nat} {more : Option Nat}

theorem play_start {setting : Setting} {task : Task} {rest : task.Result → Plan bound α}
    {shorter : task.bound < bound} {next : task.Result → Run α}
    (same : ∀ result, (rest result).play (Task.runWith more) = next result) :
    (start setting task rest shorter).play (Task.runWith more) =
      setting.around (task.runWith more) >>= next := by
  rw [play, funext same]

theorem play_start_done (setting : Setting) (task : Task) (shorter : task.bound < bound) :
    (start setting task done shorter).play (Task.runWith more) = setting.around (task.runWith more) :=
  (play_start fun _ => rfl).trans (bind_pure (setting.around (task.runWith more)))

theorem play_act {deed : Deed} {next : deed.Result → Plan bound α} {step : Run α}
    (same : ∀ machine, (next (deed.answer machine)).play (Task.runWith more) (deed.change machine) = step machine) :
    (act deed next).play (Task.runWith more) = step := funext same

theorem play_orFailAt (place : Token) (result : Except RuntimeFault α) :
    (orFailAt place result : Plan bound α).play (Task.runWith more) = Run.orFailAt place result := by
  cases result <;> rfl

theorem play_writeLine {text : String} {rest : Except HostFault Unit → Plan bound α}
    {next : Except HostFault Unit → Run α} (same : ∀ result, (rest result).play (Task.runWith more) = next result) :
    (act (.writeLine text) rest).play (Task.runWith more) = Run.writeLine text >>= next :=
  play_act fun _ => congrFun (same _) _

theorem play_readVariable (id : ExprId) (name : Token) :
    (readVariable id name : Plan bound Value).play (Task.runWith more) = Run.readVariable id name := by
  refine play_act fun machine => ?_
  simp only [Run.readVariable, Run.get_bind, Deed.answer, Deed.change]
  cases machine.valueOf? id name.lexeme <;> rfl

theorem play_assignVariable (id : ExprId) (name : Token) (value : Value) :
    (assignVariable id name value : Plan bound Value).play (Task.runWith more) =
      Run.assignVariable id name value >>= fun _ => pure value := by
  refine play_act fun machine => ?_
  simp only [Run.assignVariable, Run.get_bind, bind_assoc, Deed.answer, Deed.change]
  cases machine.holderOf? id name.lexeme <;> rfl

theorem play_getProperty (fuel : Nat) (inst : Instance) (name : Token) :
    (getProperty fuel inst name).play (Task.runWith more) = Run.getProperty inst name := by
  refine play_act fun machine => ?_
  simp only [Run.getProperty, Run.get_bind, Deed.answer, Deed.change]
  cases machine.field? inst name.lexeme with
  | some value => rfl
  | none => cases inst.cls.findMethod? name.lexeme <;> rfl

theorem play_readSuper (fuel : Nat) (id : ExprId) (keyword method : Token) :
    (readSuper fuel id keyword method).play (Task.runWith more) = Run.readSuper id keyword method := by
  refine play_act fun machine => Eq.symm ?_
  simp only [Run.readSuper, Run.get_bind, Deed.answer, Deed.change, Deed.inherited]
  rcases machine.depths[id]? with _ | _ | depth
  · rfl
  · rfl
  · dsimp only
    generalize machine.scopes.getAt? machine.env (depth + 1) "super" = parent
    generalize machine.scopes.getAt? machine.env depth "this" = receiver
    rcases parent with _ | (_ | _ | _ | _ | (_ | _ | superclass) | _)
    case some.callable.constructor =>
      rcases receiver with _ | (_ | _ | _ | _ | _ | inst)
      case some.object =>
        dsimp only
        cases superclass.findMethod? method.lexeme <;> rfl
      all_goals rfl
    all_goals cases receiver <;> rfl

theorem play_ofExpr (fuel : Nat) (expr : Expr) :
    (ofExpr fuel expr).play (Task.runWith more) = evaluate (more.getD fuel + 1) expr := by
  unfold evaluate
  cases expr with
  | literal => rfl
  | grouping => exact play_start_done _ _ _
  | unary => exact play_start fun _ => play_orFailAt _ _
  | binary => exact play_start fun _ => play_start fun _ => play_orFailAt _ _
  | logical =>
      refine play_start fun value => ?_
      split
      · rfl
      · exact play_start_done _ _ _
  | comma => exact play_start fun _ => play_start_done _ _ _
  | conditional =>
      refine play_start fun value => ?_
      split <;> exact play_start_done _ _ _
  | var id name => exact play_readVariable id name
  | assign id name value => exact play_start fun result => play_assignVariable id name result
  | call => exact play_start fun _ => play_start fun _ => play_start_done _ _ _
  | get object name =>
      refine play_start fun value => ?_
      cases value with
      | object inst => exact play_getProperty fuel inst name
      | _ => rfl
  | set object name value =>
      refine play_start fun value => ?_
      cases value with
      | object inst => exact play_start fun _ => rfl
      | _ => rfl
  | this id keyword => exact play_readVariable id keyword
  | super id keyword method => exact play_readSuper fuel id keyword method

theorem play_ofCall (fuel : Nat) (function : Value) (paren : Token) (arguments : List Value) :
    (ofCall fuel function paren arguments).play (Task.runWith more) = call (more.getD fuel + 1) function paren arguments := by
  unfold call ofCall
  cases function.callable? with
  | none => rfl
  | some callee =>
      dsimp only
      split
      · rfl
      · exact play_start_done _ _ _

theorem play_ofNative (builtin : Native) (arguments : List Value) :
    (ofNative arguments builtin : Plan bound Value).play (Task.runWith more) = builtin.call arguments := by
  cases builtin with
  | clock => rfl
  | readLine =>
      refine play_act fun machine => ?_
      show _ = Native.callReadLine machine
      simp only [Deed.answer, Deed.change, Native.callReadLine, Run.get_bind]
      rcases machine.host.takeLine with ⟨fault | ⟨_ | text⟩, host⟩ <;> rfl
  | readFile =>
      rcases arguments with _ | ⟨first, _ | ⟨second, rest⟩⟩
      · rfl
      · cases first with
        | string path =>
            refine play_act fun machine => ?_
            show _ = Native.callReadFile [.string path] machine
            simp only [Native.callReadFile, Run.get_bind, Deed.answer, Deed.change]
            cases machine.host.files.readText path <;> rfl
        | _ => rfl
      · cases first <;> rfl
  | writeFile =>
      rcases arguments with _ | ⟨first, _ | ⟨content, _ | ⟨third, rest⟩⟩⟩
      · rfl
      · cases first <;> rfl
      · cases first with
        | string path =>
            refine play_act fun machine => ?_
            show _ = Native.callWriteFile [.string path, content] machine
            simp only [Native.callWriteFile, Run.get_bind, Deed.answer, Deed.change]
            cases machine.host.files.write path content.text.toUTF8.toList <;> rfl
        | _ => rfl
      · cases first <;> rfl
  | echo =>
      rcases arguments with _ | ⟨value, _ | ⟨second, rest⟩⟩
      · rfl
      · exact play_writeLine fun result => by cases result <;> rfl
      · rfl

theorem play_ofCallable (fuel : Nat) (callee : Callable) (arguments : List Value) :
    (ofCallable fuel arguments callee).play (Task.runWith more) = invoke (more.getD fuel + 1) callee arguments := by
  unfold invoke
  cases callee with
  | native builtin => exact play_ofNative builtin arguments
  | function => exact play_start_done _ _ _
  | constructor cls =>
      refine play_act fun machine => ?_
      simp only [Run.ok_bind (rfl : Run.newInstance cls machine = .ok _ _)]
      cases cls.findMethod? "init" <;> rfl

theorem play_ofFunction (fuel : Nat) (closure : Closure) (arguments : List Value) :
    (ofFunction fuel closure arguments).play (Task.runWith more) = invokeFunction (more.getD fuel + 1) closure arguments := by
  unfold invokeFunction
  refine play_act fun machine => congrFun (play_start fun flow => ?_) _
  unfold functionResult Run.functionResult
  split
  · refine play_act fun machine => ?_
    simp only [Run.get_bind, Deed.answer, Deed.change]
    cases machine.scopes.getAt? closure.env 0 "this" <;> rfl
  · cases flow <;> rfl

theorem play_ofStmt (fuel : Nat) (stmt : Stmt) :
    (ofStmt fuel stmt).play (Task.runWith more) = execute (more.getD fuel + 1) stmt := by
  unfold execute
  cases stmt with
  | expression => exact play_start fun _ => rfl
  | print keyword value =>
      refine play_start fun result => ?_
      rw [Run.print, bind_assoc]
      exact play_writeLine fun result => by cases result <;> rfl
  | varDecl => exact play_start fun _ => rfl
  | block => exact play_act fun _ => congrFun (play_start_done _ _ (Nat.lt_succ_self fuel)) _
  | ifThen =>
      refine play_start fun value => ?_
      split
      · exact play_start_done _ _ _
      · rfl
  | ifElse =>
      refine play_start fun value => ?_
      split <;> exact play_start_done _ _ _
  | whileLoop => exact play_start_done _ _ _
  | functionDecl => rfl
  | returnStmt => exact play_start fun _ => rfl
  | classDecl name superclass methods =>
      cases superclass with
      | none => exact play_start fun _ => rfl
      | some parent =>
          refine play_start fun value => ?_
          cases value with
          | callable callee =>
              cases callee with
              | constructor cls => exact play_start fun _ => rfl
              | _ => rfl
          | _ => rfl

theorem play_ofStmts (fuel : Nat) (stmts : List Stmt) :
    (ofStmts fuel stmts).play (Task.runWith more) = executeAll (more.getD fuel + 1) stmts := by
  unfold executeAll
  cases stmts with
  | nil => rfl
  | cons =>
      refine play_start fun flow => ?_
      cases flow with
      | normal => exact play_start_done _ _ _
      | returned => rfl

theorem play_ofLoop (fuel : Nat) (condition : Expr) (body : Stmt) :
    (ofLoop fuel condition body).play (Task.runWith more) = repeatWhile (more.getD fuel + 1) condition body := by
  unfold repeatWhile
  refine play_start fun value => ?_
  split
  · refine play_start fun flow => ?_
    cases flow with
    | normal => exact play_start_done _ _ _
    | returned => rfl
  · rfl

theorem play_ofExprs (fuel : Nat) (exprs : List Expr) :
    (ofExprs fuel exprs).play (Task.runWith more) = evaluateAll (more.getD fuel + 1) exprs := by
  unfold evaluateAll
  cases exprs with
  | nil => rfl
  | cons => exact play_start fun _ => play_start fun _ => rfl

theorem play_ofProgram (fuel : Nat) (stmts : List Stmt) :
    (ofProgram fuel stmts).play (Task.runWith more) = executeProgram (more.getD fuel) stmts := by
  cases stmts with
  | nil => rfl
  | cons => exact play_start fun _ => play_start_done _ _ _

end Plan

open Plan

theorem Task.play_plan_with (task : Task) :
    (task.plan = .stop .outOfFuel ∧ task.run = throw .outOfFuel) ∨
      (0 < task.bound ∧
        ∀ more, task.plan.play (Task.runWith more) = task.runWith (more.map Nat.succ)) ∨
      ∀ more, task.plan.play (Task.runWith more) = task.runWith more := by
  cases task using cases_plan with
  | exhausted task spent ended => exact .inl ⟨spent, ended⟩
  | bindMethod => exact .inr (.inr fun _ => rfl)
  | declareClass name superclass methods => cases superclass <;> exact .inr (.inr fun _ => rfl)
  | executeProgram fuel stmts => exact .inr (.inr fun _ => play_ofProgram fuel stmts)
  | evaluate fuel expr =>
      exact .inr (.inl ⟨fuel.succ_pos, fun more => by cases more <;> exact play_ofExpr fuel expr⟩)
  | evaluateAll fuel exprs =>
      exact .inr (.inl ⟨fuel.succ_pos, fun more => by cases more <;> exact play_ofExprs fuel exprs⟩)
  | evaluateOr fuel expr =>
      refine .inr (.inl ⟨fuel.succ_pos, fun more => ?_⟩)
      cases expr with
      | none => cases more <;> rfl
      | some => cases more <;> exact play_start_done _ _ _
  | call fuel function paren arguments =>
      refine .inr (.inl ⟨fuel.succ_pos, fun more => ?_⟩)
      cases more <;> exact play_ofCall fuel function paren arguments
  | invoke fuel callee arguments =>
      refine .inr (.inl ⟨fuel.succ_pos, fun more => ?_⟩)
      cases more <;> exact play_ofCallable fuel callee arguments
  | invokeFunction fuel closure arguments =>
      refine .inr (.inl ⟨fuel.succ_pos, fun more => ?_⟩)
      cases more <;> exact play_ofFunction fuel closure arguments
  | execute fuel stmt =>
      exact .inr (.inl ⟨fuel.succ_pos, fun more => by cases more <;> exact play_ofStmt fuel stmt⟩)
  | executeAll fuel stmts =>
      exact .inr (.inl ⟨fuel.succ_pos, fun more => by cases more <;> exact play_ofStmts fuel stmts⟩)
  | repeatWhile fuel condition body =>
      refine .inr (.inl ⟨fuel.succ_pos, fun more => ?_⟩)
      cases more <;> exact play_ofLoop fuel condition body

theorem Task.play_plan (task : Task) : task.plan.play Task.run = task.run := by
  rw [← funext Task.runWith_none]
  rcases task.play_plan_with with ⟨stops, exhausted⟩ | ⟨-, played⟩ | played
  · rw [stops, Task.runWith_none, exhausted]
    rfl
  · exact played none
  · exact played none

end Lox
