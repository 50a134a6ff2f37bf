import Mathlib
import Lox.Proofs.Run.Timeline
import Lox.Proofs.Scoping.Ready

/-!
Where errors come from. `Raises` has a rule for each place where the evaluator itself raises an
error, and every other error is passed on as it is from a task that was begun. So a task that fails
reaches a task that raises the error. The functions of the host fail without a place, and the call
that invoked them is the one that gives them one.
-/

namespace Lox

namespace Run

variable {α : Type} {step : Run α} {machine : Machine} {error : RuntimeError}

def Fails (step : Run α) (machine : Machine) (error : RuntimeError) : Prop :=
  ∃ after, step machine = .error (.error error) after

def error? (step : Run α) (machine : Machine) : Option RuntimeError :=
  match step machine with
  | .error (.error error) _ => some error
  | _ => none

theorem fails_iff_error? : step.Fails machine error ↔ step.error? machine = some error := by
  unfold Fails error?
  rcases step machine with ⟨value, after⟩ | ⟨found | _, after⟩ <;> simp

instance : Decidable (step.Fails machine error) := decidable_of_iff _ fails_iff_error?.symm

theorem Fails.unique {other : RuntimeError} (first : step.Fails machine error)
    (second : step.Fails machine other) : error = other :=
  Option.some.inj ((fails_iff_error?.mp first).symm.trans (fails_iff_error?.mp second))

@[simp] theorem not_fails_pure (value : α) : ¬ (pure value : Run α).Fails machine error := by
  rintro ⟨after, ended⟩
  cases ended

end Run

open Run

def Task.Fails (task : Task) (machine : Machine) (error : RuntimeError) : Prop :=
  task.run.Fails machine error

theorem Setting.fails_around {α : Type} {setting : Setting} {step : Run α}
    {machine present : Machine} (entered : setting.enter? machine = some present)
    {fault : RuntimeFault} {place : Token} (failed : step.Fails present ⟨fault, some place⟩) :
    (setting.around step).Fails machine ⟨fault, some place⟩ := by
  obtain ⟨after, ended⟩ := failed
  refine ⟨setting.leave machine after, ?_⟩
  rw [around_of_some entered, ended]
  cases setting <;> rfl

namespace Plan

variable {α : Type} {bound : Nat} {machine later : Machine} {error : RuntimeError} {other : Task}

/-- The plan ends with this error by itself: no task that it begins does. -/
def Stops (error : RuntimeError) (machine : Machine) : Plan bound α → Prop
  | done _ => False
  | stop abort => abort = .error error
  | act deed next => (next (deed.answer machine)).Stops error (deed.change machine)
  | start setting task next _ =>
      (∃ paren, setting = .nested paren ∧ machine.maxCallDepth ≤ machine.callDepth ∧
        error = ⟨.stackOverflow, some paren⟩) ∨
      ∃ result after, setting.around task.run machine = .ok result after ∧
        (next result).Stops error after

theorem stops_here {task : Task} {next : task.Result → Plan bound α}
    {shorter : task.bound < bound} :
    (start .here task next shorter).Stops error machine ↔
      ∃ result after, task.run machine = .ok result after ∧ (next result).Stops error after := by
  simp [Stops, Setting.around]

theorem stops_orFailAt {place : Token} {result : Except RuntimeFault α} :
    (orFailAt place result : Plan bound α).Stops error machine ↔
      ∃ fault, result = .error fault ∧ error = ⟨fault, some place⟩ := by
  cases result with
  | ok value => simp [orFailAt, Stops]
  | error fault => simp [orFailAt, Plan.fail, Stops, eq_comm]

theorem fails_cases (plan : Plan bound α) (failed : (plan.play Task.run).Fails machine error) :
    plan.Stops error machine ∨
      ∃ other later inner, (other, later) ∈ plan.stages Task.run machine ∧
        other.Fails later inner ∧ ∀ place, inner.place = some place → error = inner := by
  induction plan generalizing machine with
  | done value => exact absurd failed (not_fails_pure value)
  | stop abort =>
      obtain ⟨after, ended⟩ := failed
      cases ended
      exact .inl rfl
  | act deed next ih => exact ih _ failed
  | start setting task next less ih =>
      obtain ⟨last, ended⟩ := failed
      simp only [play, Bind.bind, EStateM.bind] at ended
      simp only [stages, Stops]
      cases ran : setting.around task.run machine with
      | ok result after =>
          rw [ran] at ended
          rcases ih result ⟨last, ended⟩ with stops | ⟨other, later, inner, member, rest⟩
          · exact .inl (.inr ⟨result, after, rfl, stops⟩)
          · exact .inr ⟨other, later, inner, List.mem_append_right _ member, rest⟩
      | error abort after =>
          rw [ran] at ended
          cases ended
          cases entered : setting.enter? machine with
          | none =>
              obtain ⟨paren, nested, full, refused⟩ := Setting.around_of_none task.run entered
              rw [ran] at refused
              cases refused
              exact .inl (.inl ⟨paren, nested, full, rfl⟩)
          | some present =>
              rw [Setting.around_of_some entered] at ran
              rcases found : task.run present with ⟨value, final⟩ | ⟨abort, final⟩
              · rw [found] at ran
                cases ran
              · rw [found] at ran
                injection ran with placed
                rcases abort with ⟨fault, place⟩ | _
                · refine .inr ⟨task, present, ⟨fault, place⟩, by simp, ⟨final, found⟩, ?_⟩
                  rintro known rfl
                  cases setting <;> cases placed <;> rfl
                · cases setting <;> cases placed

theorem fails_of_mem_stages (plan : Plan bound α) {fault : RuntimeFault} {place : Token}
    (member : (other, later) ∈ plan.stages Task.run machine)
    (failed : other.Fails later ⟨fault, some place⟩) :
    (plan.play Task.run).Fails machine ⟨fault, some place⟩ := by
  induction plan generalizing machine with
  | done | stop => cases member
  | act deed next ih => exact ih _ member
  | start setting task next less ih =>
      simp only [Run.Fails, play, Bind.bind, EStateM.bind]
      simp only [stages, List.mem_append] at member
      rcases member with begun | later
      · obtain ⟨present, entered, same⟩ := List.mem_map.mp begun
        cases same
        obtain ⟨after, ended⟩ := Setting.fails_around (Option.mem_toList.mp entered) failed
        exact ⟨after, by rw [ended]⟩
      · cases ended : setting.around task.run machine with
        | ok result after =>
            rw [ended] at later
            exact ih result later
        | error abort after =>
            rw [ended] at later
            cases later

end Plan

open Plan

inductive RuntimeFault.OfHost : RuntimeFault → Prop
  | output (cause) : OfHost (.outputFailed cause)
  | input (cause) : OfHost (.inputFailed cause)
  | notRead (path cause) : OfHost (.fileNotRead path cause)
  | notWritten (path cause) : OfHost (.fileNotWritten path cause)
  | path (builtin : Native) (actual) : OfHost (.pathExpected builtin.name actual)
  | argument (builtin : Native) : OfHost (.oneArgumentExpected builtin.name)

/-- The functions of the host place no error, and the output is written to by one of them only. -/
theorem Plan.Stops.native {bound : Nat} {machine : Machine} {error : RuntimeError}
    {arguments : List Value} {builtin : Native}
    (stops : (ofNative arguments builtin : Plan bound Value).Stops error machine) :
    error.fault.OfHost ∧ error.place = none ∧
      ∀ cause, error.fault = .outputFailed cause → builtin = .echo ∧ ∃ value, arguments = [value] ∧
        (machine.host.sink.writeLine value.text).1 = .error cause := by
  cases builtin with
  | clock => exact stops.elim
  | readLine =>
      simp only [ofNative, Stops] at stops
      split at stops
      · exact stops.elim
      · exact stops.elim
      · cases stops
        exact ⟨.input _, rfl, by simp⟩
  | readFile =>
      simp only [ofNative] at stops
      split at stops
      · simp only [Stops] at stops
        split at stops
        · exact stops.elim
        · cases stops
          exact ⟨.notRead _ _, rfl, by simp⟩
      · cases stops
        exact ⟨.path .readFile _, rfl, by simp⟩
  | writeFile =>
      simp only [ofNative] at stops
      split at stops
      · simp only [Stops] at stops
        split at stops
        · exact stops.elim
        · cases stops
          exact ⟨.notWritten _ _, rfl, by simp⟩
      · cases stops
        exact ⟨.path .writeFile _, rfl, by simp⟩
  | echo =>
      simp only [ofNative] at stops
      split at stops
      · simp only [Stops] at stops
        split at stops
        · exact stops.elim
        · rename_i fault refused
          cases stops
          refine ⟨.output _, rfl, fun cause same => ⟨rfl, _, rfl, ?_⟩⟩
          cases same
          exact refused
      · cases stops
        exact ⟨.argument .echo, rfl, by simp⟩

/-- A task raises an error of its own. -/
inductive Raises : Task → Machine → RuntimeError → Prop
  | unary {fuel operator operand machine value after fault} :
      evaluate fuel operand machine = .ok value after →
      Operator.unary operator.kind value = .error fault →
      Raises (.evaluate (fuel + 1) (.unary operator operand)) machine ⟨fault, some operator⟩
  | binary {fuel left operator right machine first middle second after fault} :
      evaluate fuel left machine = .ok first middle → evaluate fuel right middle = .ok second after →
      Operator.binary operator.kind first second = .error fault →
      Raises (.evaluate (fuel + 1) (.binary left operator right)) machine ⟨fault, some operator⟩
  | unbound {fuel id name machine} :
      machine.valueOf? id name.lexeme = none →
      Raises (.evaluate (fuel + 1) (.var id name)) machine
        ⟨.undefinedVariable name.lexeme, some name⟩
  | unboundThis {fuel id keyword machine} :
      machine.valueOf? id keyword.lexeme = none →
      Raises (.evaluate (fuel + 1) (.this id keyword)) machine
        ⟨.undefinedVariable keyword.lexeme, some keyword⟩
  | unassignable {fuel id name value machine result after} :
      evaluate fuel value machine = .ok result after → after.holderOf? id name.lexeme = none →
      Raises (.evaluate (fuel + 1) (.assign id name value)) machine
        ⟨.undefinedVariable name.lexeme, some name⟩
  | propertyOfNonInstance {fuel object name machine target after} :
      evaluate fuel object machine = .ok target after → (∀ inst, target ≠ .object inst) →
      Raises (.evaluate (fuel + 1) (.get object name)) machine
        ⟨.propertyOfNonInstance, some name⟩
  | undefinedProperty {fuel object name machine inst after} :
      evaluate fuel object machine = .ok (.object inst) after →
      after.field? inst name.lexeme = none → inst.cls.findMethod? name.lexeme = none →
      Raises (.evaluate (fuel + 1) (.get object name)) machine
        ⟨.undefinedProperty name.lexeme, some name⟩
  | fieldOfNonInstance {fuel object name value machine target after} :
      evaluate fuel object machine = .ok target after → (∀ inst, target ≠ .object inst) →
      Raises (.evaluate (fuel + 1) (.set object name value)) machine
        ⟨.fieldOfNonInstance, some name⟩
  | superOutside {fuel id keyword method machine} :
      Deed.inherited machine id = none →
      Raises (.evaluate (fuel + 1) (.super id keyword method)) machine
        ⟨.superOutsideClass, some keyword⟩
  | undefinedMethod {fuel id keyword method machine superclass inst} :
      Deed.inherited machine id = some (superclass, inst) → superclass.findMethod? method.lexeme = none →
      Raises (.evaluate (fuel + 1) (.super id keyword method)) machine
        ⟨.undefinedProperty method.lexeme, some method⟩
  | notCallable {fuel function paren arguments machine} :
      function.callable? = none →
      Raises (.call (fuel + 1) function paren arguments) machine ⟨.notCallable, some paren⟩
  | argumentCount {fuel function paren arguments machine callee} :
      function.callable? = some callee → arguments.length ≠ callee.arity →
      Raises (.call (fuel + 1) function paren arguments) machine
        ⟨.wrongArgumentCount callee.arity arguments.length, some paren⟩
  | stackOverflow {fuel function paren arguments machine callee} :
      function.callable? = some callee → arguments.length = callee.arity →
      machine.maxCallDepth ≤ machine.callDepth →
      Raises (.call (fuel + 1) function paren arguments) machine ⟨.stackOverflow, some paren⟩
  | native {fuel function paren arguments machine builtin fault} :
      function.callable? = some (.native builtin) → arguments.length = builtin.arity →
      machine.callDepth < machine.maxCallDepth →
      (ofNative arguments builtin : Plan 0 Value).Stops ⟨fault, none⟩ machine.calling →
      Raises (.call (fuel + 2) function paren arguments) machine ⟨fault, some paren⟩
  | initializer {fuel closure arguments machine flow after} :
      executeAll fuel closure.decl.body
          (machine.entering closure.env (parameterBindings closure.decl.params arguments)) =
        .ok flow after →
      closure.isInitializer = true → after.scopes.getAt? closure.env 0 "this" = none →
      Raises (.invokeFunction (fuel + 1) closure arguments) machine
        ⟨.initializerWithoutInstance, some closure.decl.name⟩
  | print {fuel keyword value machine result after cause} :
      evaluate fuel value machine = .ok result after →
      (after.host.sink.writeLine result.text).1 = .error cause →
      Raises (.execute (fuel + 1) (.print keyword value)) machine
        ⟨.outputFailed cause, some keyword⟩
  | superclass {fuel name parent methods machine value after} :
      evaluate fuel parent machine = .ok value after →
      (∀ cls, value ≠ .callable (.constructor cls)) →
      Raises (.execute (fuel + 1) (.classDecl name (some parent) methods)) machine
        ⟨.superclassNotClass, some (parent.superclassPlace name)⟩

theorem Raises.placed {task : Task} {machine : Machine} {error : RuntimeError}
    (raised : Raises task machine error) : ∃ place, error.place = some place := by
  cases raised <;> exact ⟨_, rfl⟩

namespace Task

variable {task other : Task} {machine later : Machine} {fuel : Nat} {error : RuntimeError}

theorem raises_evaluate {expr : Expr} (stops : (ofExpr fuel expr).Stops error machine) :
    Raises (evaluate (fuel + 1) expr) machine error := by
  cases expr with
  | literal value => exact stops.elim
  | unary operator operand =>
      obtain ⟨value, after, ended, stops⟩ := stops_here.mp stops
      obtain ⟨fault, applied, rfl⟩ := stops_orFailAt.mp stops
      exact .unary ended applied
  | binary left operator right =>
      obtain ⟨first, middle, ended, stops⟩ := stops_here.mp stops
      obtain ⟨second, after, ended', stops⟩ := stops_here.mp stops
      obtain ⟨fault, applied, rfl⟩ := stops_orFailAt.mp stops
      exact .binary ended ended' applied
  | grouping | logical | comma | conditional | call =>
      simp [ofExpr, stops_here, apply_ite (Stops error _), Stops] at stops
  | var id name | this id name =>
      simp only [ofExpr, Plan.readVariable, Stops] at stops
      split at stops
      · exact stops.elim
      · rename_i missing
        cases stops
        first | exact .unbound missing | exact .unboundThis missing
  | assign id name value =>
      obtain ⟨result, middle, ended, stops⟩ := stops_here.mp stops
      simp only [Plan.assignVariable, Stops] at stops
      split at stops
      · exact stops.elim
      · rename_i missing
        cases stops
        exact .unassignable ended (Option.isNone_iff_eq_none.mp (Option.isSome_eq_false_iff.mp missing))
  | get object name =>
      obtain ⟨target, after, ended, stops⟩ := stops_here.mp stops
      split at stops
      · simp only [Plan.getProperty, Stops] at stops
        split at stops
        · exact stops.elim
        · rename_i absent
          split at stops
          · obtain ⟨bound, last, -, stops⟩ := stops_here.mp stops
            exact stops.elim
          · rename_i missing
            cases stops
            exact .undefinedProperty ended absent missing
      · rename_i plain
        cases stops
        exact .propertyOfNonInstance ended plain
  | set object name value =>
      obtain ⟨target, after, ended, stops⟩ := stops_here.mp stops
      split at stops
      · obtain ⟨result, last, -, stops⟩ := stops_here.mp stops
        exact stops.elim
      · rename_i plain
        cases stops
        exact .fieldOfNonInstance ended plain
  | super id keyword method =>
      simp only [ofExpr, Plan.readSuper, Stops] at stops
      split at stops
      · rename_i superclass inst found
        split at stops
        · obtain ⟨bound, last, -, stops⟩ := stops_here.mp stops
          exact stops.elim
        · rename_i missing
          cases stops
          exact .undefinedMethod found missing
      · rename_i outside
        cases stops
        exact .superOutside outside

theorem raises_call {function : Value} {paren : Token} {arguments : List Value}
    (stops : (ofCall fuel function paren arguments).Stops error machine) :
    Raises (call (fuel + 1) function paren arguments) machine error := by
  unfold ofCall at stops
  split at stops
  · rename_i unknown
    cases stops
    exact .notCallable unknown
  · rename_i callee callable
    split at stops
    · rename_i differs
      cases stops
      exact .argumentCount callable differs
    · rename_i enough
      rcases stops with ⟨_, ⟨⟩, full, rfl⟩ | ⟨value, after, -, stops⟩
      · exact .stackOverflow callable (not_not.mp enough) full
      · exact stops.elim

theorem raises_invokeFunction {closure : Closure} {arguments : List Value}
    (stops : (ofFunction fuel closure arguments).Stops error machine) :
    Raises (invokeFunction (fuel + 1) closure arguments) machine error := by
  rcases stops with ⟨_, ⟨⟩, -⟩ | ⟨flow, last, ended, stops⟩
  obtain ⟨present, after, ⟨⟩, ran, rfl⟩ := Setting.ok_of_around ended
  unfold Plan.functionResult at stops
  split at stops
  · rename_i initializes
    simp only [Stops] at stops
    split at stops
    · exact stops.elim
    · rename_i missing
      cases stops
      exact .initializer ran initializes missing
  · cases flow <;> exact stops.elim

theorem raises_execute {stmt : Stmt} (stops : (ofStmt fuel stmt).Stops error machine) :
    Raises (execute (fuel + 1) stmt) machine error := by
  cases stmt with
  | functionDecl decl => exact stops.elim
  | expression | varDecl | ifThen | ifElse | whileLoop | returnStmt =>
      simp [ofStmt, stops_here, apply_ite (Stops error _), Stops] at stops
  | print keyword value =>
      obtain ⟨result, after, ended, stops⟩ := stops_here.mp stops
      simp only [Stops] at stops
      split at stops
      · exact stops.elim
      · rename_i refused
        cases stops
        exact .print ended refused
  | block body =>
      rcases stops with ⟨_, ⟨⟩, -⟩ | ⟨flow, last, -, stops⟩
      exact stops.elim
  | classDecl name superclass methods =>
      cases superclass with
      | none =>
          obtain ⟨done, after, -, stops⟩ := stops_here.mp stops
          exact stops.elim
      | some parent =>
          obtain ⟨value, middle, ended, stops⟩ := stops_here.mp stops
          split at stops
          · obtain ⟨done, after, -, stops⟩ := stops_here.mp stops
            exact stops.elim
          · rename_i plain
            cases stops
            exact .superclass ended plain

def InvokesHost : Task → Prop
  | invoke _ (.native _) _ => True
  | _ => False

theorem raises_of_stops (own : ¬ task.InvokesHost) (stops : task.plan.Stops error machine) :
    Raises task machine error := by
  cases task using cases_plan with
  | exhausted task spent =>
      rw [spent] at stops
      cases stops
  | evaluate => exact raises_evaluate stops
  | call => exact raises_call stops
  | invokeFunction => exact raises_invokeFunction stops
  | execute => exact raises_execute stops
  | bindMethod => exact stops.elim
  | declareClass name superclass methods => cases superclass <;> exact stops.elim
  | evaluateAll fuel exprs | executeProgram fuel exprs =>
      cases exprs <;> simp [plan, ofExprs, ofProgram, stops_here, Stops] at stops
  | evaluateOr fuel expr => cases expr <;> simp [plan, stops_here, Stops] at stops
  | invoke fuel callee arguments =>
      cases callee with
      | native builtin => exact absurd trivial own
      | function closure => simp [plan, ofCallable, stops_here, Stops] at stops
      | constructor cls =>
          simp only [plan, ofCallable, Stops] at stops
          split at stops
          · simp [Stops] at stops
          · exact stops.elim
  | executeAll fuel stmts =>
      cases stmts with
      | nil => exact stops.elim
      | cons first rest =>
          obtain ⟨flow, after, -, stops⟩ := stops_here.mp stops
          cases flow <;> simp [Stops] at stops
  | repeatWhile fuel condition body =>
      obtain ⟨value, middle, -, stops⟩ := stops_here.mp stops
      split at stops
      · obtain ⟨flow, after, -, stops⟩ := stops_here.mp stops
        cases flow <;> simp [Stops] at stops
      · exact stops.elim

theorem stops_of_native {builtin : Native} {arguments : List Value}
    (failed : (invoke fuel (.native builtin) arguments).Fails machine error) :
    fuel ≠ 0 ∧ (ofNative arguments builtin : Plan 0 Value).Stops error machine := by
  cases fuel with
  | zero =>
      obtain ⟨after, ended⟩ := failed
      cases ended
  | succ fuel =>
      have failed : ((ofNative arguments builtin : Plan 0 Value).play Task.run).Fails machine error := by
        rw [← funext Task.runWith_none, play_ofNative]
        exact failed
      refine ⟨fuel.succ_ne_zero, (fails_cases _ failed).resolve_right ?_⟩
      rintro ⟨other, later, inner, member, -⟩
      exact @begins_ofNative _ _ _ (fun _ _ => False) builtin arguments _ member

end Task

section Passing

variable {task other : Task} {machine later : Machine} {fuel : Nat} {error : RuntimeError}

theorem Run.Fails.call {function : Value} {paren : Token} {arguments : List Value}
    {callee : Callable} (callable : function.callable? = some callee)
    (enough : arguments.length = callee.arity) (free : machine.callDepth < machine.maxCallDepth)
    (failed : (invoke fuel callee arguments).Fails machine.calling error) :
    (Lox.call (fuel + 1) function paren arguments).Fails machine (error.orAt paren) := by
  obtain ⟨after, ended⟩ := failed
  refine ⟨{ after with callDepth := after.callDepth - 1 }, ?_⟩
  have entered : (Setting.nested paren).enter? machine = some machine.calling := if_pos free
  have passed : Lox.call (fuel + 1) function paren arguments =
      (Setting.nested paren).around (invoke fuel callee arguments) := by
    simp only [Lox.call, callable, enough, ne_eq, not_true, if_false]
    rfl
  rw [passed, Setting.around_of_some entered, ended]
  rfl

theorem Reaches.fails (reached : Reaches task machine other later) {fault : RuntimeFault}
    {place : Token} (failed : other.Fails later ⟨fault, some place⟩) :
    task.Fails machine ⟨fault, some place⟩ := by
  induction reached with
  | here => exact failed
  | @begun middle other present later _ begun ih =>
      refine ih ?_
      rw [Task.Fails, ← middle.play_plan]
      exact fails_of_mem_stages _ begun.mem_stages failed

/-- A task that fails reaches a task that raises the error, unless it is a function of the host. -/
theorem Task.exists_raises (failed : task.Fails machine error) (own : ¬ task.InvokesHost) :
    ∃ other later, Reaches task machine other later ∧ Raises other later error := by
  induction task using Task.induction generalizing machine error with
  | step task shorter =>
      rw [Task.Fails, ← task.play_plan] at failed
      rcases fails_cases _ failed with stops | ⟨other, later, inner, member, failed', same⟩
      · exact ⟨task, machine, .here, raises_of_stops own stops⟩
      have begun := Task.mem_stages.mp member
      by_cases host : other.InvokesHost
      · -- only a call invokes the host, and the error gets the place of the call
        cases begun with
        | @invoke fuel function paren arguments callee _ callable enough free =>
            cases callee with
            | function | constructor => exact host.elim
            | native builtin =>
                obtain ⟨fueled, stops⟩ := stops_of_native failed'
                obtain ⟨fuel, rfl⟩ := Nat.exists_eq_succ_of_ne_zero fueled
                rw [play_plan] at failed
                rw [failed.unique (.call callable enough free failed')]
                obtain ⟨fault, place⟩ := inner
                obtain ⟨-, rfl, -⟩ := stops.native
                exact ⟨_, machine, .here, .native callable enough free stops⟩
        | _ => exact host.elim
      · obtain ⟨last, present, reached, raised⟩ := shorter other (bound_lt begun) failed' host
        obtain ⟨place, known⟩ := raised.placed
        rw [same place known]
        exact ⟨last, present, reached.head begun, raised⟩

end Passing

end Lox
