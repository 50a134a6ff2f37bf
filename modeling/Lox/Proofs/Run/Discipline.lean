import Lox.Proofs.Run.Stages
import Mathlib.Tactic

/-!
Scopes and calls are left as they were entered. However a piece of evaluation ends, the machine is back
in the scopes where it began, with as many calls in progress and with the same globals, depths and
limit; while it runs there are never fewer calls in progress, and never more than the limit allows.
Between the inputs of a session the machine is therefore at its globals, with no call in progress.
-/

namespace Lox

structure Kept (before after : Machine) : Prop where
  env : after.env = before.env
  callDepth : after.callDepth = before.callDepth
  globals : after.globals = before.globals
  depths : after.depths = before.depths
  maxCallDepth : after.maxCallDepth = before.maxCallDepth

namespace Kept

theorem refl (machine : Machine) : Kept machine machine := ⟨rfl, rfl, rfl, rfl, rfl⟩

theorem trans {first second third : Machine} (early : Kept first second)
    (late : Kept second third) : Kept first third where
  env := late.env.trans early.env
  callDepth := late.callDepth.trans early.callDepth
  globals := late.globals.trans early.globals
  depths := late.depths.trans early.depths
  maxCallDepth := late.maxCallDepth.trans early.maxCallDepth

theorem called {machine after : Machine} (kept : Kept machine.calling after) :
    Kept machine { after with callDepth := after.callDepth - 1 } where
  env := kept.env
  callDepth := by simp [kept.callDepth, Machine.calling]
  globals := kept.globals
  depths := kept.depths
  maxCallDepth := kept.maxCallDepth

end Kept

namespace Run

variable {α β : Type}

def Keeps (step : Run α) : Prop := ∀ machine, Kept machine (step.final machine)

theorem Keeps.of_ok {step : Run α} (keeps : Keeps step) {machine after : Machine} {value : α}
    (ended : step machine = .ok value after) : Kept machine after := by
  simpa [final, ended] using keeps machine

theorem Keeps.of_error {step : Run α} (keeps : Keeps step) {machine after : Machine}
    {abort : Abort} (ended : step machine = .error abort after) : Kept machine after := by
  simpa [final, ended] using keeps machine

theorem Keeps.pure (value : α) : Keeps (pure value) := Kept.refl

theorem Keeps.get : Keeps (get : Run Machine) := Kept.refl

theorem Keeps.openScope (outer : Env) (bindings : Bindings) : Keeps (openScope outer bindings) :=
  fun _ => ⟨rfl, rfl, rfl, rfl, rfl⟩

theorem Keeps.newInstance (cls : ClassObject) : Keeps (newInstance cls) :=
  fun _ => ⟨rfl, rfl, rfl, rfl, rfl⟩

theorem Keeps.bind {step : Run α} {next : α → Run β} (first : Keeps step)
    (second : ∀ value, Keeps (next value)) : Keeps (step >>= next) := by
  intro machine
  simp only [final, Bind.bind, EStateM.bind]
  cases ended : step machine with
  | ok value after => exact (first.of_ok ended).trans (second value after)
  | error abort after => exact first.of_error ended

theorem Keeps.inside {step : Run α} (keeps : Keeps step) (env : Env) : Keeps (inside env step) := by
  intro machine
  simp only [final, Run.inside]
  cases ended : step { machine with env } with
  | ok value after =>
      have kept := keeps.of_ok ended
      exact ⟨rfl, kept.callDepth, kept.globals, kept.depths, kept.maxCallDepth⟩
  | error abort after =>
      have kept := keeps.of_error ended
      exact ⟨rfl, kept.callDepth, kept.globals, kept.depths, kept.maxCallDepth⟩

end Run

open Run

theorem Deed.kept (deed : Deed) (machine : Machine) : Kept machine (deed.change machine) := by
  unfold Deed.change
  split
  case h_1 | h_9 => split <;> exact ⟨rfl, rfl, rfl, rfl, rfl⟩
  all_goals exact ⟨rfl, rfl, rfl, rfl, rfl⟩

theorem lasting_kept : Lasting Kept where
  refl := Kept.refl
  trans := Kept.trans
  change := Deed.kept
  leave := by
    intro setting machine present after entered kept
    cases setting with
    | here =>
        cases entered
        exact kept
    | inside env =>
        cases entered
        exact ⟨rfl, kept.callDepth, kept.globals, kept.depths, kept.maxCallDepth⟩
    | nested paren =>
        obtain ⟨-, ⟨⟩⟩ := Option.ite_none_right_eq_some.mp entered
        exact kept.called

theorem Task.keeps (task : Task) : Keeps task.run := lasting_kept.final task

theorem evaluate_keeps (fuel : Nat) (expr : Expr) : Keeps (evaluate fuel expr) :=
  (Task.evaluate fuel expr).keeps

theorem evaluateAll_keeps (fuel : Nat) (exprs : List Expr) : Keeps (evaluateAll fuel exprs) :=
  (Task.evaluateAll fuel exprs).keeps

theorem evaluateOr_keeps (fuel : Nat) (expr : Option Expr) : Keeps (evaluateOr fuel expr) :=
  (Task.evaluateOr fuel expr).keeps

theorem execute_keeps (fuel : Nat) (stmt : Stmt) : Keeps (execute fuel stmt) :=
  (Task.execute fuel stmt).keeps

theorem executeProgram_keeps (fuel : Nat) (stmts : List Stmt) :
    Keeps (executeProgram fuel stmts) := (Task.executeProgram fuel stmts).keeps

def Machine.flushed (machine : Machine) : Machine :=
  { machine with host.sink := machine.host.sink.flush.2 }

theorem interpret_eq (fuel : Nat) (stmts : List Stmt) (machine : Machine) :
    interpret fuel stmts machine =
      match executeProgram fuel stmts machine with
      | .ok _ after =>
          match after.host.sink.flush.1 with
          | .ok () => .ok () after.flushed
          | .error fault => .error (.error ⟨.outputFailed fault, none⟩) after.flushed
      | .error abort after => .error abort after.flushed := by
  unfold interpret
  simp only [bind, EStateM.bind, tryCatch, tryCatchThe, MonadExceptOf.tryCatch, EStateM.tryCatch]
  cases executeProgram fuel stmts machine with
  | error abort after => rfl
  | ok value after =>
      simp only [Run.flush, Machine.flushed]
      cases after.host.sink.flush.1 <;> rfl

theorem final_interpret (fuel : Nat) (stmts : List Stmt) (machine : Machine) :
    (interpret fuel stmts).final machine = ((executeProgram fuel stmts).final machine).flushed := by
  unfold Run.final
  rw [interpret_eq]
  cases executeProgram fuel stmts machine with
  | error abort after => rfl
  | ok value after =>
      dsimp only
      cases after.host.sink.flush.1 <;> rfl

theorem interpret_keeps (fuel : Nat) (stmts : List Stmt) : Keeps (interpret fuel stmts) := by
  intro machine
  rw [final_interpret]
  obtain ⟨env, callDepth, globals, depths, limit⟩ := executeProgram_keeps fuel stmts machine
  exact ⟨env, callDepth, globals, depths, limit⟩

/-- How the calls in progress can change from the beginning of a task to a moment inside it. -/
structure Deepens (before after : Machine) : Prop where
  maxCallDepth : after.maxCallDepth = before.maxCallDepth
  callDepth_le : before.callDepth ≤ after.callDepth
  bounded : before.callDepth ≤ before.maxCallDepth → after.callDepth ≤ after.maxCallDepth

theorem Deepens.trans {first second third : Machine} (early : Deepens first second)
    (late : Deepens second third) : Deepens first third where
  maxCallDepth := late.maxCallDepth.trans early.maxCallDepth
  callDepth_le := early.callDepth_le.trans late.callDepth_le
  bounded := fun bound => late.bounded (early.bounded bound)

theorem Kept.deepens {before after : Machine} (kept : Kept before after) :
    Deepens before after where
  maxCallDepth := kept.maxCallDepth
  callDepth_le := kept.callDepth.ge
  bounded := fun bound => by rwa [kept.callDepth, kept.maxCallDepth]

/-- Only a call that is checked against the limit goes deeper. -/
theorem Substep.deepens {task other : Task} {machine later : Machine}
    (step : Substep task machine other later) : Deepens machine later := by
  cases step with
  | invoke _ _ room => exact ⟨rfl, Nat.le_succ _, fun _ => room⟩
  | functionBody | block => exact ⟨rfl, le_rfl, id⟩
  | call first second =>
      exact (((evaluate_keeps _ _).of_ok first).trans ((evaluateAll_keeps _ _).of_ok second)).deepens
  | initializer created _ bound =>
      exact (((Keeps.newInstance _).of_ok created).trans ((Task.bindMethod _ _).keeps.of_ok bound)).deepens
  | bindInitializer created => exact ((Keeps.newInstance _).of_ok created).deepens
  | nextRound first _ second =>
      exact (((evaluate_keeps _ _).of_ok first).trans ((execute_keeps _ _).of_ok second)).deepens
  | restStmts ended | restOfProgram ended => exact ((execute_keeps _ _).of_ok ended).deepens
  | binaryRight ended | logicalRight ended | commaRight ended | thenBranch ended | elseBranch ended
  | arguments ended | getMethod ended | setValue ended | restOf ended | ifThen ended
  | ifElseThen ended | ifElseElse ended | declareSubclass ended | loopBody ended =>
      exact ((evaluate_keeps _ _).of_ok ended).deepens
  | _ => exact (Kept.refl _).deepens

theorem Reaches.deepens {task other : Task} {machine later : Machine}
    (reaches : Reaches task machine other later) : Deepens machine later := by
  induction reaches with
  | here => exact (Kept.refl _).deepens
  | begun _ step ih => exact ih.trans step.deepens

namespace Session

/-- The sessions that a host can come to, whatever it runs on the machine between the inputs. -/
inductive Reachable : Session → Prop
  | new (host : Host) (maxCallDepth : Nat) : Reachable (.new host maxCallDepth)
  | report {session : Session} (found : List Diagnostic) :
      Reachable session → Reachable (session.report found)
  | clear {session : Session} : Reachable session → Reachable session.clear
  | reset {session : Session} : Reachable session → Reachable session.reset
  | tokenize {session : Session} (source : String) :
      Reachable session → Reachable (session.tokenize source).2
  | parse {session : Session} (source : String) :
      Reachable session → Reachable (session.parse source).2
  | parseExpression {session : Session} (source : String) :
      Reachable session → Reachable (session.parseExpression source).2
  | resolve {session : Session} (resolution : Resolution) :
      Reachable session → Reachable (session.resolve resolution)
  | writeLine {session : Session} (text : String) :
      Reachable session → Reachable (session.writeLine text).2
  | perform {session after : Session} (task : Task) {result : Except RuntimeError task.Result} :
      Reachable session → session.perform task.run = some (result, after) → Reachable after
  | run {session after : Session} (fuel : Nat) (source : String) :
      Reachable session → session.run fuel source = some after → Reachable after
  | evaluate {session after : Session} (fuel : Nat) (source : String) {value : Option Value} :
      Reachable session → session.evaluate fuel source = some (value, after) → Reachable after

def AtRest (session : Session) : Prop :=
  session.machine.env = session.machine.globals ∧ session.machine.callDepth = 0

theorem AtRest.kept {session after : Session} (rests : session.AtRest)
    (kept : Kept session.machine after.machine) : after.AtRest := by
  obtain ⟨atGlobals, uncalled⟩ := rests
  exact ⟨by rw [kept.env, kept.globals, atGlobals], by rw [kept.callDepth, uncalled]⟩

theorem perform_kept {α : Type} {session after : Session} {step : Run α}
    {result : Except RuntimeError α} (keeps : Keeps step)
    (performed : session.perform step = some (result, after)) :
    Kept session.machine after.machine := by
  unfold perform at performed
  split at performed
  · rename_i ended
    cases performed
    exact keeps.of_ok ended
  · rename_i ended
    cases performed
    exact keeps.of_error ended
  · cases performed

theorem performReporting_cases {α : Type} {session after : Session} {step : Run α}
    {result : Option α} (performed : session.performReporting step = some (result, after)) :
    (∃ value machine, step session.machine = .ok value machine ∧ result = some value ∧
        after = { session with machine }) ∨
      ∃ error machine, step session.machine = .error (.error error) machine ∧ result = none ∧
        after = { session with machine }.report [.runtime error] := by
  unfold performReporting perform at performed
  cases ended : step session.machine with
  | ok value machine =>
      rw [ended] at performed
      cases performed
      exact .inl ⟨value, machine, rfl, rfl, rfl⟩
  | error abort machine =>
      rw [ended] at performed
      cases abort with
      | error error =>
          cases performed
          exact .inr ⟨error, machine, rfl, rfl, rfl⟩
      | outOfFuel => cases performed

theorem final_of_performReporting {α : Type} {session after : Session} {step : Run α}
    {result : Option α} (performed : session.performReporting step = some (result, after)) :
    after.machine = step.final session.machine ∧ after.supply = session.supply := by
  obtain ⟨value, machine, ended, -, rfl⟩ | ⟨error, machine, ended, -, rfl⟩ :=
    performReporting_cases performed <;>
    exact ⟨by simp only [Run.final, ended, report], rfl⟩

theorem performReporting_kept {α : Type} {session after : Session} {step : Run α}
    {result : Option α} (keeps : Keeps step)
    (performed : session.performReporting step = some (result, after)) :
    Kept session.machine after.machine :=
  (final_of_performReporting performed).1 ▸ keeps session.machine

theorem run_atRest {session after : Session} {fuel : Nat} {source : String}
    (rests : session.AtRest) (ran : session.run fuel source = some after) : after.AtRest := by
  simp only [run] at ran
  split at ran
  · cases ran
    exact rests
  · split at ran
    · cases ran
      exact rests
    · simp only [Option.map_eq_some_iff] at ran
      obtain ⟨⟨result, last⟩, performed, rfl⟩ := ran
      refine AtRest.kept ?_ (performReporting_kept (interpret_keeps fuel _) performed)
      exact rests

theorem evaluate_atRest {session after : Session} {fuel : Nat} {source : String}
    {value : Option Value} (rests : session.AtRest)
    (evaluated : session.evaluate fuel source = some (value, after)) : after.AtRest := by
  have parsed : (session.parseExpression source).2.AtRest := rests
  simp only [evaluate] at evaluated
  split at evaluated
  · rename_i found read
    cases evaluated
    simpa only [read] using parsed
  · rename_i expr found read
    rw [read] at parsed
    split at evaluated
    · cases evaluated
      exact parsed
    · split at evaluated
      · cases evaluated
        exact parsed
      · refine AtRest.kept ?_ (performReporting_kept (evaluate_keeps fuel expr) evaluated)
        exact parsed

theorem Reachable.atRest {session : Session} (reachable : Reachable session) : session.AtRest := by
  induction reachable with
  | new host maxCallDepth => exact ⟨rfl, rfl⟩
  | report _ _ ih | clear _ ih | tokenize _ _ ih | parse _ _ ih | parseExpression _ _ ih
  | resolve _ _ ih | writeLine _ _ ih => exact ih
  | reset => exact ⟨rfl, rfl⟩
  | perform task _ performed ih => exact ih.kept (perform_kept task.keeps performed)
  | run fuel source _ ran ih => exact run_atRest ih ran
  | evaluate fuel source _ evaluated ih => exact evaluate_atRest ih evaluated

end Session

/-- A piece of evaluation leaves the scopes, the calls in progress, the globals, the depths and the limit
as they were, and inside it the calls in progress stay between those of its beginning and the limit.
So a session is at rest after every step, whatever was run and however it ended. -/
theorem scopes_and_calls_are_restored :
    (∀ (task : Task) (machine : Machine), Kept machine (task.run.final machine) ∧
      ∀ other later, Reaches task machine other later →
        machine.callDepth ≤ later.callDepth ∧
          (machine.callDepth ≤ machine.maxCallDepth → later.callDepth ≤ later.maxCallDepth)) ∧
    ∀ session : Session, session.Reachable →
      session.machine.env = session.machine.globals ∧ session.machine.callDepth = 0 := by
  refine ⟨fun task machine => ⟨task.keeps machine, fun other later reaches => ?_⟩, ?_⟩
  · exact ⟨reaches.deepens.callDepth_le, reaches.deepens.bounded⟩
  · exact fun session reachable => reachable.atRest

/-- The only call that the limit allows is in progress while the clock is read; a call of `nil` inside a
block ends the input. -/
theorem scopes_and_calls_are_restored_at_limit :
    let paren : Token := ⟨.rightParen, ")", none, 1⟩
    let session := Session.new {} 1
    let clock := Task.call 2 (.ofNative .clock) paren []
    let failing := Task.execute 6 (.block [.expression (.call (.literal .nil) paren [])])
    Reaches clock session.machine (.invoke 1 (.native .clock) []) session.machine.calling ∧
      session.machine.calling.callDepth = 1 ∧
      session.machine.calling.callDepth ≤ session.machine.calling.maxCallDepth ∧
      ∃ error after, session.perform failing.run = some (.error error, after) ∧
        Session.Reachable after ∧
        after.machine.env = after.machine.globals ∧ after.machine.callDepth = 0 := by
  intro paren session clock failing
  have reaches : Reaches clock session.machine (.invoke 1 (.native .clock) [])
      session.machine.calling := .begun .here (.invoke rfl rfl (by decide))
  have reachable : Session.Reachable session := .new {} 1
  refine ⟨reaches, rfl, ?_, _, _, rfl, reachable.perform failing rfl, ?_⟩
  · exact ((scopes_and_calls_are_restored.1 clock session.machine).2 _ _ reaches).2 (by decide)
  · exact scopes_and_calls_are_restored.2 _ (reachable.perform failing rfl)

end Lox
