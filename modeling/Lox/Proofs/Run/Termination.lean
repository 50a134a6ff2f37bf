import Lox.Proofs.Run.Territory

/-!
Programs without loops come to an end. The depth of calls is limited, so a run without loops is
bounded by its program: each call has one call less to go, and inside a body each part is smaller
than the whole. The functions that a run can come to have no loops either, since it stays in what it
could come to from the beginning.
-/

namespace Lox

namespace Run

variable {α β : Type} {machine : Machine}

/-- With enough fuel the step comes to an end of its own, which more fuel does not change. -/
def Ends (step : Nat → Run α) (machine : Machine) : Prop :=
  ∃ (enough : Nat) (result : EStateM.Result Abort Machine α),
    (∀ after, result ≠ .error .outOfFuel after) ∧
      ∀ fuel, enough ≤ fuel → step fuel machine = result

def Total (step : Run α) : Prop := ∀ machine after, step machine ≠ .error .outOfFuel after

namespace Total

theorem pure (value : α) : Total (pure value) := nofun

theorem failBare (fault : RuntimeFault) : Total (failBare fault : Run α) := nofun

theorem flush : Total flush := nofun

end Total

namespace Ends

theorem of_total {step : Run α} (total : Total step) : Ends (fun _ => step) machine :=
  ⟨0, step machine, total machine, fun _ _ => rfl⟩

theorem shift {step : Nat → Run α} (ends : Ends (fun fuel => step (fuel + 1)) machine) :
    Ends step machine := by
  obtain ⟨enough, result, own, stays⟩ := ends
  refine ⟨enough + 1, result, own, fun fuel more => ?_⟩
  obtain ⟨less, rfl⟩ : ∃ less, fuel = less + 1 := ⟨fuel - 1, by omega⟩
  exact stays less (by omega)

theorem bind {step : Nat → Run α} {next : Nat → α → Run β} (first : Ends step machine)
    (second : ∀ fuel value after, step fuel machine = .ok value after →
      Ends (fun fuel => next fuel value) after) :
    Ends (fun fuel => step fuel >>= next fuel) machine := by
  obtain ⟨enough, result, own, stays⟩ := first
  cases result with
  | ok value after =>
      obtain ⟨enough', result', own', stays'⟩ := second enough value after (stays enough le_rfl)
      refine ⟨max enough enough', result', own', fun fuel more => ?_⟩
      simp only [Bind.bind, EStateM.bind, stays fuel (le_of_max_le_left more)]
      exact stays' fuel (le_of_max_le_right more)
  | error abort after =>
      refine ⟨enough, .error abort after, ?_, fun fuel more => ?_⟩
      · rintro after' ⟨⟩
        exact own after rfl
      · simp only [Bind.bind, EStateM.bind, stays fuel more]

theorem after {step : Run α} {next : Nat → α → Run β} (total : Total step)
    (rest : ∀ value after, step machine = .ok value after →
      Ends (fun fuel => next fuel value) after) :
    Ends (fun fuel => step >>= next fuel) machine :=
  bind (of_total total) fun _ => rest

theorem tryCatch {step : Nat → Run α} {handle : Abort → Run α} (ends : Ends step machine)
    (handled : ∀ abort, abort ≠ .outOfFuel → ∀ machine after,
      handle abort machine ≠ .error .outOfFuel after) :
    Ends (fun fuel => MonadExcept.tryCatch (step fuel) handle) machine := by
  obtain ⟨enough, result, own, stays⟩ := ends
  refine ⟨enough, MonadExcept.tryCatch (fun _ => result) handle machine, ?_, fun fuel more => ?_⟩
  · intro after
    simp only [MonadExcept.tryCatch, tryCatchThe, MonadExceptOf.tryCatch, EStateM.tryCatch]
    cases result with
    | ok value middle => nofun
    | error abort middle =>
        have other : abort ≠ .outOfFuel := by
          rintro rfl
          exact own middle rfl
        exact handled abort other middle after
  · simp only [MonadExcept.tryCatch, tryCatchThe, MonadExceptOf.tryCatch, EStateM.tryCatch,
      stays fuel more]

end Ends

end Run

def Plan.Own {bound : Nat} {α : Type} : Plan bound α → Prop
  | done _ | stop (.error _) => True
  | stop .outOfFuel => False
  | act _ next => ∀ answer, (next answer).Own
  | start _ _ next _ => ∀ result, (next result).Own

theorem Task.own_plan (task : Task) : (task.refuel (some 1)).plan.Own := by
  have failing {bound : Nat} {α : Type} {place : Token} (result : Except RuntimeFault α) :
      (Plan.orFailAt place result : Plan bound α).Own := by
    cases result <;> trivial
  cases task with
  | evaluate fuel expr =>
      cases expr
      case unary => exact fun _ => failing _
      case binary => exact fun _ _ => failing _
      all_goals
        simp only [Task.refuel, Task.plan, Option.getD_some, Plan.ofExpr]
        repeat' first | trivial | intro _ | split | dsimp only
  | evaluateOr fuel expr =>
      cases expr with
      | none => trivial
      | some => exact fun _ => trivial
  | invoke fuel callee arguments =>
      simp only [Task.refuel, Task.plan, Option.getD_some, Plan.ofCallable, Plan.ofNative]
      repeat' first | trivial | intro _ | split | dsimp only
  | execute fuel stmt =>
      simp only [Task.refuel, Task.plan, Option.getD_some]
      unfold Plan.ofStmt
      repeat' first | trivial | intro _ | split | dsimp only
  | _ =>
      simp only [Task.refuel, Task.plan, Option.getD_some, Plan.ofExprs, Plan.ofCall,
        Plan.ofFunction, Plan.functionResult, Plan.ofStmts, Plan.ofLoop, Plan.ofClass,
        Plan.ofProgram]
      repeat' first | trivial | intro _ | split | dsimp only

open Run in
theorem Plan.ends_play {bound : Nat} {α : Type} {plan : Plan bound α} {machine : Machine}
    {floor : Nat} (own : plan.Own)
    (inner : ∀ fuel, floor ≤ fuel → plan.Begins (Task.runWith (some fuel))
      (fun other later => Ends (fun fuel => other.runWith (some fuel)) later) machine) :
    Ends (fun fuel => plan.play (Task.runWith (some fuel))) machine := by
  induction plan generalizing machine floor with
  | done value => exact ⟨0, .ok value machine, nofun, fun _ _ => rfl⟩
  | stop abort =>
      refine ⟨0, .error abort machine, ?_, fun _ _ => rfl⟩
      rintro _ ⟨⟩
      exact own
  | act deed next ih => exact ih _ (own _) inner
  | start setting task next less ih =>
      cases entered : setting.enter? machine with
      | none =>
          obtain ⟨paren, rfl, -⟩ := Setting.around_of_none task.run entered
          refine ⟨0, .error (.error ⟨.stackOverflow, some paren⟩) machine, nofun, fun fuel _ => ?_⟩
          obtain ⟨_, ⟨⟩, -, refused⟩ :=
            Setting.around_of_none (task.runWith (some fuel)) entered
          simp only [play, Bind.bind, EStateM.bind, refused]
      | some present =>
          obtain ⟨enough, result, finished, stays⟩ :=
            (begins_start.mp (inner floor le_rfl)).1 present entered
          have around (fuel : Nat) (more : enough ≤ fuel) :
              setting.around (task.runWith (some fuel)) machine =
                leaving setting.placing (setting.leave machine) result :=
            (Setting.around_of_some entered).trans (congrArg _ (stays fuel more))
          cases result with
          | error abort after =>
              refine ⟨enough, .error (setting.placing abort) (setting.leave machine after), ?_,
                fun fuel more => ?_⟩
              · intro last ended
                refine finished after (congrArg (EStateM.Result.error · after) ?_)
                cases setting <;> cases abort <;> first | rfl | cases ended
              · simp only [play, Bind.bind, EStateM.bind, around fuel more, leaving]
          | ok value after =>
              have rest (fuel : Nat) (more : max floor enough ≤ fuel) :=
                (begins_start.mp (inner fuel (le_of_max_le_left more))).2 value _
                  (around fuel (le_of_max_le_right more))
              obtain ⟨enough', result, finished', stays'⟩ := ih value (own value) rest
              refine ⟨max enough enough', result, finished', fun fuel more => ?_⟩
              rw [← stays' fuel (le_of_max_le_right more)]
              simp only [play, Bind.bind, EStateM.bind, around fuel (le_of_max_le_left more),
                leaving]

def Machine.callsLeft (machine : Machine) : Nat := machine.maxCallDepth - machine.callDepth

/-- What there is to do before the next call. -/
noncomputable def Task.size : Task → Nat
  | evaluate _ expr => sizeOf expr
  | evaluateAll _ exprs => sizeOf exprs
  | evaluateOr _ expr => sizeOf expr
  | invoke _ (.function closure) _ => sizeOf closure.decl.body + 2
  | invoke _ (.constructor cls) _ =>
      ((cls.findMethod? "init").map fun method => sizeOf method.decl.body + 2).getD 0
  | invokeFunction _ closure _ => sizeOf closure.decl.body + 1
  | execute _ stmt => sizeOf stmt
  | executeAll _ stmts => sizeOf stmts
  | executeProgram _ stmts => sizeOf stmts
  | _ => 0

theorem Task.refuel_refuel (first : Option Nat) (fuel : Nat) (task : Task) :
    (task.refuel first).refuel (some fuel) = task.refuel (some fuel) := by
  cases task <;> rfl

theorem Task.size_refuel (more : Option Nat) (task : Task) : (task.refuel more).size = task.size := by
  cases task with
  | invoke _ callee => cases callee <;> rfl
  | _ => rfl

def Task.Loops : Task → Prop
  | execute _ (.whileLoop _ _) | repeatWhile _ _ _ => True
  | _ => False

/-- Without loops, what a task begins is smaller, or there is one call less to go. -/
theorem Substep.smaller {task other : Task} {machine later : Machine}
    (step : Substep task machine other later) (loopFree : ¬ task.Loops) :
    later.callsLeft < machine.callsLeft ∨
      later.callsLeft = machine.callsLeft ∧ other.size < task.size := by
  have deeper : later.callsLeft ≤ machine.callsLeft := by
    obtain ⟨limit, deeper, -⟩ := step.deepens
    simp only [Machine.callsLeft]
    omega
  rcases deeper.lt_or_eq with less | same
  · exact .inl less
  · refine .inr ⟨same, ?_⟩
    cases step with
    | invoke _ _ room =>
        simp only [Machine.callsLeft, Machine.calling] at same
        omega
    | whileLoop | loopCondition | loopBody | nextRound => exact absurd trivial loopFree
    | bindInitializer made found => simp [Task.size, found]
    | initializer made found ended =>
        cases ended
        simp [Task.size, found]
    | _ =>
        simp [Task.size]
        try omega

namespace Realm

open Run (Ends)

variable {realm : Realm} {machine : Machine}

theorem admits_refuel (more : Option Nat) (task : Task) :
    realm.Admits machine (task.refuel more) ↔ realm.Admits machine task := by
  cases task <;> rfl

section Loops

variable (free : ∀ task machine, realm.moments task machine)
  (loopFree : ∀ {store env condition body},
    ¬ realm.code store env (.stmt (.whileLoop condition body)))
include free loopFree

omit free in
theorem not_loops {task : Task} (admitted : realm.Admits machine task) : ¬ task.Loops := by
  intro loops
  unfold Task.Loops at loops
  split at loops
  · exact loopFree admitted
  · exact loopFree admitted
  · exact loops

theorem ends_task (task : Task) (machine : Machine) (admitted : realm.Admits machine task)
    (within : realm.Within machine) : Ends (fun fuel => task.runWith (some fuel)) machine := by
  have inner (fuel : Nat) (_ : 0 ≤ fuel) : (task.refuel (some 1)).plan.Begins
      (Task.runWith (some fuel))
      (fun other later => Ends (fun fuel => other.runWith (some fuel)) later) machine := by
    intro stage member
    obtain ⟨given, step⟩ : ∃ given, Substep (task.refuel (some given)) machine
        (stage.1.refuel (some fuel)) stage.2 := by
      have step := (task.refuel (some 1)).begins_plan_with (some fuel) machine stage member
      rw [Option.map_some, Task.refuel_refuel, Task.refuel_refuel] at step
      exact step.elim (⟨_, ·⟩) (⟨_, ·⟩)
    have before := (admits_refuel (some given) task).mpr admitted
    obtain ⟨admitted', within'⟩ := admits_of_substep (free _ _) before within step
    have smaller : stage.2.callsLeft < machine.callsLeft ∨
        stage.2.callsLeft = machine.callsLeft ∧ stage.1.size < task.size := by
      simpa only [Task.size_refuel] using step.smaller (not_loops loopFree before)
    exact ends_task stage.1 stage.2 ((admits_refuel _ _).mp admitted') within'
  have ends := Plan.ends_play task.own_plan inner
  rcases (task.refuel (some 1)).play_plan_with with ⟨stops, -⟩ | ⟨-, played⟩ | played
  · have own := task.own_plan
    rw [stops] at own
    exact own.elim
  · simp only [played, Option.map_some] at ends
    exact .shift (by cases task <;> exact ends)
  · simp only [played] at ends
    cases task <;> exact ends
termination_by (machine.callsLeft, task.size)
decreasing_by
  rcases smaller with less | ⟨same, less⟩
  · exact .left _ _ less
  · rw [same]
    exact .right _ less

theorem ends_executeProgram (within : realm.Within machine) {stmts : List Stmt}
    (runs : ∀ stmt ∈ stmts, realm.Runs machine (.stmt stmt)) :
    Ends (executeProgram · stmts) machine :=
  ends_task free loopFree (.executeProgram 0 stmts) machine runs within

end Loops

end Realm

open Run in
theorem ends_interpret {machine : Machine} {stmts : List Stmt}
    (ends : Ends (executeProgram · stmts) machine) : Ends (interpret · stmts) machine := by
  refine .bind (.tryCatch ends fun abort other machine after => ?_) fun _ _ after _ => ?_
  · rintro ⟨⟩
    exact other rfl
  · refine .after .flush fun result _ _ => ?_
    split
    · exact .of_total (.pure ())
    · exact .of_total (.failBare _)

/-- Programs without loops end: if no function that the machine can come to holds a loop, then with
enough fuel, and with any more of it, the program comes to its end or to one runtime error. -/
theorem loop_free_programs_end (machine : Machine) (stmts : List Stmt)
    (functions : ∀ closure, machine.Accessible [.env machine.env, .env machine.globals]
      (.closure closure) → (Node.function closure.decl).LoopFree)
    (program : ∀ stmt ∈ stmts, (Node.stmt stmt).LoopFree) :
    ∃ (enough : Nat) (last : Machine),
      (∀ fuel, enough ≤ fuel → interpret fuel stmts machine = .ok () last) ∨
        ∃ error, ∀ fuel, enough ≤ fuel → interpret fuel stmts machine = .error (.error error) last := by
  let roots : List Item := [.env machine.env, .env machine.globals]
  have hides : Veil.none.Hides machine roots := ⟨nofun, nofun⟩
  let realm := territory machine roots Node.LoopFree Node.Everywhere.part hides
  have bodies (closure : Closure) (accessible : machine.Accessible roots (.closure closure)) :
      ∀ stmt ∈ closure.decl.body, (Node.stmt stmt).LoopFree :=
    fun stmt member =>
      Node.Everywhere.part (functions closure accessible) (List.mem_map_of_mem member)
  have within : realm.Within machine := within_territory bodies (by simp [roots])
  have runs (stmt : Stmt) (member : stmt ∈ stmts) : realm.Runs machine (.stmt stmt) :=
    ⟨program stmt member,
      fun ref used => .inr ((Machine.Accessible.root List.mem_cons_self).scopes ref used)⟩
  have loops {store : Scopes} {env : Env} {condition : Expr} {body : Stmt} :
      ¬ realm.code store env (.stmt (.whileLoop condition body)) :=
    fun code => code.1 _ [] .here ⟨condition, body, rfl⟩
  have ends : Run.Ends (executeProgram · stmts) machine :=
    Realm.ends_executeProgram (fun _ _ => trivial) loops within runs
  obtain ⟨enough, result, own, stays⟩ := ends_interpret ends
  refine ⟨enough, ?_⟩
  cases result with
  | ok value last => exact ⟨last, .inl stays⟩
  | error abort last =>
      cases abort with
      | error error => exact ⟨last, .inr ⟨error, stays⟩⟩
      | outOfFuel => exact absurd rfl (own last)

/-- A function that calls itself without end comes to the limit of the calls. -/
theorem loop_free_programs_end_at_limit :
    let name : Token := ⟨.identifier, "f", none, 1⟩
    let paren : Token := ⟨.rightParen, ")", none, 1⟩
    let again : Stmt := .expression (.call (.var 0 name) paren [])
    let stmts : List Stmt := [.functionDecl ⟨0, name, [], [again]⟩, again]
    let machine := Machine.fresh 2 {}
    (∀ closure, ¬ machine.Accessible [.env machine.env, .env machine.globals]
        (.closure closure)) ∧
      (∀ stmt ∈ stmts, (Node.stmt stmt).LoopFree) ∧
      ∃ (enough : Nat) (last : Machine),
        (∀ fuel, enough ≤ fuel → interpret fuel stmts machine = .ok () last) ∨
          ∃ error, ∀ fuel, enough ≤ fuel →
            interpret fuel stmts machine = .error (.error error) last := by
  intro name paren again stmts machine
  have loopFree : (Node.stmt again).LoopFree :=
    Node.loopFree_iff.mpr
      ⟨by simp [again, Node.IsLoop], by simp [again, Node.parts, Node.loopFree_expr]⟩
  have function : (Node.function ⟨0, name, [], [again]⟩).LoopFree :=
    Node.loopFree_iff.mpr ⟨by simp [Node.IsLoop], by simpa [Node.parts] using loopFree⟩
  have program : ∀ stmt ∈ stmts, (Node.stmt stmt).LoopFree := by
    simp only [stmts, List.forall_mem_cons, List.not_mem_nil, false_implies, implies_true, and_true]
    exact ⟨Node.loopFree_iff.mpr ⟨by simp [Node.IsLoop], by simpa [Node.parts] using function⟩,
      loopFree⟩
  have none := Machine.not_accessible_fresh 2 {}
  exact ⟨none, program, loop_free_programs_end machine stmts
    (fun closure accessible => absurd accessible (none closure)) program⟩

end Lox
