import Lox.Proofs.Run.Plan

/-!
The stages of a task: the tasks that it begins by its plan, each with the state of the machine in which
it begins. They are what `Substep` says. The tasks that are begun are shorter than the task itself, so
what is passed on from the stages of a task to the task holds of all tasks.
-/

namespace Lox

namespace Plan

variable {α : Type} {bound : Nat}

def stages (runs : (task : Task) → Run task.Result) (machine : Machine) :
    Plan bound α → List (Task × Machine)
  | done _ | stop _ => []
  | act deed next => (next (deed.answer machine)).stages runs (deed.change machine)
  | start setting task next _ =>
      (setting.enter? machine).toList.map (task, ·) ++
        match setting.around (runs task) machine with
        | .ok result after => (next result).stages runs after
        | .error _ _ => []

def Begins (runs : (task : Task) → Run task.Result) (kind : Task → Machine → Prop)
    (machine : Machine) (plan : Plan bound α) : Prop :=
  ∀ stage ∈ plan.stages runs machine, kind stage.1 stage.2

section Begins

variable {runs : (task : Task) → Run task.Result} {kind : Task → Machine → Prop} {machine : Machine} {setting : Setting} {task : Task}
  {next : task.Result → Plan bound α} {shorter : task.bound < bound}

theorem Begins.done (value : α) : Begins runs kind machine (done value : Plan bound α) := List.forall_mem_nil _

theorem Begins.stop (abort : Abort) : Begins runs kind machine (stop abort : Plan bound α) :=
  List.forall_mem_nil _

theorem Begins.orFailAt {place : Token} (result : Except RuntimeFault α) :
    Begins runs kind machine (orFailAt place result : Plan bound α) := by
  cases result with
  | ok value => exact .done value
  | error fault => exact .stop _

theorem Begins.act {deed : Deed} {next : deed.Result → Plan bound α}
    (rest : Begins runs kind (deed.change machine) (next (deed.answer machine))) :
    Begins runs kind machine (act deed next) := rest

theorem begins_start : Begins runs kind machine (start setting task next shorter) ↔
    (∀ present, setting.enter? machine = some present → kind task present) ∧
      ∀ result after, setting.around (runs task) machine = .ok result after →
        Begins runs kind after (next result) := by
  simp only [Begins, stages, List.forall_mem_append, List.forall_mem_map, Option.mem_toList]
  refine and_congr_right fun _ => ?_
  cases setting.around (runs task) machine with
  | ok result after => simp
  | error abort after => simp

theorem Begins.mono {plan : Plan bound α} {weaker : Task → Machine → Prop}
    (begins : Begins runs kind machine plan)
    (implies : ∀ task machine, kind task machine → weaker task machine) :
    Begins runs weaker machine plan := fun stage member => implies _ _ (begins stage member)

theorem Begins.here (first : kind task machine)
    (rest : ∀ result after, runs task machine = .ok result after → Begins runs kind after (next result)) :
    Begins runs kind machine (start .here task next shorter) := by
  refine begins_start.mpr ⟨?_, rest⟩
  rintro _ ⟨⟩
  exact first

theorem Begins.last (first : kind task machine) :
    Begins runs kind machine (start .here task Plan.done shorter) :=
  .here first fun _ _ _ => .done _

end Begins

end Plan

open Plan

variable {task other : Task} {machine later : Machine} {more : Option Nat}

theorem Deed.inherited_eq_some {id : ExprId} {superclass : ClassObject} {inst : Instance} :
    Deed.inherited machine id = some (superclass, inst) ↔
      ∃ depth, machine.depths[id]? = some (depth + 1) ∧
        machine.scopes.getAt? machine.env (depth + 1) "super" =
          some (.callable (.constructor superclass)) ∧
        machine.scopes.getAt? machine.env depth "this" = some (.object inst) := by
  unfold Deed.inherited
  rcases machine.depths[id]? with _ | _ | depth
  · simp
  · simp
  · simp
    split <;> simp_all

theorem begins_ofNative {bound : Nat} {runs : (task : Task) → Run task.Result}
    {kind : Task → Machine → Prop} (builtin : Native) (arguments : List Value) :
    Begins runs kind machine (ofNative arguments builtin : Plan bound Value) := by
  cases builtin with
  | clock => exact .act (.done _)
  | readLine =>
      refine .act ?_
      split
      · exact .done _
      · exact .done _
      · exact .stop _
  | readFile | writeFile | echo =>
      simp only [ofNative]
      split
      · refine .act ?_
        split
        · exact .done _
        · exact .stop _
      · exact .stop _

theorem begins_ofExpr (fuel : Nat) (expr : Expr) :
    Begins (Task.runWith more) (fun other later =>
      Substep (.evaluate (more.getD fuel + 1) expr) machine (other.refuel more) later) machine (ofExpr fuel expr) := by
  cases expr with
  | literal => exact .done _
  | grouping => exact .last .grouping
  | unary => exact .here .operand fun _ _ _ => .orFailAt _
  | binary =>
      exact .here .binaryLeft fun _ _ ended => .here (.binaryRight ended) fun _ _ _ => .orFailAt _
  | logical =>
      refine .here .logicalLeft fun value after ended => ?_
      cases short : Operator.shortCircuits _ value with
      | true => rw [if_pos rfl]; exact .done _
      | false => rw [if_neg nofun]; exact .last (.logicalRight ended short)
  | comma => exact .here .commaLeft fun _ _ ended => .last (.commaRight ended)
  | conditional =>
      refine .here .condition fun value after ended => ?_
      split
      · exact .last (.thenBranch ended ‹_›)
      · exact .last (.elseBranch ended (Bool.eq_false_iff.mpr ‹_›))
  | var | this =>
      refine .act ?_
      split
      · exact .done _
      · exact .stop _
  | assign =>
      refine .here .assigned fun _ _ _ => .act ?_
      split
      · exact .done _
      · exact .stop _
  | call =>
      exact .here .callee fun _ _ ended => .here (.arguments ended) fun _ _ ended' =>
        .last (.call ended ended')
  | get =>
      refine .here .getObject fun value after ended => ?_
      cases value with
      | object inst =>
          refine .act ?_
          split
          · exact .done _
          · rename_i absent
            split
            · exact .here (.getMethod ended absent ‹_›) fun _ _ _ => .done _
            · exact .stop _
      | _ => exact .stop _
  | set =>
      refine .here .setObject fun value after ended => ?_
      cases value with
      | object inst => exact .here (.setValue ended) fun _ _ _ => .act (.done _)
      | _ => exact .stop _
  | super id keyword method =>
      refine .act ?_
      split
      · rename_i superclass inst found
        obtain ⟨depth, recorded, parent, receiver⟩ := Deed.inherited_eq_some.mp found
        split
        · exact .here (.superMethod recorded parent receiver ‹_›) fun _ _ _ => .done _
        · exact .stop _
      · exact .stop _

theorem begins_ofCallable (fuel : Nat) (callee : Callable) (arguments : List Value) :
    Begins (Task.runWith more) (fun other later =>
      Substep (.invoke (more.getD fuel + 1) callee arguments) machine (other.refuel more) later) machine
      (ofCallable fuel arguments callee) := by
  cases callee with
  | native builtin => exact begins_ofNative builtin arguments
  | function => exact .last .function
  | constructor cls =>
      refine .act ?_
      split
      · rename_i found
        exact .here (.bindInitializer rfl found) fun _ _ ended =>
          .here (.initializer rfl found ended) fun _ _ _ => .done _
      · exact .done _

theorem begins_ofFunction (fuel : Nat) (closure : Closure) (arguments : List Value) :
    Begins (Task.runWith more) (fun other later =>
      Substep (.invokeFunction (more.getD fuel + 1) closure arguments) machine (other.refuel more) later) machine
      (ofFunction fuel closure arguments) := by
  refine .act (begins_start.mpr ⟨?_, fun flow after _ => ?_⟩)
  · rintro _ ⟨⟩
    exact .functionBody
  · unfold functionResult
    split
    · refine .act ?_
      split
      · exact .done _
      · exact .stop _
    · cases flow <;> exact .done _

theorem begins_ofStmt (fuel : Nat) (stmt : Stmt) :
    Begins (Task.runWith more) (fun other later =>
      Substep (.execute (more.getD fuel + 1) stmt) machine (other.refuel more) later) machine (ofStmt fuel stmt) := by
  cases stmt with
  | expression => exact .here .expression fun _ _ _ => .done _
  | print =>
      refine .here .printed fun _ _ _ => .act ?_
      split
      · exact .done _
      · exact .stop _
  | varDecl => exact .here .initialValue fun _ _ _ => .act (.done _)
  | block =>
      refine .act (.act (begins_start.mpr ⟨?_, fun _ _ _ => .done _⟩))
      rintro _ ⟨⟩
      exact .block
  | ifThen =>
      refine .here .ifCondition fun value after ended => ?_
      split
      · exact .last (.ifThen ended ‹_›)
      · exact .done _
  | ifElse =>
      refine .here .ifElseCondition fun value after ended => ?_
      split
      · exact .last (.ifElseThen ended ‹_›)
      · exact .last (.ifElseElse ended (Bool.eq_false_iff.mpr ‹_›))
  | whileLoop => exact .last .whileLoop
  | functionDecl => exact .act (.act (.done _))
  | returnStmt => exact .here .returned fun _ _ _ => .done _
  | classDecl name superclass methods =>
      cases superclass with
      | none => exact .here .declareClass fun _ _ _ => .done _
      | some parent =>
          refine .here .superclass fun value after ended => ?_
          split
          · exact .here (.declareSubclass ended) fun _ _ _ => .done _
          · exact .stop _

theorem Task.begins_plan_with (more : Option Nat) (task : Task) (machine : Machine) :
    task.plan.Begins (Task.runWith more) (fun other later =>
      Substep (task.refuel (more.map Nat.succ)) machine (other.refuel more) later ∨
        Substep (task.refuel more) machine (other.refuel more) later) machine := by
  cases task using cases_plan with
  | exhausted task spent =>
      rw [spent]
      exact .stop _
  | evaluate fuel expr => cases more <;> exact (begins_ofExpr fuel expr).mono fun _ _ => .inl
  | evaluateAll fuel exprs =>
      cases exprs with
      | nil => exact .done _
      | cons =>
          cases more <;> exact .here (.inl .firstOf) fun _ _ ended =>
            .here (.inl (.restOf ended)) fun _ _ _ => .done _
  | evaluateOr fuel expr =>
      cases expr with
      | none => exact .done _
      | some => cases more <;> exact .last (.inl .present)
  | call fuel function paren arguments =>
      show Plan.Begins _ _ _ (ofCall ..)
      unfold ofCall
      split
      · exact .stop _
      · rename_i callable
        split
        · exact .stop _
        · rename_i enough
          refine begins_start.mpr ⟨fun present entered => ?_, fun _ _ _ => .done _⟩
          obtain ⟨room, ⟨⟩⟩ := Option.ite_none_right_eq_some.mp entered
          cases more <;> exact .inl (.invoke callable (Decidable.not_not.mp enough) room)
  | invoke fuel callee arguments =>
      cases more <;> exact (begins_ofCallable fuel callee arguments).mono fun _ _ => .inl
  | invokeFunction fuel closure arguments =>
      cases more <;> exact (begins_ofFunction fuel closure arguments).mono fun _ _ => .inl
  | bindMethod => exact .act (.done _)
  | execute fuel stmt => cases more <;> exact (begins_ofStmt fuel stmt).mono fun _ _ => .inl
  | executeAll fuel stmts =>
      cases stmts with
      | nil => exact .done _
      | cons =>
          refine .here (by cases more <;> exact .inl .firstStmt) fun flow after ended => ?_
          cases flow with
          | normal => cases more <;> exact .last (.inl (.restStmts ended))
          | returned => exact .done _
  | repeatWhile fuel condition body =>
      refine .here (by cases more <;> exact .inl .loopCondition) fun value middle ended => ?_
      split
      · rename_i truthy
        refine .here (by cases more <;> exact .inl (.loopBody ended truthy))
          fun flow after ended' => ?_
        cases flow with
        | normal => cases more <;> exact .last (.inl (.nextRound ended truthy ended'))
        | returned => exact .done _
      · exact .done _
  | declareClass name superclass methods =>
      cases superclass with
      | none => exact .act (.act (.act (.act (.done _))))
      | some parent => exact .act (.act (.act (.act (.act (.done _)))))
  | executeProgram fuel stmts =>
      cases stmts with
      | nil => exact .done _
      | cons =>
          exact .here (.inr .firstOfProgram) fun _ _ ended => .last (.inr (.restOfProgram ended))

theorem Task.begins_plan (task : Task) (machine : Machine) :
    task.plan.Begins Task.run (Substep task machine) machine := by
  have begins := task.begins_plan_with none machine
  rw [funext Task.runWith_none] at begins
  refine begins.mono fun other later step => ?_
  simpa only [Option.map_none, Task.refuel_none, or_self] using step

def Task.stages (machine : Machine) (task : Task) : List (Task × Machine) :=
  task.plan.stages Task.run machine

theorem Substep.mem_stages (begun : Substep task machine other later) :
    (other, later) ∈ task.stages machine := by
  unfold Task.stages
  cases begun with
  | superMethod recorded parent receiver found =>
      have heirs := Deed.inherited_eq_some.mpr ⟨_, recorded, parent, receiver⟩
      simp [Task.plan, ofExpr, readSuper, retrieve, stages, Setting.enter?, Deed.answer, Deed.change,
        heirs, found]
  | bindInitializer made found =>
      cases made
      simp [Task.plan, ofCallable, stages, Setting.enter?, Deed.answer, Deed.change, found]
  | initializer made found ended =>
      cases made
      simp [Task.plan, ofCallable, stages, Setting.enter?, Setting.around, Task.run, Deed.answer,
        Deed.change, found, ended]
  | _ =>
      simp_all [Task.plan, ofExpr, ofExprs, ofCall, ofCallable, ofFunction, ofStmt, ofStmts, ofLoop,
        ofProgram, getProperty, retrieve, stages, Setting.enter?, Setting.around, Task.run,
        Deed.answer, Deed.change, Machine.entering]

theorem Task.mem_stages : (other, later) ∈ task.stages machine ↔ Substep task machine other later :=
  ⟨task.begins_plan machine (other, later), Substep.mem_stages⟩

theorem Task.bound_lt (begun : Substep task machine other later) : other.bound < task.bound := by
  cases begun <;> simp [bound, fuel]

/-- What is passed on from shorter tasks to a task holds of all tasks. -/
theorem Task.induction {kind : Task → Prop}
    (step : ∀ task : Task, (∀ other : Task, other.bound < task.bound → kind other) → kind task)
    (task : Task) : kind task :=
  (measure Task.bound).wf.induction task step

namespace Reaches

variable {task other : Task} {machine later : Machine}

theorem head {next : Task} {present : Machine} (step : Substep task machine next present)
    (rest : Reaches next present other later) : Reaches task machine other later := by
  induction rest with
  | here => exact .begun .here step
  | begun _ last ih => exact .begun ih last

theorem trans {next : Task} {present : Machine} (first : Reaches task machine next present)
    (rest : Reaches next present other later) : Reaches task machine other later := by
  induction rest with
  | here => exact first
  | begun _ last ih => exact .begun ih last

theorem head_induction {other : Task} {later : Machine}
    {motive : ∀ task machine, Reaches task machine other later → Prop}
    (here : motive other later .here)
    (begun : ∀ {task machine next present} (step : Substep task machine next present)
      (rest : Reaches next present other later), motive next present rest →
      motive task machine (rest.head step))
    {task : Task} {machine : Machine} (reaches : Reaches task machine other later) :
    motive task machine reaches := by
  induction reaches with
  | here => exact here
  | @begun middle other present later _ step ih =>
      refine ih (motive := fun task machine rest => motive task machine (rest.begun step)) ?_ ?_
      · exact begun step .here here
      · exact fun first rest known => begun first (rest.begun step) known

theorem cases_head (reaches : Reaches task machine other later) :
    (task, machine) = (other, later) ∨
      ∃ next present, Substep task machine next present ∧ Reaches next present other later := by
  induction reaches using head_induction with
  | here => exact .inl rfl
  | begun step rest _ => exact .inr ⟨_, _, step, rest⟩

end Reaches

/-! What is special about some deeds. -/

namespace Plan

variable {bound : Nat} {α : Type} {sets : Prop}

/-- A line that is refused ends the plan, and fields are set only where this is stated. -/
def Heeds (sets : Prop) : Plan bound α → Prop
  | done _ | stop _ => True
  | act (.writeLine _) next =>
      (∃ place, ∀ fault, next (.error fault) = stop (.error ⟨.outputFailed fault, place⟩)) ∧
        (next (.ok ())).Heeds sets
  | act (.setField _ _ _) next => sets ∧ ∀ answer, (next answer).Heeds sets
  | act _ next => ∀ answer, (next answer).Heeds sets
  | start _ _ next _ => ∀ result, (next result).Heeds sets

theorem Heeds.next {deed : Deed} {next : deed.Result → Plan bound α}
    (heeds : (act deed next).Heeds sets) (answer : deed.Result) : (next answer).Heeds sets := by
  cases deed with
  | writeLine text =>
      obtain ⟨⟨place, stops⟩, goesOn⟩ := heeds
      cases answer with
      | ok => exact goesOn
      | error fault =>
          rw [stops]
          trivial
  | setField => exact heeds.2 answer
  | _ => exact heeds answer

theorem heeds_orFailAt (place : Token) (result : Except RuntimeFault α) :
    (orFailAt place result : Plan bound α).Heeds sets := by
  cases result <;> trivial

theorem heeds_ofExpr (fuel : Nat) {expr : Expr}
    (assigns : ∀ object name value, expr = .set object name value → sets) :
    (ofExpr fuel expr).Heeds sets := by
  cases expr with
  | unary => exact fun _ => heeds_orFailAt _ _
  | binary => exact fun _ _ => heeds_orFailAt _ _
  | set object name value =>
      unfold ofExpr
      intro target
      dsimp only
      split
      · exact fun result => ⟨assigns object name value rfl, fun _ => trivial⟩
      · trivial
  | _ =>
      unfold ofExpr
      repeat' first | trivial | intro _ | split | dsimp only

theorem heeds_ofNative (arguments : List Value) (builtin : Native) :
    (ofNative arguments builtin : Plan bound Value).Heeds sets := by
  unfold ofNative
  repeat' first | trivial | exact ⟨⟨none, fun _ => rfl⟩, trivial⟩ | intro _ | split | dsimp only

theorem heeds_ofCallable (fuel : Nat) (arguments : List Value) (callee : Callable) :
    (ofCallable fuel arguments callee).Heeds sets := by
  cases callee with
  | native builtin => exact heeds_ofNative arguments builtin
  | function => exact fun _ => trivial
  | constructor cls =>
      intro inst
      dsimp only
      split
      · exact fun _ _ => trivial
      · trivial

theorem heeds_ofStmt (fuel : Nat) (stmt : Stmt) : (ofStmt fuel stmt).Heeds sets := by
  cases stmt with
  | print keyword value => exact fun _ => ⟨⟨some keyword, fun _ => rfl⟩, trivial⟩
  | _ =>
      unfold ofStmt
      repeat' first | trivial | intro _ | split | dsimp only

end Plan

def Task.Assigns (task : Task) : Prop :=
  ∃ fuel object name value, task = .evaluate (fuel + 1) (.set object name value)

theorem Task.heeds (task : Task) : task.plan.Heeds task.Assigns := by
  unfold Task.plan
  split
  all_goals first
    | exact heeds_ofExpr _ fun _ _ _ same => ⟨_, _, _, _, congrArg _ same⟩
    | exact heeds_ofCallable _ _ _
    | exact heeds_ofStmt _ _
    | repeat' first
        | trivial | intro _ | split
        | dsimp only [ofExprs, ofCall, ofFunction, functionResult, ofStmts, ofLoop, ofClass, ofProgram]

/-- A relation between states of the machine that holds from the beginning of a run to its end. -/
structure Lasting (relation : Machine → Machine → Prop) : Prop where
  refl : ∀ machine, relation machine machine
  trans : ∀ {first second third}, relation first second → relation second third →
    relation first third
  change : ∀ deed machine, relation machine (Deed.change machine deed)
  leave : ∀ setting machine {present after}, Setting.enter? machine setting = some present →
    relation present after → relation machine (setting.leave machine after)

namespace Lasting

variable {relation : Machine → Machine → Prop} (lasting : Lasting relation)

include lasting

theorem around {α : Type} {step : Run α}
    (lasts : ∀ machine, relation machine (step.final machine)) (setting : Setting)
    (machine : Machine) : relation machine ((setting.around step).final machine) := by
  cases entered : setting.enter? machine with
  | none =>
      obtain ⟨paren, -, -, refused⟩ := Setting.around_of_none step entered
      rw [Run.final, refused]
      exact lasting.refl machine
  | some present =>
      rw [Setting.final_around entered]
      exact lasting.leave setting machine entered (lasts present)

theorem play {α : Type} {bound : Nat} {runs : (task : Task) → Run task.Result}
    (shorter : ∀ task : Task, task.bound < bound → ∀ machine,
      relation machine ((runs task).final machine)) (plan : Plan bound α) (machine : Machine) :
    relation machine ((plan.play runs).final machine) := by
  induction plan generalizing machine with
  | done | stop => exact lasting.refl machine
  | act deed next ih => exact lasting.trans (lasting.change deed machine) (ih _ _)
  | start setting task next less ih =>
      have early := lasting.around (shorter task less) setting machine
      simp only [Run.final, Plan.play, Bind.bind, EStateM.bind] at early ⊢
      cases ended : setting.around (runs task) machine with
      | ok result after =>
          rw [ended] at early
          exact lasting.trans early (ih result after)
      | error abort after =>
          rw [ended] at early
          exact early

theorem final (task : Task) (machine : Machine) : relation machine (task.run.final machine) := by
  induction task using Task.induction generalizing machine with
  | step task shorter =>
      rw [← task.play_plan]
      exact lasting.play shorter task.plan machine

theorem final_with (more : Option Nat) (task : Task) (machine : Machine) :
    relation machine ((task.runWith more).final machine) := by
  cases task with
  | evaluate => exact lasting.final (.evaluate _ _) machine
  | evaluateAll => exact lasting.final (.evaluateAll _ _) machine
  | evaluateOr => exact lasting.final (.evaluateOr _ _) machine
  | call => exact lasting.final (.call _ _ _ _) machine
  | invoke => exact lasting.final (.invoke _ _ _) machine
  | invokeFunction => exact lasting.final (.invokeFunction _ _ _) machine
  | bindMethod => exact lasting.final (.bindMethod _ _) machine
  | execute => exact lasting.final (.execute _ _) machine
  | executeAll => exact lasting.final (.executeAll _ _) machine
  | repeatWhile => exact lasting.final (.repeatWhile _ _ _) machine
  | declareClass => exact lasting.final (.declareClass _ _ _) machine
  | executeProgram => exact lasting.final (.executeProgram _ _) machine

end Lasting

end Lox
