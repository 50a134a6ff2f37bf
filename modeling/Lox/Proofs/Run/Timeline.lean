import Mathlib
import Lox.Proofs.Scoping.Binding

/-!
The order of what happens in a run. The age of a machine is the number of scopes that have been
opened in it. Of two tasks that a task begins, one has ended when the other begins; so the moments
at which scopes are opened have different ages, and a scope is opened at one moment only.
-/

namespace Lox

/-- How many scopes have been opened so far; the next one gets this number. -/
def Machine.age (machine : Machine) : Nat := machine.scopes.tables.size

@[simp] theorem Machine.age_entering (machine : Machine) (outer : Env) (bindings : Bindings) :
    (machine.entering outer bindings).age = machine.age + 1 := by
  simp [entering, age, Scopes.enter]

namespace Run

variable {machine : Machine}

theorem getProperty_method {inst : Instance} {name : Token} {method : Closure}
    (absent : machine.field? inst name.lexeme = none)
    (found : inst.cls.findMethod? name.lexeme = some method) :
    getProperty inst name machine =
      (bindMethod method inst >>= fun bound => pure (Value.function bound)) machine := by
  simp only [getProperty, Bind.bind, EStateM.bind, MonadState.get, getThe, MonadStateOf.get,
    EStateM.get, absent, found]

theorem readSuper_eq {id : ExprId} (keyword name : Token) {depth : Nat} {superclass : ClassObject}
    {inst : Instance} (recorded : machine.depths[id]? = some (depth + 1))
    (parent : machine.scopes.getAt? machine.env (depth + 1) "super" = some (.ofClass superclass))
    (receiver : machine.scopes.getAt? machine.env depth "this" = some (.object inst)) :
    readSuper id keyword name machine =
      (match superclass.findMethod? name.lexeme with
        | some method => bindMethod method inst >>= fun bound => pure (Value.function bound)
        | none => fail (.undefinedProperty name.lexeme) name) machine := by
  cases found : superclass.findMethod? name.lexeme with
  | none | some method =>
      simp only [readSuper, Bind.bind, EStateM.bind, MonadState.get, getThe, MonadStateOf.get,
        EStateM.get, recorded, parent, receiver, Value.ofClass, found]

def subclass (name : Token) (parent : ClassObject) (methods : List FunctionDecl)
    (machine : Machine) : ClassObject :=
  let env : Env := ⟨machine.scopes.tables.size⟩ :: machine.env
  let table := methods.foldl
    (fun table decl => table.insert decl.name.lexeme ⟨decl, env, decl.name.lexeme = "init"⟩) {}
  ⟨⟨machine.nextClass, name.lexeme, table⟩, parent.chain⟩

theorem declareClass_inherited (name : Token) (parent : ClassObject) (methods : List FunctionDecl)
    (machine : Machine) :
    declareClass name (some parent) methods machine = .ok () { machine with
      scopes := ((machine.scopes.define machine.env name.lexeme .nil).enter machine.env
        (({} : Bindings).insert "super" (.ofClass parent))).2.define machine.env name.lexeme
          (.ofClass (subclass name parent methods machine))
      nextClass := machine.nextClass + 1 } := by
  unfold subclass
  rw [← machine.scopes.size_define machine.env name.lexeme .nil]
  rfl

end Run

open Run

theorem lasting_age : Lasting fun before after => before.age ≤ after.age where
  refl := fun _ => le_rfl
  trans := le_trans
  change := fun deed machine => (deed.grows machine).size_le
  leave := by
    intro setting machine present after entered le
    obtain ⟨env, callDepth, rfl⟩ := Setting.eq_of_enter entered
    obtain ⟨env', callDepth', left⟩ := setting.leave_eq machine after
    rw [left]
    exact le

theorem Task.age_le (task : Task) (machine : Machine) :
    machine.age ≤ (task.run.final machine).age := lasting_age.final task machine

section Ends

variable {task other : Task} {machine later : Machine}

theorem Plan.age_final_le {α : Type} {bound : Nat} {plan : Plan bound α}
    (begun : (other, later) ∈ plan.stages Task.run machine) :
    (other.run.final later).age ≤ ((plan.play Task.run).final machine).age := by
  induction plan generalizing machine with
  | done | stop => cases begun
  | act deed next ih => exact ih _ begun
  | start setting task next less ih =>
      have onward (result : task.Result) (after : Machine) :
          after.age ≤ (((next result).play Task.run).final after).age :=
        lasting_age.play (fun task _ => task.age_le) _ after
      have around {present : Machine} (entered : setting.enter? machine = some present) :
          (task.run.final present).age = ((setting.around task.run).final machine).age := by
        obtain ⟨env, callDepth, left⟩ := setting.leave_eq machine (task.run.final present)
        rw [Setting.final_around entered, left]
        rfl
      simp only [stages, List.mem_append, List.mem_map, Option.mem_toList, Prod.mk.injEq] at begun
      simp only [final, play, Bind.bind, EStateM.bind] at around ⊢
      cases ended : setting.around task.run machine with
      | ok result after =>
          rw [ended] at begun around
          rcases begun with ⟨present, entered, rfl, rfl⟩ | begun
          · exact (around entered).trans_le (onward result after)
          · exact ih result begun
      | error abort after =>
          rw [ended] at begun around
          rcases begun with ⟨present, entered, rfl, rfl⟩ | begun
          · exact (around entered).le
          · cases begun

theorem Substep.age_final_le (begun : Substep task machine other later) :
    (other.run.final later).age ≤ (task.run.final machine).age := by
  rw [← task.play_plan]
  exact Plan.age_final_le begun.mem_stages

end Ends

section Order

variable {task one other : Task} {machine early late : Machine}

theorem Task.age_le_of_ok (task : Task) {value : task.Result}
    (ended : task.run machine = .ok value late) :
    machine.age ≤ late.age := final_of_ok ended ▸ task.age_le machine

def Task.EndsBy (task : Task) (machine late : Machine) : Prop :=
  (task.run.final machine).age ≤ late.age

theorem Task.endsBy_of_ok (task : Task) {value : task.Result}
    (ended : task.run machine = .ok value late) :
    task.EndsBy machine late := (congrArg Machine.age (final_of_ok ended)).le

theorem related_of_pairwise {α : Type} {relation : α → α → Prop} {list : List α}
    (pairwise : list.Pairwise relation) {one other : α} (member : one ∈ list)
    (member' : other ∈ list) : one = other ∨ relation one other ∨ relation other one :=
  List.Pairwise.forall_of_forall_of_flip
    (R := fun one other => one = other ∨ relation one other ∨ relation other one)
    (fun _ _ => .inl rfl) (pairwise.imp fun related => .inr (.inl related))
    (pairwise.imp fun related => .inr (.inr related)) member member'

def following {α : Type} (result : EStateM.Result Abort Machine α)
    (tasks : α → Machine → List (Task × Machine)) : List (Task × Machine) :=
  match result with
  | .ok value after => tasks value after
  | .error _ _ => []

def Task.begins (machine : Machine) : Task → List (Task × Machine)
  | evaluate (fuel + 1) expr =>
      match expr with
      | .literal _ | .var _ _ | .this _ _ => []
      | .grouping part | .unary _ part | .assign _ _ part => [(evaluate fuel part, machine)]
      | .binary left _ right | .logical left _ right | .comma left _ right =>
          (evaluate fuel left, machine) :: following (Lox.evaluate fuel left machine)
            fun _ after => [(evaluate fuel right, after)]
      | .conditional condition thenBranch elseBranch =>
          (evaluate fuel condition, machine) :: following (Lox.evaluate fuel condition machine)
            fun value after =>
              [(evaluate fuel (if value.isTruthy then thenBranch else elseBranch), after)]
      | .call callee paren exprs =>
          (evaluate fuel callee, machine) :: following (Lox.evaluate fuel callee machine)
            fun function middle =>
              (evaluateAll fuel exprs, middle) :: following (Lox.evaluateAll fuel exprs middle)
                fun values after => [(call fuel function paren values, after)]
      | .get object name =>
          (evaluate fuel object, machine) :: following (Lox.evaluate fuel object machine)
            fun value after =>
              match value with
              | .object inst =>
                  (inst.cls.findMethod? name.lexeme).toList.map (bindMethod · inst, after)
              | _ => []
      | .set object _ value =>
          (evaluate fuel object, machine) :: following (Lox.evaluate fuel object machine)
            fun _ after => [(evaluate fuel value, after)]
      | .super id _ name =>
          match machine.depths[id]? with
          | some (depth + 1) =>
              match machine.scopes.getAt? machine.env (depth + 1) "super",
                  machine.scopes.getAt? machine.env depth "this" with
              | some (.callable (.constructor superclass)), some (.object inst) =>
                  (superclass.findMethod? name.lexeme).toList.map (bindMethod · inst, machine)
              | _, _ => []
          | _ => []
  | evaluateAll (fuel + 1) (first :: rest) =>
      (evaluate fuel first, machine) :: following (Lox.evaluate fuel first machine)
        fun _ after => [(evaluateAll fuel rest, after)]
  | evaluateOr (fuel + 1) (some value) => [(evaluate fuel value, machine)]
  | call (fuel + 1) function _ arguments =>
      function.callable?.toList.map (invoke fuel · arguments, machine.calling)
  | invoke (fuel + 1) (.function closure) arguments =>
      [(invokeFunction fuel closure arguments, machine)]
  | invoke (fuel + 1) (.constructor cls) arguments =>
      following (Run.newInstance cls machine) fun inst middle =>
        match cls.findMethod? "init" with
        | some initializer =>
            (bindMethod initializer inst, middle) ::
              following (Run.bindMethod initializer inst middle)
                fun bound after => [(invokeFunction fuel bound arguments, after)]
        | none => []
  | invokeFunction (fuel + 1) closure arguments =>
      [(executeAll fuel closure.decl.body,
        machine.entering closure.env (parameterBindings closure.decl.params arguments))]
  | execute (fuel + 1) stmt =>
      match stmt with
      | .expression value | .print _ value => [(evaluate fuel value, machine)]
      | .varDecl _ value | .returnStmt _ value => [(evaluateOr fuel value, machine)]
      | .block body => [(executeAll fuel body, machine.entering machine.env {})]
      | .ifThen condition branch =>
          (evaluate fuel condition, machine) :: following (Lox.evaluate fuel condition machine)
            fun _ after => [(execute fuel branch, after)]
      | .ifElse condition thenBranch elseBranch =>
          (evaluate fuel condition, machine) :: following (Lox.evaluate fuel condition machine)
            fun value after =>
              [(execute fuel (if value.isTruthy then thenBranch else elseBranch), after)]
      | .whileLoop condition body => [(repeatWhile fuel condition body, machine)]
      | .functionDecl _ => []
      | .classDecl name none methods => [(declareClass name none methods, machine)]
      | .classDecl name (some parent) methods =>
          (evaluate fuel parent, machine) :: following (Lox.evaluate fuel parent machine)
            fun value after =>
              match value with
              | .callable (.constructor cls) => [(declareClass name (some cls) methods, after)]
              | _ => []
  | executeAll (fuel + 1) (first :: rest) =>
      (execute fuel first, machine) :: following (Lox.execute fuel first machine)
        fun _ after => [(executeAll fuel rest, after)]
  | repeatWhile (fuel + 1) condition body =>
      (evaluate fuel condition, machine) :: following (Lox.evaluate fuel condition machine)
        fun _ middle => (execute fuel body, middle) :: following (Lox.execute fuel body middle)
          fun _ after => [(repeatWhile fuel condition body, after)]
  | executeProgram fuel (first :: rest) =>
      (execute fuel first, machine) :: following (Lox.execute fuel first machine)
        fun _ after => [(executeProgram fuel rest, after)]
  | _ => []

theorem Substep.mem_begins (begun : Substep task machine other late) :
    (other, late) ∈ task.begins machine := by
  cases begun <;> simp_all [Task.begins, following]

/-- From the given state on the tasks come in this order, each begun when those before it have
ended. -/
structure Chronological (start : Machine) (moments : List (Task × Machine)) : Prop where
  later : ∀ moment ∈ moments, start.age ≤ moment.2.age
  ordered : moments.Pairwise fun first second => first.1.EndsBy first.2 second.2

namespace Chronological

theorem nil (start : Machine) : Chronological start [] := ⟨by simp, .nil⟩

theorem single {start : Machine} (task : Task) (le : start.age ≤ machine.age) :
    Chronological start [(task, machine)] :=
  ⟨by simpa using le, List.pairwise_singleton _ _⟩

theorem option {start : Machine} {α : Type} (option : Option α) (task : α → Task)
    (le : start.age ≤ machine.age) :
    Chronological start (option.toList.map fun value => (task value, machine)) := by
  cases option with
  | none => exact nil start
  | some value => exact single (task value) le

theorem cons (task : Task) {moments : task.Result → Machine → List (Task × Machine)}
    (rest : ∀ value after, Chronological after (moments value after)) :
    Chronological machine ((task, machine) :: following (task.run machine) moments) := by
  cases ended : task.run machine with
  | ok value after =>
      obtain ⟨later, ordered⟩ := rest value after
      constructor
      · rw [List.forall_mem_cons]
        exact ⟨le_rfl, fun moment member => (task.age_le_of_ok ended).trans (later moment member)⟩
      · refine .cons (fun moment member => ?_) ordered
        exact (task.endsBy_of_ok ended).trans (later moment member)
  | error abort after => exact single task le_rfl

theorem pair (task : Task) {next : task.Result → Task} :
    Chronological machine
      ((task, machine) :: following (task.run machine) fun value after => [(next value, after)]) :=
  cons task fun value _ => single (next value) le_rfl

end Chronological

theorem chronological_evaluate (fuel : Nat) (expr : Expr) :
    Chronological machine ((Task.evaluate (fuel + 1) expr).begins machine) := by
  cases expr with
  | literal | var | this => exact .nil machine
  | grouping | unary | assign => exact .single _ le_rfl
  | binary first | logical first | comma first | set first | conditional first =>
      exact .pair (.evaluate fuel first)
  | call callee paren exprs =>
      exact .cons (.evaluate fuel callee) fun _ _ => .pair (.evaluateAll fuel exprs)
  | get object name =>
      refine .cons (.evaluate fuel object) fun value after => ?_
      split
      · exact .option _ _ le_rfl
      · exact .nil after
  | super id keyword name =>
      simp only [Task.begins]
      split
      · split
        · exact .option _ _ le_rfl
        · exact .nil machine
      · exact .nil machine

theorem chronological_execute (fuel : Nat) (stmt : Stmt) :
    Chronological machine ((Task.execute (fuel + 1) stmt).begins machine) := by
  cases stmt with
  | functionDecl => exact .nil machine
  | expression | print | varDecl | returnStmt | whileLoop => exact .single _ le_rfl
  | block => exact .single _ (by simp)
  | ifThen condition | ifElse condition => exact .pair (.evaluate fuel condition)
  | classDecl name superclass methods =>
      cases superclass with
      | none => exact .single _ le_rfl
      | some parent =>
          refine .cons (.evaluate fuel parent) fun value after => ?_
          split
          · exact .single _ le_rfl
          · exact .nil after

theorem chronological_invoke (fuel : Nat) (callee : Callable) (arguments : List Value) :
    Chronological machine ((Task.invoke (fuel + 1) callee arguments).begins machine) := by
  cases callee with
  | native => exact .nil machine
  | function => exact .single _ le_rfl
  | constructor cls =>
      simp only [Task.begins]
      cases cls.findMethod? "init" with
      | none => exact .nil machine
      | some initializer =>
          -- making an instance opens no scope
          obtain ⟨later, ordered⟩ := Chronological.pair (.bindMethod initializer _)
          exact ⟨later, ordered⟩

theorem Task.chronological_begins (task : Task) (machine : Machine) :
    Chronological machine (task.begins machine) := by
  cases task with
  | evaluate fuel expr =>
      cases fuel with
      | zero => exact .nil machine
      | succ fuel => exact chronological_evaluate fuel expr
  | execute fuel stmt =>
      cases fuel with
      | zero => exact .nil machine
      | succ fuel => exact chronological_execute fuel stmt
  | invoke fuel callee arguments =>
      cases fuel with
      | zero => exact .nil machine
      | succ fuel => exact chronological_invoke fuel callee arguments
  | invokeFunction fuel closure arguments =>
      cases fuel with
      | zero => exact .nil machine
      | succ fuel => exact .single _ (by simp)
  | call fuel function paren arguments =>
      cases fuel with
      | zero => exact .nil machine
      | succ fuel => exact .option _ _ le_rfl
  | evaluateOr fuel expr =>
      cases fuel with
      | zero => exact .nil machine
      | succ fuel =>
          cases expr with
          | none => exact .nil machine
          | some value => exact .single _ le_rfl
  | evaluateAll fuel exprs =>
      cases fuel with
      | zero => exact .nil machine
      | succ fuel =>
          cases exprs with
          | nil => exact .nil machine
          | cons first rest => exact .pair (.evaluate fuel first)
  | executeAll fuel stmts =>
      cases fuel with
      | zero => exact .nil machine
      | succ fuel =>
          cases stmts with
          | nil => exact .nil machine
          | cons first rest => exact .pair (.execute fuel first)
  | repeatWhile fuel condition body =>
      cases fuel with
      | zero => exact .nil machine
      | succ fuel => exact .cons (.evaluate fuel condition) fun _ _ => .pair (.execute fuel body)
  | executeProgram fuel stmts =>
      cases stmts with
      | nil => exact .nil machine
      | cons first rest => exact .pair (.execute fuel first)
  | bindMethod | declareClass => exact .nil machine

theorem Substep.age_le (begun : Substep task machine other late) : machine.age ≤ late.age :=
  (task.chronological_begins machine).later _ begun.mem_begins

theorem Substep.ordered (first : Substep task machine one early)
    (second : Substep task machine other late) :
    (one, early) = (other, late) ∨ one.EndsBy early late ∨ other.EndsBy late early :=
  related_of_pairwise (task.chronological_begins machine).ordered first.mem_begins second.mem_begins

end Order

/-! Along the moments of a run. -/

namespace Reaches

variable {task other : Task} {machine later : Machine}

theorem age_le (reaches : Reaches task machine other later) : machine.age ≤ later.age := by
  induction reaches with
  | here => exact le_rfl
  | begun _ step ih => exact ih.trans step.age_le

theorem age_final_le (reaches : Reaches task machine other later) :
    (other.run.final later).age ≤ (task.run.final machine).age := by
  induction reaches with
  | here => exact le_rfl
  | begun _ step ih => exact step.age_final_le.trans ih

end Reaches

namespace Task.Opens

variable {task other : Task} {region : Region} {machine later : Machine}

theorem age_lt_of_substep (opens : task.Opens region) (begun : Substep task machine other later) :
    machine.age < later.age := by
  cases opens with
  | block => cases begun; simp
  | function => cases begun; simp
  | this | super => cases begun

theorem age_lt_final (opens : task.Opens region) : machine.age < (task.run.final machine).age := by
  have entered {other : Task} {later : Machine} (begun : Substep task machine other later) :
      machine.age < (task.run.final machine).age :=
    (opens.age_lt_of_substep begun).trans_le ((other.age_le later).trans begun.age_final_le)
  cases opens with
  | block => exact entered .block
  | function => exact entered .functionBody
  | @this method inst => exact Nat.lt_of_succ_le (Array.size_push _).ge
  | @super name parent methods =>
      have declared := congrArg Machine.age
        (final_of_ok (declareClass_inherited name parent methods machine))
      refine Nat.lt_of_succ_le (le_of_eq (Eq.trans ?_ declared.symm))
      simp [Machine.age, Scopes.size_define, Scopes.enter]

end Task.Opens

theorem Reaches.opens_once {task one other : Task} {machine early late : Machine}
    {region region' : Region} (reaches : Reaches task machine one early)
    (reaches' : Reaches task machine other late) (opens : one.Opens region)
    (opens' : other.Opens region') (same : early.age = late.age) :
    (one, early) = (other, late) := by
  induction reaches using head_induction with
  | here =>
      rcases reaches'.cases_head with equal | ⟨next, present, step, rest⟩
      · exact equal
      · have inside := (opens.age_lt_of_substep step).trans_le rest.age_le
        omega
  | begun step rest ih =>
      rcases reaches'.cases_head with equal | ⟨next, present, step', rest'⟩
      · cases equal
        have inside := (opens'.age_lt_of_substep step).trans_le rest.age_le
        omega
      · rcases step.ordered step' with equal | before | after
        · cases equal
          exact ih rest'
        · -- all that the earlier task has opened is older than what the later one opens
          have inside := opens.age_lt_final.trans_le (rest.age_final_le.trans before)
          have := rest'.age_le
          omega
        · have inside := opens'.age_lt_final.trans_le (rest'.age_final_le.trans after)
          have := rest.age_le
          omega

end Lox
