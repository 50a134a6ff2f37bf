import Mathlib
import Lox.Proofs.Declared
import Lox.Proofs.Run.Confined
import Lox.Proofs.Run.Faults
import Lox.Proofs.Run.Timeline

/-!
The creation of functions. The trace of a task lists the moments of its run in their order, each as
often as it comes. A function is created where a declaration is executed, and where a method is
retrieved from an instance or from a superclass. The scope of a function is then either one that the
run has opened, at that moment or before, or the present one; so no two moments of a trace create
the same function.
-/

namespace Lox

open Run

section Trace

variable {task other : Task} {machine later : Machine}

open Classical in
noncomputable def Task.steps (task : Task) (machine : Machine) : List (Task × Machine) :=
  (task.begins machine).filter fun next => Substep task machine next.1 next.2

theorem Task.mem_steps {next : Task × Machine} :
    next ∈ task.steps machine ↔ Substep task machine next.1 next.2 := by
  simp only [steps, List.mem_filter, decide_eq_true_eq]
  exact ⟨And.right, fun step => ⟨step.mem_begins, step⟩⟩

noncomputable def Task.trace (task : Task) (machine : Machine) : List (Task × Machine) :=
  (task, machine) ::
    (task.steps machine).attach.flatMap fun next => next.1.1.trace next.1.2
termination_by task.bound
decreasing_by exact bound_lt (mem_steps.mp next.2)

theorem Task.trace_eq (task : Task) (machine : Machine) :
    task.trace machine =
      (task, machine) :: (task.steps machine).flatMap fun next => next.1.trace next.2 := by
  rw [trace, List.flatMap_subtype (g := fun next => next.1.trace next.2) (fun _ _ => rfl)]
  simp

theorem Task.mem_trace :
    (other, later) ∈ task.trace machine ↔ Reaches task machine other later := by
  constructor
  · intro member
    induction bound : task.bound using Nat.strong_induction_on generalizing task machine with
    | h bound ih =>
        rw [trace_eq, List.mem_cons, List.mem_flatMap] at member
        rcases member with same | ⟨next, begun, inner⟩
        · cases same
          exact .here
        · have step := mem_steps.mp begun
          exact (ih _ (bound ▸ bound_lt step) inner rfl).head step
  · intro reaches
    induction reaches using Reaches.head_induction with
    | here =>
        rw [trace_eq]
        exact List.mem_cons_self
    | @begun task machine next present step _ ih =>
        rw [trace_eq, List.mem_cons, List.mem_flatMap]
        exact .inr ⟨(next, present), mem_steps.mpr step, ih⟩

end Trace

def Closure.boundIn (method : Closure) (machine : Machine) : Closure :=
  { method with env := ⟨machine.age⟩ :: method.env }

/-- The task creates the function: it executes its declaration, or it retrieves a method, as a
property of an instance or from a superclass. -/
inductive Creates : Task → Machine → Closure → Prop
  | declared {fuel decl machine} :
      Creates (.execute (fuel + 1) (.functionDecl decl)) machine ⟨decl, machine.env, false⟩
  | property {fuel object name machine method inst later} :
      Substep (.evaluate fuel (.get object name)) machine (.bindMethod method inst) later →
      Creates (.evaluate fuel (.get object name)) machine (method.boundIn later)
  | inherited {fuel id keyword name machine method inst later} :
      Substep (.evaluate fuel (.super id keyword name)) machine (.bindMethod method inst) later →
      Creates (.evaluate fuel (.super id keyword name)) machine (method.boundIn later)

namespace Creates

variable {task : Task} {machine : Machine} {closure other : Closure}

theorem unique (creates : Creates task machine closure) (creates' : Creates task machine other) :
    closure = other := by
  cases creates with
  | declared =>
      cases creates'
      rfl
  | property step =>
      cases creates' with
      | property step' =>
          cases step with
          | getMethod ended absent found =>
              cases step' with
              | getMethod ended' absent' found' => simp_all
  | inherited step =>
      cases creates' with
      | inherited step' =>
          cases step with
          | superMethod recorded parent receiver found =>
              cases step' with
              | superMethod recorded' parent' receiver' found' => simp_all

theorem cases_retrieved (creates : Creates task machine closure) :
    (∃ fuel decl, task = .execute (fuel + 1) (.functionDecl decl) ∧
        closure = ⟨decl, machine.env, false⟩) ∨
      ∃ fuel expr method inst later, task = .evaluate fuel expr ∧
        Substep task machine (.bindMethod method inst) later ∧ closure = method.boundIn later := by
  cases creates with
  | declared => exact .inl ⟨_, _, rfl, rfl⟩
  | property step => exact .inr ⟨_, _, _, _, _, rfl, step, rfl⟩
  | inherited step => exact .inr ⟨_, _, _, _, _, rfl, step, rfl⟩

end Creates

/-! Tidy code. -/

def Task.declares : Task → List DeclId
  | execute _ stmt => stmt.function?.toList
  | executeAll _ stmts | executeProgram _ stmts => Stmt.functions stmts
  | _ => []

structure Closure.Tidy (closure : Closure) : Prop where
  body : ∀ stmt ∈ closure.decl.body, (Node.stmt stmt).Tidy
  distinct : (Stmt.functions closure.decl.body).Nodup

theorem Node.Tidy.closure {decl : FunctionDecl} (tidy : (function decl).Tidy) (env : Env)
    (isInitializer : Bool) : Closure.Tidy ⟨decl, env, isInitializer⟩ :=
  ⟨fun _ member => Everywhere.part tidy (List.mem_map_of_mem member), tidy.here⟩

theorem Node.Tidy.method {name : Token} {superclass : Option Expr} {methods : List FunctionDecl}
    (tidy : (stmt (.classDecl name superclass methods)).Tidy) {decl : FunctionDecl}
    (listed : decl ∈ methods) (env : Env) (isInitializer : Bool) :
    Closure.Tidy ⟨decl, env, isInitializer⟩ := by
  have held : (Node.method decl).Tidy :=
    Everywhere.part tidy (List.mem_append_right _ (List.mem_map_of_mem listed))
  exact (tidy_method.mp held).closure env isInitializer

def tidiness : Realm where
  moments := fun _ _ => True
  scope := fun _ => True
  object := fun _ => True
  oldScopes := 0
  oldObjects := 0
  veil := .none
  declarable := fun _ => True
  later := fun _ _ => True
  code := fun _ _ node => node.Tidy
  function := fun _ closure => closure.Tidy
  method := fun _ closure => closure.Tidy
  begun := fun _ _ => trivial
  scope_new := fun _ _ => trivial
  object_new := fun _ _ => trivial
  scope_seen := fun ref _ => Veil.scopes_none ref
  object_seen := fun index _ => Veil.fields_none index
  later_refl := fun _ => trivial
  later_trans := fun _ _ => trivial
  later_enter := fun _ _ _ => trivial
  later_define := fun _ _ _ _ _ => trivial
  code_later := fun code _ => code
  function_later := fun function _ => function
  method_later := fun method _ => method
  code_scope := fun _ _ _ => trivial
  function_scope := fun _ _ _ => trivial
  code_part := fun code member => code.part (Node.mem_parts_of_mem_inPlace member)
  code_declares := fun _ _ _ => trivial
  code_assigns := fun _ => trivial
  code_block := fun _ _ code _ member => code.part (List.mem_map_of_mem member)
  code_body := fun _ _ function _ => function.body
  function_declared := fun _ code => Node.Tidy.closure (code.part List.mem_cons_self) _ _
  method_declared := fun _ code _ listed => code.method listed _ _
  method_inherited := fun _ _ code _ _ _ _ listed => code.method listed _ _
  function_bound := fun _ _ method => ⟨method.body, method.distinct⟩

/-- What is true of every moment of a run of tidy code. -/
structure Settled (task : Task) (machine : Machine) : Prop where
  admits : tidiness.Admits machine task
  within : tidiness.Within machine
  distinct : task.declares.Nodup
  opened : ∃ ref, machine.env.head? = some ref ∧ ref.index < machine.age

theorem Settled.head_ne {task : Task} {machine : Machine} (settled : Settled task machine)
    {ref : ScopeRef} (le : machine.age ≤ ref.index) : machine.env.head? ≠ some ref := by
  obtain ⟨present, first, lt⟩ := settled.opened
  rw [first]
  rintro ⟨⟩
  exact absurd lt (Nat.not_lt.mpr le)

section Steps

variable {task other : Task} {machine later : Machine}

theorem Substep.env_cases (step : Substep task machine other later) :
    later.env = machine.env ∨
      later.env.head? = some ⟨machine.age⟩ ∧ machine.age < later.age ∧
        ∀ one early, Substep task machine one early → (one, early) = (other, later) := by
  cases step with
  | functionBody | block =>
      refine .inr ⟨rfl, by simp, fun one early step => ?_⟩
      cases step
      rfl
  | call first second =>
      have kept := (evaluate_keeps _ _).of_ok first
      exact .inl (kept.trans ((evaluateAll_keeps _ _).of_ok second)).env
  | initializer created _ bound =>
      have kept := (Keeps.newInstance _).of_ok created
      exact .inl (kept.trans ((Task.bindMethod _ _).keeps.of_ok bound)).env
  | bindInitializer created => exact .inl ((Keeps.newInstance _).of_ok created).env
  | nextRound first _ second =>
      have kept := (evaluate_keeps _ _).of_ok first
      exact .inl (kept.trans ((execute_keeps _ _).of_ok second)).env
  | restStmts ended | restOfProgram ended => exact .inl ((execute_keeps _ _).of_ok ended).env
  | binaryRight ended | logicalRight ended | commaRight ended | thenBranch ended | elseBranch ended
  | arguments ended | getMethod ended | setValue ended | restOf ended | ifThen ended
  | ifElseThen ended | ifElseElse ended | declareSubclass ended | loopBody ended =>
      exact .inl ((evaluate_keeps _ _).of_ok ended).env
  | _ => exact .inl rfl

theorem Substep.declares_cases (settled : Settled task machine)
    (step : Substep task machine other later) {id : DeclId} (declared : id ∈ other.declares) :
    later.env.head? = some ⟨machine.age⟩ ∨ later.env = machine.env ∧ id ∈ task.declares := by
  have admitted := settled.admits
  cases step with
  | functionBody | block => exact .inl rfl
  | firstStmt | firstOfProgram =>
      refine .inr ⟨rfl, ?_⟩
      simp only [Task.declares, Stmt.functions_cons]
      exact List.mem_append_left _ declared
  | restStmts ended | restOfProgram ended =>
      refine .inr ⟨((execute_keeps _ _).of_ok ended).env, ?_⟩
      simp only [Task.declares, Stmt.functions_cons]
      exact List.mem_append_right _ declared
  | ifThen | loopBody =>
      have bare := Node.Tidy.here admitted
      simp only [Node.TidyHere] at bare
      simp [Task.declares, bare] at declared
  | ifElseThen | ifElseElse =>
      have bare := Node.Tidy.here admitted
      simp only [Node.TidyHere] at bare
      simp [Task.declares, bare] at declared
  | _ => simp [Task.declares] at declared

theorem Settled.substep (settled : Settled task machine) (step : Substep task machine other later) :
    Settled other later := by
  obtain ⟨admits, within⟩ :=
    Realm.admits_of_substep trivial settled.admits settled.within step
  refine ⟨admits, within, ?_, ?_⟩
  · have admitted := settled.admits
    have distinct := settled.distinct
    cases step with
    | functionBody => exact admitted.1.distinct
    | block => exact Node.Tidy.here admitted
    | restStmts | restOfProgram =>
        simp only [Task.declares, Stmt.functions_cons] at distinct
        exact distinct.of_append_right
    | firstStmt | firstOfProgram =>
        simp only [Task.declares, Stmt.functions_cons] at distinct
        exact distinct.of_append_left
    | ifThen | ifElseThen | ifElseElse | loopBody =>
        simp only [Task.declares]
        cases Stmt.function? _ <;> simp
    | _ => exact List.nodup_nil
  · rcases step.env_cases with same | ⟨fresh, older, -⟩
    · obtain ⟨ref, first, lt⟩ := settled.opened
      exact ⟨ref, same ▸ first, lt.trans_le step.age_le⟩
    · exact ⟨_, fresh, older⟩

theorem Settled.reaches (settled : Settled task machine)
    (reaches : Reaches task machine other later) : Settled other later := by
  induction reaches with
  | here => exact settled
  | begun _ step ih => exact ih.substep step

end Steps

/-- The scope of the function was opened while the task ran; or it is the one in which the task
runs, and the task declares the function there. -/
inductive Dated (task : Task) (machine : Machine) (closure : Closure) : Prop
  | inside {ref : ScopeRef} : closure.env.head? = some ref → machine.age ≤ ref.index →
      ref.index < (task.run.final machine).age → Dated task machine closure
  | here : closure.env.head? = machine.env.head? → closure.decl.id ∈ task.declares →
      Dated task machine closure

section Distinct

variable {task one other : Task} {machine early late : Machine} {closure closure' : Closure}

theorem Creates.dated (creates : Creates task machine closure) : Dated task machine closure := by
  obtain ⟨fuel, decl, rfl, rfl⟩ | ⟨_, _, method, inst, later, -, step, rfl⟩ :=
    creates.cases_retrieved
  · exact .here rfl List.mem_cons_self
  · have opened : later.age < ((Task.bindMethod method inst).run.final later).age :=
      Nat.lt_of_succ_le (Array.size_push _).ge
    exact .inside rfl step.age_le (opened.trans_le step.age_final_le)

theorem Substep.dated (settled : Settled task machine) (step : Substep task machine other late)
    (dated : Dated other late closure) : Dated task machine closure := by
  cases dated with
  | inside found le lt => exact .inside found (step.age_le.trans le) (lt.trans_le step.age_final_le)
  | here found declared =>
      rcases step.declares_cases settled declared with fresh | ⟨same, declared'⟩
      · rcases step.env_cases with same | ⟨-, older, -⟩
        · -- the present scope is not the next one
          exact absurd (same ▸ fresh) (settled.head_ne le_rfl)
        · exact .inside (found.trans fresh) le_rfl
            (older.trans_le ((other.age_le late).trans step.age_final_le))
      · exact .here (same ▸ found) declared'

theorem Reaches.dated (reaches : Reaches task machine other late) (settled : Settled task machine)
    (creates : Creates other late closure) : Dated task machine closure := by
  induction reaches using Reaches.head_induction with
  | here => exact creates.dated
  | begun step _ ih => exact step.dated settled (ih (settled.substep step))

theorem Closure.same_self (closure : Closure) : closure.same closure = true := by
  simp [same]

theorem Closure.same_comm (closure closure' : Closure) :
    closure.same closure' = closure'.same closure := by
  simp only [same, eq_comm]

theorem Closure.same_eq_false (differ : closure.env.head? ≠ closure'.env.head?) :
    closure.same closure' = false := by
  simp [same, differ]

theorem Settled.same_eq_false (settled : Settled one early) (before : one.EndsBy early late)
    (outside : ∀ ref ∈ late.env.head?, early.age ≤ ref.index →
      (one.run.final early).age ≤ ref.index)
    (disjoint : ∀ id ∈ one.declares, id ∉ other.declares) (dated : Dated one early closure)
    (dated' : Dated other late closure') : closure.same closure' = false := by
  have aged : early.age ≤ late.age := (one.age_le early).trans before
  cases dated with
  | inside found le lt =>
      refine Closure.same_eq_false ?_
      rw [found]
      intro same
      cases dated' with
      | inside found' le' _ =>
          cases same.trans found'
          exact absurd (lt.trans_le (before.trans le')) (lt_irrefl _)
      | here found' _ =>
          have later := outside _ (same.trans found').symm le
          exact absurd lt (Nat.not_lt.mpr later)
  | here found declared =>
      cases dated' with
      | inside found' le' _ =>
          refine Closure.same_eq_false ?_
          rw [found, found']
          exact settled.head_ne (aged.trans le')
      | here _ declared' =>
          have differ : closure.decl.id ≠ closure'.decl.id := fun same =>
            disjoint _ declared (same ▸ declared')
          simp [Closure.same, differ]

theorem Settled.outside (settled : Settled task machine) (first : Substep task machine one early)
    (second : Substep task machine other late) (before : one.EndsBy early late) :
    ∀ ref ∈ late.env.head?, early.age ≤ ref.index → (one.run.final early).age ≤ ref.index := by
  intro ref found le
  rcases second.env_cases with same | ⟨-, -, alone⟩
  · rw [same] at found
    exact absurd found (settled.head_ne (first.age_le.trans le))
  · -- a block is the only part of its statement
    cases alone one early first
    exact Nat.le_trans before le

theorem pairwise_following {α : Type} {relation : Task × Machine → Task × Machine → Prop}
    {first : Task × Machine} {result : EStateM.Result Abort Machine α}
    {next : Machine → Task × Machine}
    (holds : ∀ after, relation first (next after)) :
    (first :: following result fun _ after => [next after]).Pairwise relation := by
  cases result <;> simp [following, holds]

theorem Settled.disjoint_steps (settled : Settled task machine) :
    (task.steps machine).Pairwise fun first second =>
      ∀ id ∈ first.1.declares, id ∉ second.1.declares := by
  have bare (free : ∀ {other later}, Substep task machine other later → other.declares = []) :
      (task.steps machine).Pairwise fun first second =>
        ∀ id ∈ first.1.declares, id ∉ second.1.declares :=
    List.pairwise_of_forall_mem_list fun first member _ _ id declared => by
      simp [free (Task.mem_steps.mp member)] at declared
  have admitted := settled.admits
  have distinct := settled.distinct
  cases task with
  | executeAll fuel stmts =>
      refine List.Pairwise.filter _ ?_
      rcases fuel with _ | fuel
      · exact .nil
      · cases stmts with
        | nil => exact .nil
        | cons first rest =>
            refine pairwise_following fun _ id declared declared' => ?_
            simp only [Task.declares, Stmt.functions_cons] at distinct
            exact List.disjoint_of_nodup_append distinct declared declared'
  | executeProgram fuel stmts =>
      refine List.Pairwise.filter _ ?_
      cases stmts with
      | nil => exact .nil
      | cons first rest =>
          refine pairwise_following fun _ id declared declared' => ?_
          simp only [Task.declares, Stmt.functions_cons] at distinct
          exact List.disjoint_of_nodup_append distinct declared declared'
  | invokeFunction fuel closure arguments =>
      refine List.Pairwise.filter _ ?_
      rcases fuel with _ | fuel
      · exact .nil
      · exact List.pairwise_singleton _ _
  | execute fuel stmt =>
      rcases fuel with _ | fuel
      · exact .filter _ .nil
      · cases stmt with
        | block body => exact .filter _ (List.pairwise_singleton _ _)
        | ifThen | ifElse =>
            refine bare fun step => ?_
            have branches := Node.Tidy.here admitted
            simp only [Node.TidyHere] at branches
            cases step <;> simp [Task.declares, branches]
        | _ =>
            refine bare fun step => ?_
            cases step <;> rfl
  | repeatWhile fuel condition body =>
      refine bare fun step => ?_
      have branch : body.function? = none := Node.Tidy.here admitted
      cases step <;> simp [Task.declares, branch]
  | _ =>
      refine bare fun step => ?_
      cases step <;> rfl

def CreateApart (first second : Task × Machine) : Prop :=
  ∀ one other, Creates first.1 first.2 one → Creates second.1 second.2 other →
    one.same other = false

theorem Settled.apart_inner (settled : Settled task machine) (step : Substep task machine one early)
    (reaches : Reaches one early other late) : CreateApart (task, machine) (other, late) := by
  intro closure closure' creates creates'
  obtain ⟨fuel, decl, rfl, -⟩ | ⟨fuel, expr, method, inst, later, rfl, bound, rfl⟩ :=
    creates.cases_retrieved
  · cases step
  · have bare : one.declares = [] := by cases step <;> rfl
    have first : (method.boundIn later).env.head? = some ⟨later.age⟩ := rfl
    refine Closure.same_eq_false ?_
    rw [first]
    cases reaches.dated (settled.substep step) creates' with
    | here found declared => simp [bare] at declared
    | inside found le lt =>
        rw [found]
        rintro ⟨⟩
        rcases bound.ordered step with same | before | after
        · -- binding a method begins nothing and creates nothing by itself
          cases same
          rcases reaches.cases_head with same | ⟨next, present, begun, -⟩
          · cases same
            cases creates'
          · cases begun
        · have opened : later.age < ((Task.bindMethod method inst).run.final later).age :=
            Nat.lt_of_succ_le (Array.size_push _).ge
          exact absurd (opened.trans_le (Nat.le_trans before le)) (lt_irrefl _)
        · exact absurd (Nat.lt_of_lt_of_le lt after) (lt_irrefl _)

theorem Settled.apart_trace (settled : Settled task machine) :
    (task.trace machine).Pairwise CreateApart := by
  induction bound : task.bound using Nat.strong_induction_on generalizing task machine with
  | h bound ih =>
      rw [Task.trace_eq, List.pairwise_cons, List.pairwise_flatMap]
      refine ⟨?_, ?_, ?_⟩
      · intro moment member
        obtain ⟨next, begun, inner⟩ := List.mem_flatMap.mp member
        exact settled.apart_inner (Task.mem_steps.mp begun) (Task.mem_trace.mp inner)
      · intro next begun
        have step := Task.mem_steps.mp begun
        exact ih _ (bound ▸ Task.bound_lt step) (settled.substep step) rfl
      · have ordered : (task.steps machine).Pairwise fun first second =>
            first.1.EndsBy first.2 second.2 :=
          (task.chronological_begins machine).ordered.filter _
        refine (ordered.and settled.disjoint_steps).imp_of_mem ?_
        rintro first second begun begun' ⟨before, disjoint⟩ moment inner moment' inner'
        have step := Task.mem_steps.mp begun
        have step' := Task.mem_steps.mp begun'
        intro closure closure' creates creates'
        have dated := (Task.mem_trace.mp inner).dated (settled.substep step) creates
        have dated' := (Task.mem_trace.mp inner').dated (settled.substep step') creates'
        exact (settled.substep step).same_eq_false before (settled.outside step step' before)
          disjoint dated dated'

end Distinct

end Lox
