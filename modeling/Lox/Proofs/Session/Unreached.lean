import Mathlib
import Lox.Proofs.Run.Confined
import Lox.Proofs.Run.Faults
import Lox.Proofs.Run.Returns
import Lox.Proofs.Session.Chronicle
import Lox.Proofs.Session.Verdict
import Lox.Proofs.Written

/-!
What no program reaches. Some faults are there for trees that no source text has: an operator of a
kind that the grammar does not have at its place, or an initializer that is bound to no instance. And
the rules for returns are kept when the program runs: a statement of the program itself never
returns, and an initializer never returns a value of its own.
-/

namespace Lox

/-- The texts of the errors for which no program is to blame. -/
def internalTexts : List String :=
  [RuntimeFault.invalidUnaryOperator.message, RuntimeFault.invalidBinaryOperator.message,
    RuntimeFault.initializerWithoutInstance.message]

example : internalTexts = ["Invalid unary operator.", "Invalid binary operator.",
    "Initializer called without an instance."] := rfl

namespace RuntimeFault

def Ordinary : RuntimeFault → Prop
  | invalidUnaryOperator | invalidBinaryOperator | initializerWithoutInstance | worded _ => False
  | pathExpected function _ | oneArgumentExpected function => ∃ builtin : Native, function = builtin.name
  | _ => True

theorem OfHost.ordinary {fault : RuntimeFault} (ofHost : fault.OfHost) : fault.Ordinary := by
  cases ofHost with
  | path builtin | argument builtin => exact ⟨builtin, rfl⟩
  | _ => trivial

theorem head?_append {first rest : String} {letter : Char}
    (head : first.toList.head? = some letter) :
    (first ++ rest).toList.head? = some letter := by
  simp [head]

theorem exists_head_of_ordinary {fault : RuntimeFault} (ordinary : fault.Ordinary) :
    ∃ letter, fault.message.toList.head? = some letter ∧ letter ≠ 'I' := by
  have named (builtin : Native) :
      ∃ letter, builtin.name.toList.head? = some letter ∧ letter ≠ 'I' := by
    cases builtin <;> exact ⟨_, rfl, by decide⟩
  cases fault with
  | invalidUnaryOperator | invalidBinaryOperator | initializerWithoutInstance | worded =>
      exact ordinary.elim
  | operandNotNumber | operandsNotNumbers | operandsNotAddable | divisionByZero
  | propertyOfNonInstance | fieldOfNonInstance | notCallable | stackOverflow | superclassNotClass
  | superOutsideClass => exact ⟨_, rfl, by decide⟩
  | undefinedVariable | undefinedProperty =>
      exact ⟨'U', head?_append (head?_append rfl), by decide⟩
  | outputFailed | inputFailed => exact ⟨'C', head?_append rfl, by decide⟩
  | wrongArgumentCount =>
      exact ⟨'E', head?_append (head?_append (head?_append (head?_append rfl))), by decide⟩
  | fileNotRead | fileNotWritten =>
      exact ⟨'C', head?_append (head?_append (head?_append rfl)), by decide⟩
  | pathExpected =>
      obtain ⟨builtin, rfl⟩ := ordinary
      obtain ⟨letter, head, other⟩ := named builtin
      exact ⟨letter, head?_append (head?_append (head?_append head)), other⟩
  | oneArgumentExpected =>
      obtain ⟨builtin, rfl⟩ := ordinary
      obtain ⟨letter, head, other⟩ := named builtin
      exact ⟨letter, head?_append head, other⟩

theorem Ordinary.not_internal {fault : RuntimeFault} (ordinary : fault.Ordinary) :
    fault.message ∉ internalTexts := by
  intro member
  have heads : ∀ text ∈ internalTexts, text.toList.head? = some 'I' := by decide
  obtain ⟨letter, head, other⟩ := exists_head_of_ordinary ordinary
  rw [heads _ member, Option.some_inj] at head
  exact other head.symm

end RuntimeFault

namespace Operator

theorem ordinary_of_unary {operator : TokenKind} {operand : Value} {fault : RuntimeFault}
    (kind : operator ∈ [.bang, .minus]) (failed : unary operator operand = .error fault) :
    fault.Ordinary := by
  rcases List.mem_pair.mp kind with rfl | rfl
  · cases failed
  · cases operand <;> cases failed <;> trivial

theorem ordinary_of_onNumbers {left right : Value}
    {function : Number → Number → Except RuntimeFault Value} {fault : RuntimeFault}
    (fine : ∀ first second fault, function first second = .error fault → fault.Ordinary)
    (failed : onNumbers left right function = .error fault) : fault.Ordinary := by
  unfold onNumbers at failed
  split at failed
  · exact fine _ _ fault failed
  · cases failed
    trivial

theorem ordinary_of_binary {operator : TokenKind} {left right : Value} {fault : RuntimeFault}
    (kind : operator ∈ [.bangEqual, .equalEqual, .greater, .greaterEqual, .less, .lessEqual, .minus,
      .plus, .slash, .star])
    (failed : binary operator left right = .error fault) : fault.Ordinary := by
  have total {result : Number → Number → Value} (first second : Number) (fault : RuntimeFault)
      (failed : Except.ok (result first second) = .error fault) : fault.Ordinary := by
    cases failed
  unfold binary at failed
  split at failed
  case h_1 =>
    unfold add at failed
    split at failed <;> cases failed
    trivial
  case h_4 =>
    refine ordinary_of_onNumbers (fun first second fault divided => ?_) failed
    split at divided <;> cases divided
    trivial
  case h_2 | h_3 | h_5 | h_6 | h_7 | h_8 => exact ordinary_of_onNumbers total failed
  case h_9 | h_10 => cases failed
  case h_11 => simp_all

end Operator

structure Node.LegalHere (node : Node) : Prop where
  written : node.WrittenHere fun _ => True
  initializer : ∀ decl, node = .method decl → decl.name.lexeme = "init" → decl.ReturnsBare

def Node.Legal (node : Node) : Prop := node.Everywhere Node.LegalHere

theorem Node.WellScoped.legal {top : Node} (rules : top.WellScoped [])
    (written : top.Written fun _ => True) : top.Legal := by
  intro node path contained
  refine ⟨written node path contained, ?_⟩
  rintro decl rfl initializes
  exact rules.returnsBare contained initializes

structure Closure.Legal (closure : Closure) : Prop where
  body : ∀ stmt ∈ closure.decl.body, (Node.stmt stmt).Legal
  initializer : closure.isInitializer = true → closure.decl.ReturnsBare

/-- A function that may be called: if it is an initializer, it is bound to an instance. -/
structure Closure.Callable (store : Scopes) (closure : Closure) : Prop extends closure.Legal where
  receiver : closure.isInitializer = true → (store.getAt? closure.env 0 "this").isSome

theorem Node.Legal.method {name : Token} {superclass : Option Expr} {methods : List FunctionDecl}
    (legal : (stmt (.classDecl name superclass methods)).Legal) {decl : FunctionDecl}
    (listed : decl ∈ methods) (env : Env) :
    Closure.Legal ⟨decl, env, decl.name.lexeme = "init"⟩ := by
  have held : (Node.method decl).Legal :=
    legal.part (List.mem_append_right _ (List.mem_map_of_mem listed))
  refine ⟨fun body member => held.part (List.mem_map_of_mem member), fun initializes => ?_⟩
  exact (held _ [] .here).initializer decl rfl (of_decide_eq_true initializes)

namespace Scopes

theorem isSome_getAt?_of_grows {before after : Scopes} (grows : Grows before after) {env : Env}
    {depth : Nat} {name : String} (bound : (before.getAt? env depth name).isSome) :
    (after.getAt? env depth name).isSome := by
  unfold getAt? at bound ⊢
  split at bound
  · cases bound
  · exact grows.binds _ name bound

theorem isSome_this_enter (store : Scopes) (outer : Env) (inst : Instance) :
    ((store.enter outer (({} : Bindings).insert "this" (.object inst))).2.getAt?
      (⟨store.tables.size⟩ :: outer) 0 "this").isSome := by
  simp [getAt?, lookUp?_enter]

end Scopes

def legality : Realm where
  moments := fun _ _ => True
  scope := fun _ => True
  object := fun _ => True
  oldScopes := 0
  oldObjects := 0
  veil := .none
  declarable := fun _ => True
  later := Grows
  code := fun _ _ node => node.Legal
  function := Closure.Callable
  method := fun _ closure => closure.Legal
  begun := fun _ _ => trivial
  scope_new := fun _ _ => trivial
  object_new := fun _ _ => trivial
  scope_seen := fun ref _ => Veil.scopes_none ref
  object_seen := fun index _ => Veil.fields_none index
  later_refl := .refl
  later_trans := .trans
  later_enter := Scopes.grows_enter
  later_define := fun store env name value _ => store.grows_define env name value
  code_later := fun code _ => code
  function_later := fun function grows =>
    ⟨function.toLegal, fun initializes =>
      Scopes.isSome_getAt?_of_grows grows (function.receiver initializes)⟩
  method_later := fun method _ => method
  code_scope := fun _ _ _ => trivial
  function_scope := fun _ _ _ => trivial
  code_part := fun code member => code.part (Node.mem_parts_of_mem_inPlace member)
  code_declares := fun _ _ _ => trivial
  code_assigns := fun _ => trivial
  code_block := fun _ _ code _ member => code.part (List.mem_map_of_mem member)
  code_body := fun _ _ function _ => function.body
  function_declared := fun _ code =>
    ⟨⟨fun _ member => (code.part List.mem_cons_self).part (List.mem_map_of_mem member),
        fun wrong => absurd wrong Bool.false_ne_true⟩,
      fun wrong => absurd wrong Bool.false_ne_true⟩
  method_declared := fun _ code _ listed => code.method listed _
  method_inherited := fun _ _ code _ _ _ _ listed => code.method listed _
  function_bound := fun _ _ method =>
    ⟨⟨method.body, method.initializer⟩, fun _ => Scopes.isSome_this_enter _ _ _⟩

theorem Raises.ordinary {task : Task} {machine : Machine} {error : RuntimeError}
    (raised : Raises task machine error) (admitted : legality.Admits machine task) :
    error.fault.Ordinary := by
  cases raised with
  | unary _ failed =>
      have written := (admitted _ [] .here).written _ List.mem_cons_self
      exact Operator.ordinary_of_unary written.2 failed
  | binary _ _ failed =>
      have written := (admitted _ [] .here).written _ List.mem_cons_self
      exact Operator.ordinary_of_binary written.2 failed
  | native _ _ _ stops => exact stops.native.1.ordinary
  | @initializer fuel closure _ _ _ after ran initializes missing =>
      -- the instance that the initializer is bound to is still there when its body has ended
      have body := ((Task.executeAll _ _).admits_of_ok ran).2.grows
      have grown : Grows machine.scopes after.scopes :=
        (Scopes.grows_enter _ closure.env _).trans body
      have bound := Scopes.isSome_getAt?_of_grows grown (admitted.1.receiver initializes)
      rw [missing] at bound
      cases bound
  | _ => trivial

namespace Session

variable {session after : Session} {launch : Launch} {fuel : Nat} {source : String}

theorem Starts.admits (starts : session.Starts launch) :
    legality.Admits launch.session.machine launch.task := by
  obtain ⟨fuel, source, launched | launched⟩ := starts
  · obtain ⟨stmts, parsed, read, clean, resolved, rfl⟩ := launchProgram?_eq_some launched
    obtain ⟨rfl, rfl⟩ := Prod.mk.inj read
    have written : ∀ stmt ∈ (session.parse source).1, (Node.stmt stmt).Written fun _ => True :=
      Parse.program_written (fun _ _ => trivial) _
    have rules := (Stmt.errors_resolveAll_iff _ [] [] (iff_of_true rfl rfl)).mp
      (errors_of_resolve resolved)
    exact fun stmt member => (rules.2 stmt member).legal (written stmt member)
  · obtain ⟨expr, parsed, read, resolved, rfl⟩ := launchExpr?_eq_some launched
    obtain rfl : (session.parseExpression source).2 = parsed := congrArg Prod.snd read
    have written : (Node.expr expr).Written fun _ => True :=
      Parse.expression_written (fun _ _ => trivial) _ expr (congrArg Prod.fst read)
    have rules := (Expr.errors_resolve_iff expr [] []).mp (errors_of_resolve resolved)
    exact rules.legal written

end Session

namespace History

variable {history : History} {session : Session} {launch : Launch}

theorem Driven.within_legality (driven : history.Driven session) :
    legality.Within session.machine := by
  refine driven.machine_induction (motive := fun _ machine => legality.Within machine) ?_ ?_ ?_
  · exact fun limit host => Realm.within_fresh limit host (fun _ _ => trivial) rfl rfl
  · exact fun pairs within => within.congr rfl rfl rfl
  · intro history session launch host driven starts within
    have leads := legality.confines launch.task _ trivial starts.admits within
    exact leads.extends_final.within.congr rfl rfl rfl

theorem Driven.admits_of_reaches (driven : history.Driven session) (starts : session.Starts launch)
    {task : Task} {machine : Machine}
    (reached : Reaches launch.task launch.session.machine task machine) :
    legality.Admits machine task := by
  obtain ⟨pairs, recorded⟩ := starts.checks.machine
  have within : legality.Within launch.session.machine := by
    rw [recorded]
    exact driven.within_legality.congr rfl rfl rfl
  exact (Realm.admits_of_reaches trivial starts.admits within reached).2.1

end History

def Launch.Fails (launch : Launch) (error : RuntimeError) : Prop :=
  launch.task.Fails launch.session.machine error ∨ ∃ cause, error = ⟨.outputFailed cause, none⟩

theorem fails_interpret {fuel : Nat} {stmts : List Stmt} {machine : Machine} {error : RuntimeError}
    (failed : (interpret fuel stmts).Fails machine error) :
    (executeProgram fuel stmts).Fails machine error ∨
      ∃ cause, error = ⟨.outputFailed cause, none⟩ := by
  obtain ⟨after, ended⟩ := failed
  rw [interpret_eq] at ended
  cases ran : executeProgram fuel stmts machine with
  | error abort middle =>
      simp only [ran] at ended
      cases ended
      exact .inl ⟨middle, ran⟩
  | ok value middle =>
      simp only [ran] at ended
      split at ended <;> cases ended
      exact .inr ⟨_, rfl⟩

namespace History

variable {history : History} {session : Session} {launch : Launch} {error : RuntimeError}

theorem Driven.ordinary (driven : history.Driven session) (starts : session.Starts launch)
    (failed : launch.Fails error) : error.fault.Ordinary := by
  rcases failed with failed | ⟨cause, rfl⟩
  · have own : ¬ launch.task.InvokesHost := by
      obtain ⟨fuel, source, launched | launched⟩ := starts
      · obtain ⟨stmts, parsed, -, -, -, rfl⟩ := Session.launchProgram?_eq_some launched
        exact id
      · obtain ⟨expr, parsed, -, -, rfl⟩ := Session.launchExpr?_eq_some launched
        exact id
    obtain ⟨task, machine, reached, raised⟩ := Task.exists_raises failed own
    exact raised.ordinary (driven.admits_of_reaches starts reached)
  · trivial

theorem mem_of_performReporting {α : Type} {step : Run α} {result : Option α}
    {before after : Session} (performed : before.performReporting step = some (result, after))
    (member : .runtime error ∈ after.diagnostics.errors) :
    .runtime error ∈ before.diagnostics.errors ∨ step.Fails before.machine error := by
  obtain ⟨value, machine, -, -, rfl⟩ | ⟨found, machine, failed, -, rfl⟩ :=
    Session.performReporting_cases performed
  · exact .inl member
  · simp only [Session.report, Diagnostics.errors_report, List.mem_append, List.mem_singleton] at member
    rcases member with earlier | same
    · exact .inl earlier
    · cases same
      exact .inr ⟨machine, failed⟩

/-- Every runtime error of a session is one that an input of the session failed with. -/
theorem Driven.exists_launch (driven : history.Driven session)
    (member : .runtime error ∈ session.diagnostics.errors) :
    ∃ history' session' launch, Driven history' session' ∧ session'.Starts launch ∧
      launch.Fails error := by
  induction driven with
  | new | clear => cases member
  | reset _ ih => exact ih member
  | @run history session after fuel source before ran ih =>
      cases launched : session.launchProgram? fuel source with
      | none => exact ih ((Session.checks_of_run ran launched).errors error member)
      | some input =>
          have starts : session.Starts input := ⟨fuel, source, .inl launched⟩
          obtain ⟨stmts, task, equation⟩ := Session.run_of_launch launched
          rw [equation, Option.map_eq_some_iff] at ran
          obtain ⟨⟨result, last⟩, done, rfl⟩ := ran
          rcases mem_of_performReporting done member with earlier | failed
          · exact ih (starts.checks.errors error earlier)
          · refine ⟨history, session, input, before, starts, ?_⟩
            unfold Launch.Fails
            rw [task]
            exact fails_interpret failed
  | @evaluate history session after value fuel source before evaluated ih =>
      cases launched : session.launchExpr? fuel source with
      | none => exact ih ((Session.checks_of_evaluate evaluated launched).errors error member)
      | some input =>
          have starts : session.Starts input := ⟨fuel, source, .inr launched⟩
          obtain ⟨expr, task, equation⟩ := Session.evaluate_of_launch launched
          rw [equation] at evaluated
          rcases mem_of_performReporting evaluated member with earlier | failed
          · exact ih (starts.checks.errors error earlier)
          · refine ⟨history, session, input, before, starts, .inl ?_⟩
            rw [task]
            exact failed

end History

theorem exists_of_reaches_executeProgram {task : Task} {fuel : Nat} {rest : List Stmt}
    {machine later : Machine} (reached : Reaches task machine (.executeProgram fuel rest) later) :
    ∃ stmts, task = .executeProgram fuel stmts ∧ rest ⊆ stmts := by
  generalize same : Task.executeProgram fuel rest = other at reached
  induction reached generalizing rest with
  | here => exact ⟨rest, same.symm, List.Subset.refl _⟩
  | begun _ begun ih =>
      subst same
      cases begun with
      | @restOfProgram _ first =>
          obtain ⟨stmts, same, whole⟩ := ih rfl
          exact ⟨stmts, same, fun stmt member => whole (List.mem_cons_of_mem first member)⟩

theorem Session.Starts.normal {session : Session} {launch : Launch} (starts : session.Starts launch)
    {fuel : Nat} {stmt : Stmt} {rest : List Stmt} {machine after : Machine} {flow : Flow}
    (reached : Reaches launch.task launch.session.machine (.executeProgram fuel (stmt :: rest))
      machine)
    (ended : execute fuel stmt machine = .ok flow after) : flow = .normal := by
  obtain ⟨stmts, same, whole⟩ := exists_of_reaches_executeProgram reached
  obtain ⟨limit, source, launched | launched⟩ := starts
  · obtain ⟨found, parsed, -, -, resolved, rfl⟩ := Session.launchProgram?_eq_some launched
    cases same
    have rules := (Stmt.errors_resolveAll_iff _ [] [] (iff_of_true rfl rfl)).mp
      (Session.errors_of_resolve resolved)
    cases flow with
    | normal => rfl
    | returned value =>
        obtain ⟨expr, returns, -⟩ := (Run.givesYield _).execute stmt _ _ _ ended
        exact absurd returns (rules.2 stmt (whole List.mem_cons_self)).not_returns
  · obtain ⟨expr, parsed, -, -, rfl⟩ := Session.launchExpr?_eq_some launched
    cases same

/-- Whatever the inputs of a session are, no error of the session has one of the internal texts, no
statement of a program returns, and no initializer returns anything but `nil`. -/
theorem internal_errors_are_unreachable {history : History} {session : Session}
    (driven : history.Driven session) :
    (∀ error, .runtime error ∈ session.diagnostics.errors →
      error.fault.message ∉ internalTexts) ∧
    ∀ launch, session.Starts launch →
      (∀ fuel stmt rest machine flow after,
        Reaches launch.task launch.session.machine (.executeProgram fuel (stmt :: rest)) machine →
        execute fuel stmt machine = .ok flow after → flow = .normal) ∧
      ∀ fuel closure arguments machine value after,
        Reaches launch.task launch.session.machine (.invokeFunction (fuel + 1) closure arguments)
          machine →
        closure.isInitializer = true →
        executeAll fuel closure.decl.body
            (machine.entering closure.env
              (Run.parameterBindings closure.decl.params arguments)) =
          .ok (.returned value) after →
        value = .nil := by
  refine ⟨fun error member => ?_, fun launch starts => ⟨?_, ?_⟩⟩
  · obtain ⟨history', session', launch, driven', starts, failed⟩ := driven.exists_launch member
    exact (driven'.ordinary starts failed).not_internal
  · intro fuel stmt rest machine flow after reached ended
    exact starts.normal reached ended
  · intro fuel closure arguments machine value after reached initializes ended
    have callable := (driven.admits_of_reaches starts reached).1
    exact (callable.initializer initializes).eq_nil ended

/-- An initializer that returns, and an operator that fails. -/
theorem internal_errors_are_unreachable_in_initializer :
    ∃ session, (Session.new {} 4).run 24 "class A { init() { return; } } A(); -A;" = some session ∧
      session.diagnostics.errors.length = 1 ∧
      ∀ error, .runtime error ∈ session.diagnostics.errors →
        error.fault.message ∉ internalTexts := by
  have counted : ((Session.new {} 4).run 24 "class A { init() { return; } } A(); -A;").map
      (fun session => session.diagnostics.errors.length) = some 1 := by cbv
  obtain ⟨session, ran, one⟩ := Option.map_eq_some_iff.mp counted
  exact ⟨session, ran, one, (internal_errors_are_unreachable (.run 24 _ (.new {} 4) ran)).1⟩

end Lox
