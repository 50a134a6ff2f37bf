import Mathlib
import Lox.Proofs.Run.Faults
import Lox.Proofs.Run.Territory
import Lox.Proofs.Session.Sourced

/-!
The places of errors. An error is raised at a token of the code that runs, and that is code of the
tree that was started or of a function that could be come to then. The calls that it passes through
on its way out leave its place as it is.
-/

namespace Lox

namespace Node

def tokens : Node → List Token
  | expr (.unary operator _) | expr (.binary _ operator _) | expr (.logical _ operator _)
  | expr (.comma _ operator _) => [operator]
  | expr (.var _ name) | expr (.assign _ name _) | expr (.get _ name) | expr (.set _ name _) => [name]
  | expr (.call _ paren _) => [paren]
  | expr (.this _ keyword) => [keyword]
  | expr (.super _ keyword selected) => [keyword, selected]
  | expr (.literal _) | expr (.grouping _) | expr (.conditional _ _ _) => []
  | stmt (.print keyword _) | stmt (.returnStmt keyword _) => [keyword]
  | stmt (.varDecl name _) | stmt (.classDecl name _ _) => [name]
  | stmt _ => []
  | function decl | method decl => decl.name :: decl.params

def Mentions (top : Node) (token : Token) : Prop :=
  ∃ node path, top.Contains [] node path ∧ token ∈ node.tokens

def Within (known : Token → Prop) (top : Node) : Prop :=
  top.Everywhere fun node => ∀ token ∈ node.tokens, known token

variable {known : Token → Prop} {top : Node}

theorem within_mentions (includes : ∀ token, top.Mentions token → known token) : top.Within known :=
  fun node path contained token member => includes token ⟨node, path, contained, member⟩

theorem Within.here (within : top.Within known) {token : Token} (member : token ∈ top.tokens) :
    known token := within top [] .here token member

theorem Within.part {child : Node} (within : top.Within known) (member : child ∈ top.parts) :
    child.Within known := Everywhere.part within member

end Node

namespace Machine

variable (machine : Machine)

def roots : List Item := [.env machine.env, .env machine.globals]

/-- The token occurs in the tree or in a function that the machine can come to. -/
def Knows (top : Node) (token : Token) : Prop :=
  top.Mentions token ∨
    ∃ closure, machine.Accessible machine.roots (.closure closure) ∧
      (Node.function closure.decl).Mentions token

end Machine

theorem Veil.none_hides {machine : Machine} {roots : List Item} : Veil.none.Hides machine roots where
  scopes := by simp [Veil.none]
  fields := by simp [Veil.none]

section Vocabulary

variable (machine : Machine) (known : Token → Prop)

structure Closure.Known (closure : Closure) (known : Token → Prop) (scope : ScopeRef → Prop) :
    Prop where
  held : closure.Held (Node.Within known) scope
  name : known closure.decl.name

def vocabulary : Realm :=
  { territory machine machine.roots (Node.Within known) Node.Within.part Veil.none_hides with
    function := fun _ closure => closure.Known known (machine.InReach machine.roots)
    method := fun _ closure => closure.Known known (machine.InReach machine.roots)
    function_later := fun function _ => function
    method_later := fun method _ => method
    function_scope := fun function => function.held.scopes
    code_body := fun _ old function _ stmt member =>
      ⟨function.held.body stmt member, List.forall_mem_cons.mpr ⟨.inl old, function.held.scopes⟩⟩
    function_declared := fun _ code =>
      have decl := code.1.part List.mem_cons_self
      ⟨⟨good_body Node.Within.part (.inl decl), code.2⟩, decl.here List.mem_cons_self⟩
    method_declared := fun _ code _ listed =>
      have decl := good_method Node.Within.part code.1 listed
      ⟨⟨good_body Node.Within.part (.inr decl), code.2⟩, decl.here List.mem_cons_self⟩
    method_inherited := fun _ old code _ _ _ _ listed =>
      have decl := good_method Node.Within.part code.1 listed
      ⟨⟨good_body Node.Within.part (.inr decl), List.forall_mem_cons.mpr ⟨.inl old, code.2⟩⟩,
        decl.here List.mem_cons_self⟩
    function_bound := fun _ old method =>
      ⟨⟨method.held.body, List.forall_mem_cons.mpr ⟨.inl old, method.held.scopes⟩⟩, method.name⟩ }

variable {machine known}

theorem within_vocabulary (functions : ∀ closure, machine.Accessible machine.roots
    (.closure closure) → (Node.function closure.decl).Within known) :
    (vocabulary machine known).Within machine := by
  have closures (closure : Closure) (accessible : machine.Accessible machine.roots
      (.closure closure)) : closure.Known known (machine.InReach machine.roots) := by
    have decl := functions closure accessible
    refine ⟨held_of_accessible ?_ accessible, decl.here List.mem_cons_self⟩
    exact fun other reached => good_body Node.Within.part (.inl (functions other reached))
  refine Realm.within_of_accessible ?_ rfl rfl rfl rfl fun closure accessible =>
    ⟨closures closure accessible, closures closure accessible⟩
  exact List.mem_cons_of_mem _ List.mem_cons_self

theorem runs_vocabulary {top : Node} (within : top.Within known) :
    (vocabulary machine known).Runs machine top :=
  ⟨within, fun ref used => .inr ((Machine.Accessible.root List.mem_cons_self).scopes ref used)⟩

end Vocabulary

inductive Task.Starts : Task → Node → Prop
  | evaluate {fuel expr} : Starts (.evaluate fuel expr) (.expr expr)
  | execute {fuel stmt} : Starts (.execute fuel stmt) (.stmt stmt)

namespace Task.Starts

variable {task : Task} {top : Node} {machine : Machine}

theorem own (starts : task.Starts top) : ¬ task.InvokesHost := by
  cases starts <;> exact id

theorem exists_call (starts : task.Starts top) {fuel : Nat} {function : Value} {paren : Token}
    {values : List Value} {later : Machine}
    (reached : Reaches task machine (.call fuel function paren values) later) :
    ∃ callee arguments present,
      Reaches task machine (.evaluate (fuel + 1) (.call callee paren arguments)) present ∧
        Substep (.evaluate (fuel + 1) (.call callee paren arguments)) present
          (.call fuel function paren values) later := by
  cases reached with
  | here => cases starts
  | begun before begun =>
      cases begun with
      | call ended ended' => exact ⟨_, _, _, before, .call ended ended'⟩

end Task.Starts

theorem known_of_raises {task other : Task} {top : Node} {machine later : Machine}
    {known : Token → Prop} {error : RuntimeError} (starts : task.Starts top)
    (admitted : ∀ {other later}, Reaches task machine other later →
      (vocabulary machine known).Admits later other)
    (reached : Reaches task machine other later) (raised : Raises other later error) :
    ∃ place, error.place = some place ∧ known place := by
  have called {fuel : Nat} {function : Value} {paren : Token} {values : List Value}
      {present : Machine} (reached : Reaches task machine (.call fuel function paren values) present) :
      known paren := by
    obtain ⟨callee, arguments, before, evaluated, -⟩ := starts.exists_call reached
    exact (admitted evaluated).1.here List.mem_cons_self
  cases raised with
  | unary | binary | unbound | unboundThis | unassignable | propertyOfNonInstance
  | undefinedProperty | fieldOfNonInstance | superOutside | print =>
      exact ⟨_, rfl, (admitted reached).1.here List.mem_cons_self⟩
  | undefinedMethod =>
      exact ⟨_, rfl, (admitted reached).1.here (List.mem_cons_of_mem _ List.mem_cons_self)⟩
  | notCallable | argumentCount | stackOverflow | native => exact ⟨_, rfl, called reached⟩
  | initializer => exact ⟨_, rfl, (admitted reached).1.name⟩
  | @superclass fuel name parent methods =>
      have whole : (Node.stmt (.classDecl name (some parent) methods)).Within known :=
        (admitted reached).1
      refine ⟨_, rfl, ?_⟩
      unfold Expr.superclassPlace
      split
      · exact (whole.part List.mem_cons_self).here List.mem_cons_self
      · exact whole.here List.mem_cons_self

theorem knows_of_fails {task : Task} {top : Node} {machine : Machine} {error : RuntimeError}
    (starts : task.Starts top) (failed : task.Fails machine error) :
    ∃ place, error.place = some place ∧ machine.Knows top place := by
  obtain ⟨other, later, reached, raised⟩ := Task.exists_raises failed starts.own
  have within : (vocabulary machine (machine.Knows top)).Within machine :=
    within_vocabulary fun closure accessible =>
      Node.within_mentions fun token mentioned => .inr ⟨closure, accessible, mentioned⟩
  have runs : (vocabulary machine (machine.Knows top)).Runs machine top :=
    runs_vocabulary (Node.within_mentions fun token mentioned => .inl mentioned)
  have admitted : (vocabulary machine (machine.Knows top)).Admits machine task := by
    cases starts <;> exact runs
  refine known_of_raises starts (fun reached => ?_) reached raised
  exact (Realm.admits_of_reaches trivial admitted within reached).2.1

/-- In a run of the task, the call expression whose parenthesis is `paren` invokes the callee. -/
def Task.Invokes (task : Task) (machine : Machine) (paren : Token) (fuel : Nat) (callee : Callable)
    (values : List Value) (invoked : Machine) : Prop :=
  ∃ expr arguments function present later,
    Reaches task machine (.evaluate (fuel + 2) (.call expr paren arguments)) present ∧
    Substep (.evaluate (fuel + 2) (.call expr paren arguments)) present
      (.call (fuel + 1) function paren values) later ∧
    Substep (.call (fuel + 1) function paren values) later (.invoke fuel callee values) invoked

namespace Task.Invokes

variable {task : Task} {top : Node} {machine invoked : Machine} {paren : Token} {fuel : Nat}
  {callee : Callable} {values : List Value}

theorem exists_of_reaches (starts : task.Starts top)
    (reached : Reaches task machine (.invoke fuel callee values) invoked) :
    ∃ paren, task.Invokes machine paren fuel callee values invoked := by
  cases reached with
  | here => cases starts
  | begun before begun =>
      cases begun with
      | invoke callable enough free =>
          obtain ⟨expr, arguments, present, evaluated, called⟩ := starts.exists_call before
          exact ⟨_, expr, arguments, _, present, _, evaluated, called,
            .invoke callable enough free⟩

theorem fails (invokes : task.Invokes machine paren fuel callee values invoked)
    {error : RuntimeError} (failed : (Task.invoke fuel callee values).Fails invoked error)
    (bare : error.place = none) : task.Fails machine ⟨error.fault, some paren⟩ := by
  obtain ⟨expr, arguments, function, present, later, evaluated, called, begun⟩ := invokes
  obtain ⟨fault, place⟩ := error
  subst bare
  have failed' : (Task.call (fuel + 1) function paren values).Fails later ⟨fault, some paren⟩ := by
    cases begun with
    | invoke callable enough free => exact Run.Fails.call callable enough free failed
  exact (evaluated.begun called).fails failed'

end Task.Invokes

/-- Errors are located. Whatever fails in the run of a tree fails at a token of the tree or of a
function that the machine can come to; if a function of the host fails, it is at the parenthesis of
the call expression that invoked it; and whatever it passes through, an error keeps its place. Only
the flush at the end of a program fails without a place, and only if the program itself does not. -/
theorem runtime_errors_are_located {task : Task} {top : Node} (machine : Machine)
    (starts : task.Starts top) :
    (∀ error, task.Fails machine error →
      ∃ place, error.place = some place ∧ machine.Knows top place) ∧
    (∀ fuel builtin values invoked error,
      Reaches task machine (.invoke fuel (.native builtin) values) invoked →
      (Task.invoke fuel (.native builtin) values).Fails invoked error →
      (∃ paren, task.Invokes machine paren fuel (.native builtin) values invoked) ∧
        ∀ paren, task.Invokes machine paren fuel (.native builtin) values invoked →
          task.Fails machine ⟨error.fault, some paren⟩) ∧
    (∀ other later fault place, Reaches task machine other later →
      other.Fails later ⟨fault, some place⟩ → task.Fails machine ⟨fault, some place⟩) ∧
    (∀ fuel stmts error after, interpret fuel stmts machine = .error (.error error) after →
      error.place = none →
        ∃ middle cause, executeProgram fuel stmts machine = .ok () middle ∧
          middle.host.sink.flush.1 = .error cause ∧ error = ⟨.outputFailed cause, none⟩) := by
  refine ⟨fun error failed => knows_of_fails starts failed, ?_,
    fun other later fault place reached failed => reached.fails failed, ?_⟩
  · intro fuel builtin values invoked error reached failed
    have bare : error.place = none := (Task.stops_of_native failed).2.native.2.1
    exact ⟨Task.Invokes.exists_of_reaches starts reached,
      fun paren invokes => invokes.fails failed bare⟩
  · intro fuel stmts error after ended bare
    rw [interpret_eq] at ended
    cases ran : executeProgram fuel stmts machine with
    | error abort middle =>
        -- an error of a statement has a place
        simp only [ran] at ended
        cases ended
        have failed : (Task.executeProgram fuel stmts).Fails machine error := ⟨middle, ran⟩
        obtain ⟨other, later, -, raised⟩ := Task.exists_raises failed id
        obtain ⟨place, placed⟩ := raised.placed
        rw [bare] at placed
        cases placed
    | ok value middle =>
        simp only [ran] at ended
        cases flushed : middle.host.sink.flush.1 with
        | ok done => simp [flushed] at ended
        | error cause =>
            simp only [flushed] at ended
            cases ended
            exact ⟨middle, cause, rfl, flushed, rfl⟩

/-- The host fails inside a function: not the call of the function is the place. -/
theorem runtime_errors_are_located_in_function :
    let f : Token := ⟨.identifier, "f", none, 1⟩
    let inner : Token := ⟨.rightParen, ")", none, 2⟩
    let outer : Token := ⟨.rightParen, ")", none, 3⟩
    let echo : Expr := .call (.var 0 ⟨.identifier, "echo", none, 2⟩) inner [.literal .nil]
    let stmt : Stmt := .block [.functionDecl ⟨0, f, [], [.expression echo]⟩,
      .expression (.call (.var 1 f) outer [])]
    let machine := (Machine.fresh 2 { sink := .limited (some 0) true }).record [(1, 0)]
    (Task.execute 16 stmt).Fails machine ⟨.outputFailed .sinkClosed, some inner⟩ ∧
      machine.Knows (.stmt stmt) inner := by
  intro f inner outer echo stmt machine
  have failed : (Task.execute 16 stmt).Fails machine ⟨.outputFailed .sinkClosed, some inner⟩ := by
    refine Run.fails_iff_error?.mpr ?_
    simp only [machine, stmt, echo, inner, outer, f]
    cbv
  obtain ⟨place, same, known⟩ := (runtime_errors_are_located machine .execute).1 _ failed
  cases same
  exact ⟨failed, known⟩

end Lox
