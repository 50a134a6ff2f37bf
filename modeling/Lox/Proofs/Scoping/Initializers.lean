import Mathlib
import Lox.Proofs.Scoping.Agreement
import Lox.Proofs.Scoping.Binding

/-!
Assignments to local variables. The resolver refuses to read a variable in its own initial value, but it
lets it be assigned there, before the variable has been bound. This is the only way in which an
assignment that was resolved to a local variable can fail: anywhere else the scope at the recorded
depth binds the name, and there it never does.
-/

namespace Lox

/-- A part of the initial value of the variable is evaluated, in the scope that will hold it. -/
inductive Initializing (start : Task) (first : Machine) (name : Token) : Task → Machine → Prop
  | begun {fuel : Nat} {value : Expr} {machine : Machine} :
      Reaches start first (.execute (fuel + 1) (.varDecl name (some value))) machine →
      Initializing start first name (.evaluateOr fuel (some value)) machine
  | part {task other : Task} {machine later : Machine} :
      Initializing start first name task machine → Substep task machine other later →
      other.exprs?.isSome → Initializing start first name other later

theorem Initializing.isSome_exprs? {start task : Task} {first machine : Machine} {name : Token}
    (initializing : Initializing start first name task machine) : task.exprs?.isSome := by
  cases initializing with
  | begun => rfl
  | part _ _ isExpr => exact isExpr

namespace World

variable {world : World} {start : Task} {first machine later : Machine}

section Lower

/-! Which names are bound at least: all that are declared, except a variable that is being
initialized. -/

def Settled (world : World) (start : Task) (first : Machine) (task : Task) (machine : Machine)
    (expr : Expr) : Prop :=
  ∃ (site : Site) (enclosingClass : ClassContext) (pending : Option String),
    world.Stands machine.scopes machine.env site.regions (boundScopes pending site.scopes) ∧
    world.AdmitsExpr site enclosingClass pending expr ∧
    (site.scopes ≠ [] → ∀ used, pending = some used →
      (∃ name : Token, name.lexeme = used ∧ Initializing start first name task machine) ∨
        ∃ id name, expr = .var id name)

theorem ReadyExpr.settled {task : Task} {expr : Expr} (ready : world.ReadyExpr machine expr)
    (top : machine.env = world.globals) : world.Settled start first task machine expr := by
  obtain ⟨site, enclosingClass, pending, stands, -, admitted⟩ := ready
  refine ⟨site, enclosingClass, pending, stands, admitted, fun inner => ?_⟩
  obtain ⟨refs, env, length, -⟩ := stands.chain
  rw [top, List.self_eq_append_left] at env
  rw [length_boundScopes, env, List.length_nil, eq_comm, List.length_eq_zero_iff] at length
  exact absurd length inner

theorem ReadyStmt.settled {task : Task} {stmt : Stmt} {part : Expr}
    (ready : world.ReadyStmt machine stmt) (member : part ∈ stmt.parts) :
    world.Settled start first task machine part := by
  obtain ⟨site, stands, admitted⟩ := ready
  refine ⟨site, _, none, ?_, admitted.part member, by simp⟩
  rw [boundScopes_none]
  exact stands

theorem Settled.begun {task other : Task} {exprs parts : List Expr}
    (settled : ∀ expr ∈ exprs, world.Settled start first task machine expr)
    (step : Substep task machine other later) (here : task.exprs? = some exprs)
    (there : other.exprs? = some parts) :
    ∀ part ∈ parts, world.Settled start first other later part := by
  obtain ⟨origin, env, admits⟩ := step.begins_parts here there
  have initializing {name : Token} (initializing : Initializing start first name task machine) :
      Initializing start first name other later := initializing.part step (by simp [there])
  intro part member
  rcases origin part member with member | ⟨expr, member, inside⟩
  · obtain ⟨site, enclosingClass, pending, stands, admitted, waiting⟩ := settled part member
    refine ⟨site, enclosingClass, pending, ?_, admitted, fun inner used same => ?_⟩
    · rw [env]
      exact stands.grow admits.grows
    · rcases waiting inner used same with ⟨name, lexeme, begun⟩ | known
      · exact .inl ⟨name, lexeme, initializing begun⟩
      · exact .inr known
  · obtain ⟨site, enclosingClass, pending, stands, admitted, waiting⟩ := settled expr member
    refine ⟨site, enclosingClass, pending, ?_, admitted.part inside, fun inner used same => ?_⟩
    · rw [env]
      exact stands.grow admits.grows
    · rcases waiting inner used same with ⟨name, lexeme, begun⟩ | ⟨id, name, rfl⟩
      · exact .inl ⟨name, lexeme, initializing begun⟩
      · simp [Expr.parts] at inside

theorem settled_of_statement {task other : Task} {parts : List Expr}
    (reaches : Reaches start first task machine) (ready : world.Ready machine task)
    (step : Substep task machine other later) (here : task.exprs? = none)
    (there : other.exprs? = some parts) :
    ∀ part ∈ parts, world.Settled start first other later part := by
  cases step with
  | expression | printed | ifCondition | ifElseCondition | loopCondition =>
      cases there
      intro part member
      exact ReadyStmt.settled ready (by simpa [Stmt.parts] using member)
  | returned =>
      cases there
      exact fun part member => ReadyStmt.settled ready member
  | @initialValue _ name value =>
      cases there
      intro part member
      obtain rfl : value = some part := by simpa using member
      obtain ⟨site, stands, admitted⟩ := ready
      refine ⟨site.declare name, _, _, stands.pending name, admitted.initializer, ?_⟩
      intro _ used pending
      exact .inl ⟨name, (Resolution.eq_of_pendingName pending).symm, .begun reaches⟩
  | @superclass _ name parent =>
      cases there
      intro part member
      obtain rfl : part = parent := by simpa using member
      obtain ⟨site, stands, admitted⟩ := ready
      refine ⟨site.declare name, _, _, stands.pending name, admitted.superclass, ?_⟩
      intro _ _ _
      exact .inr (admitted.formed.2.1 part rfl)
  | _ => simp [Task.exprs?] at here there

theorem settled_of_reaches {task : Task} {exprs : List Expr}
    (moment : world.moments start first) (ready : world.Ready first start)
    (holds : world.Holds first) (top : first.env = world.globals)
    (reaches : Reaches start first task machine) (evaluates : task.exprs? = some exprs) :
    ∀ expr ∈ exprs, world.Settled start first task machine expr := by
  induction reaches generalizing exprs with
  | here =>
      intro expr member
      refine ReadyExpr.settled ?_ top
      cases start with
      | evaluate fuel whole =>
          cases evaluates
          obtain rfl : expr = whole := by simpa using member
          exact ready
      | evaluateAll fuel all =>
          cases evaluates
          exact ready expr member
      | evaluateOr fuel value =>
          cases evaluates
          exact ready expr (by simpa using member)
      | _ => cases evaluates
  | @begun middle other present last reaches step ih =>
      cases here : middle.exprs? with
      | some earlier => exact Settled.begun (ih here) step here evaluates
      | none =>
          obtain ⟨-, ready', -⟩ := ready_of_reaches moment ready holds reaches
          exact settled_of_statement reaches ready' step here evaluates

end Lower

section Upper

/-! Which names are bound at most: in a local scope only those that are declared. -/

/-- The innermost scope binds no name that is not declared in it. -/
def Tight (machine : Machine) (scopes : List Scope) : Prop :=
  ∀ ref ∈ machine.env.head?, ∀ names ∈ scopes.head?, ∀ name,
    (machine.scopes.lookUp? ref name).isSome → name ∈ names

def Snug (world : World) (machine : Machine) : Task → Prop
  | .execute _ stmt => ∃ site : Site,
      world.Stands machine.scopes machine.env site.regions site.scopes ∧
        world.AdmitsStmt site stmt ∧ Tight machine site.scopes
  | .executeAll _ stmts => ∃ site : Site,
      world.Stands machine.scopes machine.env site.regions site.scopes ∧
        world.AdmitsAll site stmts ∧ Tight machine site.scopes
  | .repeatWhile _ condition body => ∃ site : Site,
      world.Stands machine.scopes machine.env site.regions site.scopes ∧
        world.AdmitsStmt site (.whileLoop condition body) ∧ Tight machine site.scopes
  | _ => True

theorem Stands.inStore {store : Scopes} {env : Env} {regions : List Region} {scopes : List Scope}
    {names : Scope} {ref : ScopeRef} (stands : world.Stands store env regions scopes)
    (declares : names ∈ scopes.head?) (innermost : ref ∈ env.head?) :
    ref.index < store.tables.size := by
  cases stands with
  | globals => cases declares
  | inner _ inStore =>
      cases innermost
      exact inStore

theorem Tight.widen {introduced : String → Prop} {regions : List Region}
    {scopes wider : List Scope} (tight : Tight machine scopes)
    (stands : world.Stands machine.scopes machine.env regions scopes)
    (env : later.env = machine.env)
    (admits : Scopes.Admits machine.env introduced machine.scopes later.scopes)
    (declared : ∀ names ∈ wider.head?, ∃ narrower ∈ scopes.head?,
      ∀ name, name ∈ narrower ∨ introduced name → name ∈ names) : Tight later wider := by
  intro ref innermost names declares name bound
  rw [env] at innermost
  obtain ⟨narrower, declares', contained⟩ := declared names declares
  apply contained
  by_cases before : (machine.scopes.lookUp? ref name).isSome
  · exact .inl (tight ref innermost narrower declares' name before)
  · right
    by_contra fresh
    have unbound := admits.unbound ref name (stands.inStore declares' innermost)
      (by simpa using before) fun _ => fresh
    simp [unbound] at bound

theorem Tight.evaluated {regions : List Region} {scopes : List Scope}
    (tight : Tight machine scopes)
    (stands : world.Stands machine.scopes machine.env regions scopes)
    (env : later.env = machine.env)
    (admits : Scopes.Admits machine.env (fun _ => False) machine.scopes later.scopes) :
    Tight later scopes :=
  tight.widen stands env admits fun names declares => ⟨names, declares, by simp⟩

theorem Snug.branch {fuel left : Nat} {condition : Expr} {stmt branch : Stmt} {value : Value}
    (snug : world.Snug machine (.execute fuel stmt))
    (ended : evaluate left condition machine = .ok value later) (member : branch ∈ stmt.branches) :
    world.Snug later (.execute left branch) := by
  obtain ⟨site, stands, admitted, tight⟩ := snug
  obtain ⟨env, admits⟩ := (Task.evaluate _ _).admits_of_ok ended
  refine ⟨site, ?_, (admitted.branch member).1, tight.evaluated stands env admits⟩
  rw [env]
  exact stands.grow admits.grows

theorem mem_declare {scopes : List Scope} {name : Token} {names : Scope}
    (declares : names ∈ (Resolution.declare scopes name).2.head?) :
    ∃ narrower ∈ scopes.head?, ∀ used, used ∈ narrower ∨ name.lexeme = used → used ∈ names := by
  cases scopes with
  | nil => cases declares
  | cons narrower outer =>
      refine ⟨narrower, rfl, fun used origin => ?_⟩
      simp only [Resolution.declare] at declares
      split at declares
      · rename_i known
        cases declares
        rcases origin with member | rfl
        · exact member
        · simpa using known
      · cases declares
        rcases origin with member | rfl
        · exact List.mem_cons_of_mem _ member
        · exact List.mem_cons_self

theorem Snug.rest {fuel : Nat} {stmt : Stmt} {rest : List Stmt}
    (snug : world.Snug machine (.executeAll (fuel + 1) (stmt :: rest)))
    (moment : world.moments (.executeAll (fuel + 1) (stmt :: rest)) machine)
    (holds : world.Holds machine) (ended : execute fuel stmt machine = .ok .normal later) :
    world.Snug later (.executeAll fuel rest) := by
  obtain ⟨site, stands, admitted, tight⟩ := snug
  have ready : world.Ready machine (.execute fuel stmt) := ⟨site, stands, admitted.first⟩
  obtain ⟨-, -, bound⟩ := (ends (world.begun moment .firstStmt) ready holds).of_ok ended
  obtain ⟨env, admits⟩ := (Task.execute _ _).admits_of_ok ended
  have scopes := stmt.resolve_scopes site.around site.scopes admitted.first.formed
  have grown : world.Stands later.scopes later.env site.regions site.scopes := by
    rw [env]
    exact stands.grow admits.grows
  refine ⟨site.after stmt, ?_, admitted.rest, ?_⟩
  · simp only [Site.after, scopes]
    cases declared : stmt.declared? with
    | none => exact grown
    | some name => exact grown.declare (env ▸ bound name declared)
  · refine tight.widen stands env admits fun names declares => ?_
    simp only [Site.after, scopes] at declares
    cases declared : stmt.declared? with
    | none =>
        rw [declared] at declares
        refine ⟨names, declares, fun used origin => origin.resolve_right fun introduced => ?_⟩
        obtain ⟨name, listed, -⟩ := introduced.declared stmt admitted.first.formed
        rw [declared] at listed
        cases listed
    | some name =>
        rw [declared] at declares
        obtain ⟨narrower, declares', contained⟩ := mem_declare declares
        refine ⟨narrower, declares', fun used origin => contained used (origin.imp_right ?_)⟩
        intro introduced
        obtain ⟨found, listed, lexeme⟩ := introduced.declared stmt admitted.first.formed
        rw [declared] at listed
        cases listed
        exact lexeme

theorem Snug.nextRound {fuel : Nat} {condition : Expr} {body : Stmt} {value : Value}
    {middle : Machine} (snug : world.Snug machine (.repeatWhile (fuel + 1) condition body))
    (tested : evaluate fuel condition machine = .ok value middle)
    (ended : execute fuel body middle = .ok .normal later) :
    world.Snug later (.repeatWhile fuel condition body) := by
  obtain ⟨site, stands, admitted, tight⟩ := snug
  obtain ⟨env, admits⟩ := (Task.evaluate _ _).admits_of_ok tested
  obtain ⟨env', admits'⟩ := (Task.execute _ _).admits_of_ok ended
  have silent (name : String) : ¬ body.Introduces name := by
    intro introduced
    obtain ⟨found, listed, -⟩ := introduced.declared body admitted.formed.2
    rw [admitted.formed.1] at listed
    cases listed
  have grown : world.Stands middle.scopes middle.env site.regions site.scopes := by
    rw [env]
    exact stands.grow admits.grows
  refine ⟨site, ?_, admitted, ?_⟩
  · rw [env']
    exact grown.grow admits'.grows
  · exact (tight.evaluated stands env admits).evaluated grown env'
      (admits'.mono fun name introduced => silent name introduced)

theorem exists_param_of_isSome {params : List Token} {arguments : List Value} {name : String}
    (bound : ((Run.parameterBindings params arguments)[name]?).isSome) :
    ∃ param ∈ params, param.lexeme = name := by
  rcases isSome_foldl_insert.mp bound with absent | ⟨pair, member, same⟩
  · simp at absent
  · exact ⟨pair.1, (List.of_mem_zip member).1, same⟩

theorem mem_declareAll {names : Scope} {outer : List Scope} {params : List Token} {scope : Scope}
    (declares : scope ∈ (Resolution.declareAll (names :: outer) params).2.head?) :
    ∀ name, name ∈ names ∨ (∃ param ∈ params, param.lexeme = name) → name ∈ scope := by
  induction params generalizing names with
  | nil =>
      cases declares
      intro name origin
      simpa using origin
  | cons param params ih =>
      intro name origin
      obtain ⟨narrower, step⟩ : ∃ narrower,
          (Resolution.declare (names :: outer) param).2 = narrower :: outer := by
        simp only [Resolution.declare]
        split <;> exact ⟨_, rfl⟩
      have known : narrower ∈ (Resolution.declare (names :: outer) param).2.head? := by simp [step]
      obtain ⟨_, ⟨⟩, contained⟩ := mem_declare known
      simp only [Resolution.declareAll, step] at declares
      apply ih declares
      rcases origin with member | ⟨found, member, rfl⟩
      · exact .inl (contained name (.inl member))
      · rcases List.mem_cons.mp member with rfl | member
        · exact .inl (contained _ (.inr rfl))
        · exact .inr ⟨found, member, rfl⟩

theorem snug_of_functionBody {fuel : Nat} {closure : Closure} {arguments : List Value}
    (moment : world.moments (.invokeFunction (fuel + 1) closure arguments) machine)
    (sound : world.FunctionSound machine.scopes closure)
    (enough : arguments.length = closure.arity) :
    world.Snug
      (machine.entering closure.env (Run.parameterBindings closure.decl.params arguments))
      (.executeAll fuel closure.decl.body) := by
  obtain ⟨site, stands, admitted⟩ := sound
  obtain ⟨declared, same, origin⟩ := declareAll_scopes [] site.scopes closure.decl.params
  refine ⟨site.body closure.decl, ?_, admitted.body, ?_⟩
  · simp only [Site.body, same]
    refine stands.enter ⟨_, machine, moment, .function, rfl⟩ fun name member => ?_
    rcases origin name member with absent | ⟨param, listed, rfl⟩
    · cases absent
    · exact isSome_parameterBindings enough param listed
  · rintro ref ⟨⟩ names declares name bound
    simp only [Machine.entering, Scopes.lookUp?_enter, if_true] at bound
    exact mem_declareAll declares name (.inr (exists_param_of_isSome bound))

theorem snug_of_substep {task other : Task} (moment : world.moments task machine)
    (ready : world.Ready machine task) (holds : world.Holds machine)
    (snug : world.Snug machine task) (step : Substep task machine other later) :
    world.Snug later other := by
  cases step with
  | functionBody => exact snug_of_functionBody moment ready.1 ready.2.2
  | block =>
      obtain ⟨site, stands, admitted, -⟩ := snug
      refine ⟨site.enter (.block _) [], ?_, admitted.block, ?_⟩
      · exact stands.enter ⟨_, machine, moment, .block, rfl⟩ (by simp)
      · rintro ref ⟨⟩ names _ name bound
        simp only [Machine.entering, Scopes.lookUp?_enter, if_true] at bound
        simp at bound
  | ifThen ended => exact snug.branch ended (by simp [Stmt.branches])
  | ifElseThen ended | ifElseElse ended => exact snug.branch ended (by simp [Stmt.branches])
  | whileLoop => exact snug
  | firstStmt =>
      obtain ⟨site, stands, admitted, tight⟩ := snug
      exact ⟨site, stands, admitted.first, tight⟩
  | restStmts ended => exact snug.rest moment holds ended
  | @loopBody fuel condition body _ _ _ ended =>
      have loop : world.Snug machine (.execute (fuel + 1) (.whileLoop condition body)) := snug
      exact loop.branch ended (by simp [Stmt.branches])
  | nextRound ended _ ended' => exact snug.nextRound ended ended'
  | firstOfProgram =>
      obtain ⟨around, top, admitted⟩ := ready
      refine ⟨⟨around, [], []⟩, ?_, admitted.first, ?_⟩
      · rw [top]
        exact .globals
      · rintro ref _ names ⟨⟩
  | _ => trivial

theorem snug_of_reaches {task : Task} (moment : world.moments start first)
    (ready : world.Ready first start) (holds : world.Holds first) (snug : world.Snug first start)
    (reaches : Reaches start first task machine) : world.Snug machine task := by
  induction reaches with
  | here => exact snug
  | begun reaches step ih =>
      obtain ⟨moment', ready', holds'⟩ := ready_of_reaches moment ready holds reaches
      exact snug_of_substep moment' ready' holds' ih step

theorem Snug.unbound {name : Token} {task : Task} {exprs : List Expr}
    (snug : ∀ {task machine}, Reaches start first task machine → world.Snug machine task)
    (initializing : Initializing start first name task machine)
    (evaluates : task.exprs? = some exprs) :
    ∃ site : Site, (∀ expr ∈ exprs, ∃ enclosingClass pending,
        world.AdmitsExpr site enclosingClass pending expr) ∧
      ∀ names ∈ site.scopes.head?, name.lexeme ∈ names ∧
        ∀ ref ∈ machine.env.head?, ref.index < machine.scopes.tables.size ∧
          machine.scopes.lookUp? ref name.lexeme = none := by
  induction initializing generalizing exprs with
  | @begun fuel value machine reaches =>
      cases evaluates
      obtain ⟨site, stands, admitted, tight⟩ := snug reaches
      refine ⟨site.declare name, ?_, fun names declares => ?_⟩
      · intro expr member
        obtain rfl : expr = value := by simpa using member
        exact ⟨_, _, admitted.initializer⟩
      · obtain ⟨narrower, declares', contained⟩ := mem_declare declares
        refine ⟨contained _ (.inr rfl), fun ref innermost => ?_⟩
        refine ⟨stands.inStore declares' innermost, ?_⟩
        have undeclared : name.lexeme ∉ narrower := by
          have clean := admitted.clean
          simp only [Stmt.resolve, Resolution.errors_append, List.append_eq_nil_iff] at clean
          cases scopes : site.scopes with
          | nil => simp [scopes] at declares'
          | cons scope outer =>
              obtain rfl : scope = narrower := by simpa [scopes] using declares'
              intro known
              simp [scopes, Resolution.declare, known, Resolution.error] at clean
        by_contra bound
        exact undeclared (tight ref innermost narrower declares' _
          (Option.isSome_iff_ne_none.mpr bound))
  | @part task other machine later begun step _ ih =>
      obtain ⟨earlier, here⟩ := Option.isSome_iff_exists.mp begun.isSome_exprs?
      obtain ⟨site, admitted, unbound⟩ := ih here
      obtain ⟨origin, env, admits⟩ := step.begins_parts here evaluates
      refine ⟨site, fun part member => ?_, fun names declares => ?_⟩
      · rcases origin part member with member | ⟨expr, member, inside⟩
        · exact admitted part member
        · obtain ⟨enclosingClass, pending, known⟩ := admitted expr member
          exact ⟨enclosingClass, pending, known.part inside⟩
      · obtain ⟨declared, free⟩ := unbound names declares
        refine ⟨declared, fun ref innermost => ?_⟩
        rw [env] at innermost
        obtain ⟨inStore, absent⟩ := free ref innermost
        exact ⟨inStore.trans_le admits.grows.size_le,
          admits.unbound ref _ inStore absent fun _ => id⟩

end Upper

end World

theorem Scopes.isSome_holderAt? {scopes : Scopes} {env : Env} {depth : Nat} {name : String} :
    (scopes.holderAt? env depth name).isSome = (scopes.getAt? env depth name).isSome := by
  unfold holderAt? getAt?
  split
  · rfl
  · split <;> simp_all

theorem evaluate_assign {fuel : Nat} {id : ExprId} {name : Token} {value : Expr}
    {machine after : Machine} {result : Value}
    (evaluated : evaluate fuel value machine = .ok result after) :
    evaluate (fuel + 1) (.assign id name value) machine =
      match after.holderOf? id name.lexeme with
      | some holder =>
          .ok result { after with scopes := after.scopes.define holder name.lexeme result }
      | none => .error (.error ⟨.undefinedVariable name.lexeme, some name⟩) after := by
  unfold evaluate
  simp only [Bind.bind, EStateM.bind, evaluated, Run.assignVariable, MonadState.get, getThe,
    MonadStateOf.get, EStateM.get]
  cases after.holderOf? id name.lexeme <;> rfl

namespace Launch

def InOwnInitializer (launch : Launch) (name : Token) (task : Task) (machine : Machine) : Prop :=
  ∃ declared : Token, declared.lexeme = name.lexeme ∧
    Initializing launch.task launch.session.machine declared task machine

variable {history : History} {launch : Launch} {fuel : Nat} {id : ExprId} {name : Token}
  {value : Expr} {machine : Machine} {depth : Nat}

theorem snug_of_launch {session : Session} {source : String} {world : World}
    (launched : session.launchProgram? fuel source = some launch ∨
      session.launchExpr? fuel source = some launch) : world.Snug machine launch.task := by
  rcases launched with launched | launched
  · obtain ⟨stmts, task, -⟩ := Session.run_of_launch launched
    rw [task]
    trivial
  · obtain ⟨expr, task, -⟩ := Session.evaluate_of_launch launched
    rw [task]
    trivial

theorem unbound_of_initializing (launches : history.Launches launch)
    (snug : ((history.add launch).world launch.session.machine).Snug launch.session.machine
      launch.task)
    (reaches : Reaches launch.task launch.session.machine
      (.evaluate (fuel + 1) (.assign id name value)) machine)
    (recorded : machine.depths[id]? = some depth)
    (own : launch.InOwnInitializer name (.evaluate (fuel + 1) (.assign id name value)) machine) :
    depth = 0 ∧ ∀ ref ∈ machine.env.head?, ref.index < machine.scopes.tables.size ∧
      machine.scopes.lookUp? ref name.lexeme = none := by
  have coheres := launches.coheres
  have moment := history.moment_of_launch launch
  obtain ⟨-, -, holds⟩ := World.ready_of_reaches moment launches.ready coheres.holds reaches
  obtain ⟨declared, same, initializing⟩ := own
  obtain ⟨site, admitted, unbound⟩ := World.Snug.unbound
    (World.snug_of_reaches moment launches.ready coheres.holds snug) initializing rfl
  obtain ⟨enclosingClass, pending, known⟩ := admitted _ List.mem_cons_self
  have visited := known.visited ⟨⟨.assign, id, name⟩, site.regions, site.scopes⟩
    (by simp [Site.visits, Expr.uses])
  have found : site.scopes.findIdx? (·.contains name.lexeme) = some depth := by
    rw [← recorded, holds.depths]
    exact (coheres.recorded _ visited).symm
  rw [same] at unbound
  cases scopes : site.scopes with
  | nil => simp [scopes] at found
  | cons names outer =>
      obtain ⟨member, free⟩ := unbound names (by simp [scopes])
      refine ⟨?_, free⟩
      simpa [scopes, List.findIdx?_cons, member, eq_comm] using found

/-- Elsewhere the scope at the recorded depth binds it. -/
theorem bound_of_not_initializing (launches : history.Launches launch)
    (reaches : Reaches launch.task launch.session.machine
      (.evaluate (fuel + 1) (.assign id name value)) machine)
    (recorded : machine.depths[id]? = some depth)
    (other : ¬ launch.InOwnInitializer name (.evaluate (fuel + 1) (.assign id name value)) machine)
    {later : Machine} (env : later.env = machine.env)
    (grows : Grows machine.scopes later.scopes) :
    (later.scopes.getAt? later.env depth name.lexeme).isSome := by
  have coheres := launches.coheres
  have moment := history.moment_of_launch launch
  obtain ⟨-, -, holds⟩ := World.ready_of_reaches moment launches.ready coheres.holds reaches
  obtain ⟨site, enclosingClass, pending, stands, admitted, waiting⟩ :=
    World.settled_of_reaches moment launches.ready coheres.holds coheres.atGlobals reaches rfl _
      List.mem_cons_self
  have visited := admitted.visited ⟨⟨.assign, id, name⟩, site.regions, site.scopes⟩
    (by simp [Site.visits, Expr.uses])
  have found := (coheres.recorded _ visited).symm.trans (holds.depths ▸ recorded)
  obtain ⟨⟨names, inScope, member⟩, -⟩ := Visit.depth?_eq_some found
  have settled : pending ≠ some name.lexeme := by
    intro same
    have inner : site.scopes ≠ [] := by
      rintro empty
      simp [empty] at inScope
    rcases waiting inner _ same with own | ⟨used, read, wrong⟩
    · exact other own
    · cases wrong
  obtain ⟨bound, inBound, member'⟩ := mem_boundScopes inScope member settled
  rw [env]
  exact (stands.grow grows).isSome_getAt? inBound member'

end Launch

/-- In a session that is driven by its inputs, at every moment of the execution of an input without
static faults at which a variable is assigned that was resolved to a local scope, and once the value
is known: if the assignment is a part of the initial value of this variable, the scope does not bind it
yet and the assignment fails; otherwise the scope binds it and gets the value. -/
theorem local_assignment_fails_iff_initializing {history : History} {session : Session} {fuel : Nat}
    {source : String} {launch : Launch} (driven : history.Driven session)
    (launched : session.launchProgram? fuel source = some launch ∨
      session.launchExpr? fuel source = some launch)
    {fuelLeft : Nat} {id : ExprId} {name : Token} {value : Expr} {machine after : Machine}
    {depth : Nat} {result : Value}
    (reaches : Reaches launch.task launch.session.machine
      (.evaluate (fuelLeft + 1) (.assign id name value)) machine)
    (recorded : machine.depths[id]? = some depth)
    (evaluated : evaluate fuelLeft value machine = .ok result after) :
    (launch.InOwnInitializer name (.evaluate (fuelLeft + 1) (.assign id name value)) machine →
      after.scopes.assignAt? after.env depth name.lexeme result = none ∧
        evaluate (fuelLeft + 1) (.assign id name value) machine =
          .error (.error ⟨.undefinedVariable name.lexeme, some name⟩) after) ∧
    (¬ launch.InOwnInitializer name (.evaluate (fuelLeft + 1) (.assign id name value)) machine →
      ∃ scopes, after.scopes.assignAt? after.env depth name.lexeme result = some scopes ∧
        evaluate (fuelLeft + 1) (.assign id name value) machine =
          .ok result { after with scopes }) := by
  have launches : history.Launches launch := by
    rcases launched with launched | launched
    · exact driven.coheres.launchProgram launched
    · exact driven.coheres.launchExpr launched
  obtain ⟨env, admits⟩ := (Task.evaluate _ _).admits_of_ok evaluated
  have holder : after.holderOf? id name.lexeme =
      after.scopes.holderAt? after.env depth name.lexeme := by
    simp only [Machine.holderOf?, ((evaluate_keeps _ _).of_ok evaluated).depths, recorded]
  rw [evaluate_assign evaluated, holder]
  simp only [Scopes.assignAt?]
  constructor
  · intro own
    obtain ⟨rfl, unbound⟩ := Launch.unbound_of_initializing launches
      (Launch.snug_of_launch launched) reaches recorded own
    have absent : after.scopes.holderAt? after.env 0 name.lexeme = none := by
      rw [env]
      cases chain : machine.env with
      | nil => rfl
      | cons ref outer =>
          obtain ⟨inStore, free⟩ := unbound ref (by simp [chain])
          have still := admits.unbound ref _ inStore free fun _ => not_false
          simp [Scopes.holderAt?, still]
    simp [absent]
  · intro other
    have bound := Launch.bound_of_not_initializing launches reaches recorded other env admits.grows
    rw [← Scopes.isSome_holderAt?, Option.isSome_iff_exists] at bound
    obtain ⟨scope, found⟩ := bound
    simp [found]

def Stmt.selfAssigned (name : Token) : Stmt :=
  .varDecl name (some (.grouping (.assign 0 name (.literal .nil))))

theorem parse_selfAssigned :
    (Session.new {} 8).parse "{ var a = (a = nil); }" =
      ([.block [.selfAssigned ⟨.identifier, "a", none, 1⟩]],
        { Session.new {} 8 with supply := ⟨1, 0⟩ }) := by cbv

/-- A block whose variable is assigned in its own initial value passes all static checks; the assignment
is resolved to the block and fails. -/
theorem local_assignment_fails_in_block :
    let a : Token := ⟨.identifier, "a", none, 1⟩
    ∃ launch machine, (Session.new {} 8).launchProgram? 12 "{ var a = (a = nil); }" = some launch ∧
      Reaches launch.task launch.session.machine
        (.evaluate 7 (.assign 0 a (.literal .nil))) machine ∧
      machine.depths[0]? = some 0 ∧
      launch.InOwnInitializer a (.evaluate 7 (.assign 0 a (.literal .nil))) machine ∧
      evaluate 7 (.assign 0 a (.literal .nil)) machine =
        .error (.error ⟨.undefinedVariable "a", some a⟩) machine := by
  intro a
  let program : List Stmt := [.block [.selfAssigned a]]
  let resolved := ({ Session.new {} 8 with supply := ⟨1, 0⟩ } : Session).resolve
    (.ofProgram program)
  have launched : (Session.new {} 8).launchProgram? 12 "{ var a = (a = nil); }" = some
      ⟨.executeProgram 12 program, Stmt.visitsAll .topLevel program, resolved⟩ := by
    simp only [Session.launchProgram?, parse_selfAssigned]
    rfl
  have declares : Reaches (.executeProgram 12 program) resolved.machine
      (.execute 10 (.selfAssigned a)) _ :=
    ((Reaches.here.begun .firstOfProgram).begun .block).begun .firstStmt
  have reaches := ((declares.begun .initialValue).begun .present).begun .grouping
  have recorded : resolved.machine.depths[0]? = some 0 := by
    have depths : resolved.machine.depths =
        ((Session.new {} 8).machine.record [(0, 0)]).depths := rfl
    rw [depths]
    exact Machine.depths_record_of_mem (by decide) (by simp)
  have own : Launch.InOwnInitializer
      ⟨.executeProgram 12 program, Stmt.visitsAll .topLevel program, resolved⟩ a
      (.evaluate 7 (.assign 0 a (.literal .nil))) _ :=
    ⟨a, rfl, ((Initializing.begun declares).part .present rfl).part .grouping rfl⟩
  refine ⟨_, _, launched, reaches, recorded, own, ?_⟩
  exact ((local_assignment_fails_iff_initializing (.new {} 8) (.inl launched) reaches recorded
    rfl).1 own).2

/-- So a local variable that is assigned in its own initial value is not found out by the static checks:
the program is run, and ends with an undefined variable. -/
theorem assignment_in_own_initializer_is_run :
    ∃ after, (Session.new {} 8).run 12 "{ var a = (a = nil); }" = some after ∧
      after.hadError = false ∧ after.machine.depths[0]? = some 0 ∧
      after.diagnostics.errors =
        [.runtime ⟨.undefinedVariable "a", some ⟨.identifier, "a", none, 1⟩⟩] := by
  simp only [Session.run, parse_selfAssigned]
  exact ⟨_, rfl, rfl, rfl, rfl⟩

end Lox
