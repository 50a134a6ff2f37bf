import Lox.Proofs.Run.Alike

/-!
Two runs side by side. A simulation says which trees, scopes and machines of the two runs correspond. It
need not say what the trees look like: it is enough that trees that correspond have the same form and
parts that correspond, and that each single deed of the one run has its counterpart in the other. Then
tasks that correspond come to ends that correspond.
-/

namespace Lox

/-- Which parts of trees correspond. This may depend on the place: on the scopes around. -/
structure Links where
  Place : Type
  enter : Place → Place
  Open : Place → Prop
  Tokens : Token → Token → Prop
  Ids : Place → ExprId → ExprId → Prop
  /-- The same for the uses of `super`, which refer to two scopes. -/
  Heirs : Place → ExprId → ExprId → Prop
  Exprs : Place → Expr → Expr → Prop
  Stmts : Place → Stmt → Stmt → Prop
  Decls : Place → FunctionDecl → FunctionDecl → Prop

def Links.methods (links : Links) (place : links.Place) (isSubclass : Bool) : links.Place :=
  if isSubclass then links.enter (links.enter place) else links.enter place

/-! Trees of the same form, with parts that correspond. -/

section Parallel

variable (links : Links) (place : links.Place)

inductive Expr.Parallel : Expr → Expr → Prop
  | literal (value : Constant) : Parallel (.literal value) (.literal value)
  | grouping {inner inner'} : links.Exprs place inner inner' →
      Parallel (.grouping inner) (.grouping inner')
  | unary {operator operator' operand operand'} : links.Tokens operator operator' →
      links.Exprs place operand operand' →
      Parallel (.unary operator operand) (.unary operator' operand')
  | binary {left left' operator operator' right right'} : links.Exprs place left left' →
      links.Tokens operator operator' → links.Exprs place right right' →
      Parallel (.binary left operator right) (.binary left' operator' right')
  | logical {left left' operator operator' right right'} : links.Exprs place left left' →
      links.Tokens operator operator' → links.Exprs place right right' →
      Parallel (.logical left operator right) (.logical left' operator' right')
  | comma {left left' operator operator' right right'} : links.Exprs place left left' →
      links.Exprs place right right' →
      Parallel (.comma left operator right) (.comma left' operator' right')
  | conditional {condition condition' thenBranch thenBranch' elseBranch elseBranch'} :
      links.Exprs place condition condition' → links.Exprs place thenBranch thenBranch' →
      links.Exprs place elseBranch elseBranch' →
      Parallel (.conditional condition thenBranch elseBranch)
        (.conditional condition' thenBranch' elseBranch')
  | var {id id' name name'} : links.Ids place id id' → links.Tokens name name' →
      Parallel (.var id name) (.var id' name')
  | assign {id id' name name' value value'} : links.Ids place id id' → links.Tokens name name' →
      links.Exprs place value value' → Parallel (.assign id name value) (.assign id' name' value')
  | call {callee callee' paren paren' arguments arguments'} : links.Exprs place callee callee' →
      links.Tokens paren paren' → List.Forall₂ (links.Exprs place) arguments arguments' →
      Parallel (.call callee paren arguments) (.call callee' paren' arguments')
  | get {object object' name name'} : links.Exprs place object object' → links.Tokens name name' →
      Parallel (.get object name) (.get object' name')
  | set {object object' name name' value value'} : links.Exprs place object object' →
      links.Tokens name name' → links.Exprs place value value' →
      Parallel (.set object name value) (.set object' name' value')
  | this {id id' keyword keyword'} : links.Ids place id id' → links.Tokens keyword keyword' →
      Parallel (.this id keyword) (.this id' keyword')
  | super {id id' keyword keyword' method method'} : links.Heirs place id id' →
      links.Tokens keyword keyword' → links.Tokens method method' →
      Parallel (.super id keyword method) (.super id' keyword' method')

inductive Stmt.Parallel : Stmt → Stmt → Prop
  | expression {value value'} : links.Exprs place value value' →
      Parallel (.expression value) (.expression value')
  | print {keyword keyword' value value'} : links.Tokens keyword keyword' →
      links.Exprs place value value' → Parallel (.print keyword value) (.print keyword' value')
  | varDecl {name name' initializer initializer'} : links.Open place → links.Tokens name name' →
      Option.Rel (links.Exprs place) initializer initializer' →
      Parallel (.varDecl name initializer) (.varDecl name' initializer')
  | block {body body'} : List.Forall₂ (links.Stmts (links.enter place)) body body' →
      Parallel (.block body) (.block body')
  | ifThen {condition condition' thenBranch thenBranch'} : links.Exprs place condition condition' →
      links.Stmts place thenBranch thenBranch' →
      Parallel (.ifThen condition thenBranch) (.ifThen condition' thenBranch')
  | ifElse {condition condition' thenBranch thenBranch' elseBranch elseBranch'} :
      links.Exprs place condition condition' → links.Stmts place thenBranch thenBranch' →
      links.Stmts place elseBranch elseBranch' →
      Parallel (.ifElse condition thenBranch elseBranch)
        (.ifElse condition' thenBranch' elseBranch')
  | whileLoop {condition condition' body body'} : links.Exprs place condition condition' →
      links.Stmts place body body' →
      Parallel (.whileLoop condition body) (.whileLoop condition' body')
  | functionDecl {decl decl'} : links.Open place → links.Decls place decl decl' →
      Parallel (.functionDecl decl) (.functionDecl decl')
  | returnStmt {keyword keyword' value value'} : Option.Rel (links.Exprs place) value value' →
      Parallel (.returnStmt keyword value) (.returnStmt keyword' value')
  | classDecl {name name' superclass superclass' methods methods'} : links.Open place →
      links.Tokens name name' → Option.Rel (links.Exprs place) superclass superclass' →
      List.Forall₂ (links.Decls (links.methods place superclass.isSome)) methods methods' →
      Parallel (.classDecl name superclass methods) (.classDecl name' superclass' methods')

structure FunctionDecl.Parallel (decl decl' : FunctionDecl) : Prop where
  name : links.Tokens decl.name decl'.name
  params : List.Forall₂ links.Tokens decl.params decl'.params
  body : List.Forall₂ (links.Stmts (links.enter place)) decl.body decl'.body

end Parallel

structure RuntimeError.Alike (Tokens : Token → Token → Prop) (error error' : RuntimeError) :
    Prop where
  fault : error'.fault = error.fault
  place : Option.Rel Tokens error.place error'.place

inductive Abort.Alike (Tokens : Token → Token → Prop) : Abort → Abort → Prop
  | error {error error'} : error.Alike Tokens error' → Abort.Alike Tokens (.error error) (.error error')
  | outOfFuel : Abort.Alike Tokens .outOfFuel .outOfFuel

section Errors

variable {Tokens : Token → Token → Prop} (same : ∀ token token', Tokens token token' → token' = token)

include same

theorem RuntimeError.Alike.eq {error error' : RuntimeError} (alike : error.Alike Tokens error') :
    error' = error := by
  obtain ⟨fault, place⟩ := error
  obtain ⟨fault', place'⟩ := error'
  obtain ⟨faults, places⟩ := alike
  dsimp only at faults places
  subst faults
  rcases relCases places with ⟨rfl, rfl⟩ | ⟨token, token', rfl, rfl, tokens⟩
  · rfl
  · rw [same _ _ tokens]

theorem Abort.Alike.eq {abort abort' : Abort} (alike : abort.Alike Tokens abort') :
    abort' = abort := by
  cases alike with
  | error alike => rw [alike.eq same]
  | outOfFuel => rfl

end Errors

/-- Which values, scopes and machines correspond. This may depend on the world: on the scopes that have
been opened so far. -/
structure Correspondence extends Links where
  World : Type
  later : World → World → Prop
  kin : World → Kinship
  Envs : World → Place → Env → Env → Prop
  Machines : World → Place → Machine → Machine → Prop

namespace Correspondence

variable (links : Correspondence) (world : links.World)

abbrev Values := Value.Alike (links.kin world)

abbrev Callables := Callable.Alike (links.kin world)

abbrev Classes := ClassObject.Alike (links.kin world)

abbrev Instances := Instance.Alike (links.kin world)

abbrev Flows := Flow.Alike (links.kin world)

end Correspondence

inductive Deed.Alike (links : Correspondence) (world : links.World) (place : links.Place) :
    (deed deed' : Deed) → (links.World → deed.Result → deed'.Result → Prop) → Prop
  | value {id id'} (name : String) : links.Ids place id id' →
      Alike links world place (.value id name) (.value id' name)
        fun later => Option.Rel (links.Values later)
  | assign {id id'} (name : String) {value value'} : links.Ids place id id' →
      links.Values world value value' →
      Alike links world place (.assign id name value) (.assign id' name value')
        fun _ known known' => known' = known
  | env : Alike links world place .env .env fun later => links.Envs later place
  | define (name : String) {value value'} : links.Open place →
      links.Values world value value' →
      Alike links world place (.define name value) (.define name value') fun _ _ _ => True
  | openScope {inner outer outer' bindings bindings'} : links.Envs world inner outer outer' →
      TablesMatch (links.Values world) bindings bindings' →
      Alike links world place (.openScope outer bindings) (.openScope outer' bindings')
        fun later => links.Envs later (links.enter inner)
  | newInstance {cls cls'} : links.Classes world cls cls' →
      Alike links world place (.newInstance cls) (.newInstance cls')
        links.Instances
  | field {inst inst'} (name : String) : inst'.index = inst.index →
      Alike links world place (.field inst name) (.field inst' name)
        fun later => Option.Rel (links.Values later)
  | setField {inst inst' name name' value value'} : inst'.index = inst.index →
      name'.lexeme = name.lexeme → links.Values world value value' →
      Alike links world place (.setField inst name value) (.setField inst' name' value') fun _ _ _ => True
  | heritage {id id'} : links.Heirs place id id' →
      Alike links world place (.heritage id) (.heritage id') fun later =>
        Option.Rel fun heir heir' => links.Classes later heir.1 heir'.1 ∧
          links.Instances later heir.2 heir'.2
  | receiver {inner env env'} : links.Open inner → links.Envs world inner env env' →
      Alike links world place (.receiver env) (.receiver env')
        fun later => Option.Rel (links.Values later)
  | makeClass (name : String) {superclass superclass' inner env env' methods methods'} :
      Option.Rel (links.Classes world) superclass superclass' →
      links.Envs world inner env env' →
      List.Forall₂ (links.Decls (links.enter inner)) methods methods' →
      Alike links world place (.makeClass name superclass env methods)
        (.makeClass name superclass' env' methods') links.Classes
  | writeLine {text text'} : text' = text → Alike links world place (.writeLine text) (.writeLine text')
      fun _ result result' => result' = result
  | readLine : Alike links world place .readLine .readLine fun _ result result' => result' = result
  | readFile (path : String) : Alike links world place (.readFile path) (.readFile path)
      fun _ result result' => result' = result
  | writeFile (path : String) {text text'} : text' = text →
      Alike links world place (.writeFile path text) (.writeFile path text')
        fun _ result result' => result' = result
  | clock : Alike links world place .clock .clock fun _ time time' => time' = time

/-- Trees that correspond are parallel, scopes that correspond go on doing so, and so do machines,
whatever they do. -/
structure Simulation extends Correspondence where
  refl : ∀ world, later world world
  trans : ∀ {first second third}, later first second → later second third → later first third
  open_enter : ∀ place, Open (enter place)
  kind : ∀ {token token'}, Tokens token token' → token'.kind = token.kind
  lexeme : ∀ {token token'}, Tokens token token' → token'.lexeme = token.lexeme
  expr : ∀ {place expr expr'}, Exprs place expr expr' → expr.Parallel toLinks place expr'
  stmt : ∀ {place stmt stmt'}, Stmts place stmt stmt' → stmt.Parallel toLinks place stmt'
  decl : ∀ {place decl decl'}, Decls place decl decl' → decl.Parallel toLinks place decl'
  envs : ∀ {world next place env env'}, later world next → Envs world place env env' →
    Envs next place env env'
  function_iff : ∀ {world closure closure'}, (kin world).Functions closure closure' ↔
    closure'.isInitializer = closure.isInitializer ∧
      ∃ place, Open place ∧ Envs world place closure.env closure'.env ∧
        Decls place closure.decl closure'.decl
  method_iff : ∀ {world method method'}, (kin world).Methods method method' ↔
    method'.isInitializer = method.isInitializer ∧
      ∃ place, Envs world place method.env method'.env ∧
        Decls (enter place) method.decl method'.decl
  inside : ∀ {world place inner env env' machine machine'}, Machines world place machine machine' →
    Envs world inner env env' →
    Machines world inner { machine with env } { machine' with env := env' }
  outside : ∀ {world next place inner machine machine' after after'}, later world next →
    Machines world place machine machine' → Machines next inner after after' →
    Machines next place { after with env := machine.env } { after' with env := machine'.env }
  callDepth : ∀ {world place machine machine'}, Machines world place machine machine' →
    machine'.callDepth = machine.callDepth ∧ machine'.maxCallDepth = machine.maxCallDepth
  atDepth : ∀ {world place machine machine'}, Machines world place machine machine' →
    ∀ change : Nat → Nat, Machines world place { machine with callDepth := change machine.callDepth }
      { machine' with callDepth := change machine'.callDepth }
  step : ∀ {world place machine machine' deed deed' R}, Machines world place machine machine' →
    Deed.Alike toCorrespondence world place deed deed' R →
    ∃ next, later world next ∧ R next (deed.answer machine) (deed'.answer machine') ∧
      Machines next place (deed.change machine) (deed'.change machine')

section Steps

variable (sim : Simulation) (world : sim.World)

inductive Task.Alike :
    sim.Place → (task task' : Task) → (sim.World → task.Result → task'.Result → Prop) → Prop
  | evaluate {place} (fuel : Nat) {expr expr'} : sim.Exprs place expr expr' →
      Task.Alike place (.evaluate fuel expr) (.evaluate fuel expr')
        sim.Values
  | evaluateAll {place} (fuel : Nat) {exprs exprs'} : List.Forall₂ (sim.Exprs place) exprs exprs' →
      Task.Alike place (.evaluateAll fuel exprs) (.evaluateAll fuel exprs')
        fun later => List.Forall₂ (sim.Values later)
  | evaluateOr {place} (fuel : Nat) {expr expr'} : Option.Rel (sim.Exprs place) expr expr' →
      Task.Alike place (.evaluateOr fuel expr) (.evaluateOr fuel expr')
        sim.Values
  | call {place} (fuel : Nat) {function function' paren paren' arguments arguments'} :
      sim.Values world function function' → sim.Tokens paren paren' →
      List.Forall₂ (sim.Values world) arguments arguments' →
      Task.Alike place (.call fuel function paren arguments) (.call fuel function' paren' arguments')
        sim.Values
  | invoke {place} (fuel : Nat) {callee callee' arguments arguments'} :
      sim.Callables world callee callee' →
      List.Forall₂ (sim.Values world) arguments arguments' →
      Task.Alike place (.invoke fuel callee arguments) (.invoke fuel callee' arguments')
        sim.Values
  | invokeFunction {place} (fuel : Nat) {closure closure' arguments arguments'} :
      (sim.kin world).Functions closure closure' →
      List.Forall₂ (sim.Values world) arguments arguments' →
      Task.Alike place (.invokeFunction fuel closure arguments)
        (.invokeFunction fuel closure' arguments') sim.Values
  | bindMethod {place method method' inst inst'} : (sim.kin world).Methods method method' →
      sim.Instances world inst inst' →
      Task.Alike place (.bindMethod method inst) (.bindMethod method' inst')
        fun later => (sim.kin later).Functions
  | execute {place} (fuel : Nat) {stmt stmt'} : sim.Stmts place stmt stmt' →
      Task.Alike place (.execute fuel stmt) (.execute fuel stmt')
        sim.Flows
  | executeAll {place} (fuel : Nat) {stmts stmts'} : List.Forall₂ (sim.Stmts place) stmts stmts' →
      Task.Alike place (.executeAll fuel stmts) (.executeAll fuel stmts')
        sim.Flows
  | repeatWhile {place} (fuel : Nat) {condition condition' body body'} :
      sim.Exprs place condition condition' → sim.Stmts place body body' →
      Task.Alike place (.repeatWhile fuel condition body) (.repeatWhile fuel condition' body')
        sim.Flows
  | declareClass {place name name' superclass superclass' methods methods'} : sim.Open place →
      sim.Tokens name name' →
      Option.Rel (sim.Classes world) superclass superclass' →
      List.Forall₂ (sim.Decls (sim.methods place superclass.isSome)) methods methods' →
      Task.Alike place (.declareClass name superclass methods)
        (.declareClass name' superclass' methods') fun _ _ _ => True
  | executeProgram {place} (fuel : Nat) {stmts stmts'} :
      List.Forall₂ (sim.Stmts place) stmts stmts' →
      Task.Alike place (.executeProgram fuel stmts) (.executeProgram fuel stmts') fun _ _ _ => True

/-- The place where the tasks begin that are begun at the given one. -/
inductive Setting.Alike (place : sim.Place) : sim.Place → Setting → Setting → Prop
  | here : Setting.Alike place place .here .here
  | inside {inner env env'} : sim.Envs world inner env env' →
      Setting.Alike place inner (.inside env) (.inside env')
  | nested {paren paren'} : sim.Tokens paren paren' →
      Setting.Alike place place (.nested paren) (.nested paren')

end Steps

/-- Two plans of the same form, with deeds and tasks that correspond. -/
inductive Plan.Alike (sim : Simulation) (place : sim.Place) {bound bound' : Nat} {α α' : Type}
    (R : sim.World → α → α' → Prop) : sim.World → Plan bound α → Plan bound' α' → Prop
  | done {world value value'} : R world value value' → Alike sim place R world (done value) (done value')
  | stop {world abort abort'} : abort.Alike sim.Tokens abort' →
      Alike sim place R world (stop abort) (stop abort')
  | act {world deed deed' S next next'} : Deed.Alike sim.toCorrespondence world place deed deed' S →
      (∀ later, sim.later world later → ∀ answer answer', S later answer answer' →
        Alike sim place R later (next answer) (next' answer')) →
      Alike sim place R world (act deed next) (act deed' next')
  | start {world setting setting' inner task task' S next next' shorter shorter'} :
      Setting.Alike sim world place inner setting setting' →
      Task.Alike sim world inner task task' S →
      (∀ later, sim.later world later → ∀ result result', S later result result' →
        Alike sim place R later (next result) (next' result')) →
      Alike sim place R world (start setting task next shorter) (start setting' task' next' shorter')

namespace Simulation

variable {sim : Simulation} {world next : sim.World} {place inner : sim.Place}

theorem weakens (later : sim.later world next) : (sim.kin world).Weakens (sim.kin next) where
  functions _ _ related := by
    obtain ⟨isInitializer, place, isOpen, envs, decls⟩ := sim.function_iff.mp related
    exact sim.function_iff.mpr ⟨isInitializer, place, isOpen, sim.envs later envs, decls⟩
  methods _ _ related := by
    obtain ⟨isInitializer, place, envs, decls⟩ := sim.method_iff.mp related
    exact sim.method_iff.mpr ⟨isInitializer, place, sim.envs later envs, decls⟩

theorem all_weakens (later : sim.later world next) {values values' : List Value}
    (alike : List.Forall₂ (sim.Values world) values values') :
    List.Forall₂ (Value.Alike (sim.kin next)) values values' :=
  alike.imp fun _ _ value => value.imp (weakens later)

/-! Runs of plans. -/

section Ends

variable {α α' : Type} {R : sim.World → α → α' → Prop}

inductive Ends (sim : Simulation) (place : sim.Place) (R : sim.World → α → α' → Prop)
    (world : sim.World) :
    EStateM.Result Abort Machine α → EStateM.Result Abort Machine α' → Prop
  | ok {next value value' after after'} : sim.later world next → R next value value' →
      sim.Machines next place after after' →
      Ends sim place R world (.ok value after) (.ok value' after')
  | error {next abort abort' after after'} : sim.later world next → abort.Alike sim.Tokens abort' →
      sim.Machines next place after after' →
      Ends sim place R world (.error abort after) (.error abort' after')

theorem Ends.since {result : EStateM.Result Abort Machine α}
    {result' : EStateM.Result Abort Machine α'} (ends : sim.Ends place R next result result')
    (later : sim.later world next) : sim.Ends place R world result result' := by
  cases ends with
  | ok grown related after => exact .ok (sim.trans later grown) related after
  | error grown raised after => exact .error (sim.trans later grown) raised after

theorem placing {setting setting' : Setting}
    (settings : Setting.Alike sim world place inner setting setting')
    {abort abort' : Abort} (raised : abort.Alike sim.Tokens abort') :
    (setting.placing abort).Alike sim.Tokens (setting'.placing abort') := by
  cases settings with
  | here | inside => exact raised
  | nested paren =>
      cases raised with
      | outOfFuel => exact .outOfFuel
      | error raised =>
          refine .error ⟨raised.fault, ?_⟩
          simp only [RuntimeError.orAt]
          rcases relCases raised.place with ⟨none, none'⟩ | ⟨_, _, found, found', same⟩
          · rw [none, none']
            exact .some paren
          · rw [found, found']
            exact .some same

theorem leave {setting setting' : Setting}
    (settings : Setting.Alike sim world place inner setting setting')
    {machine machine' after after' : Machine} (later : sim.later world next)
    (machines : sim.Machines world place machine machine')
    (ended : sim.Machines next inner after after') :
    sim.Machines next place (setting.leave machine after) (setting'.leave machine' after') := by
  cases settings with
  | here => exact ended
  | inside => exact sim.outside later machines ended
  | nested => exact sim.atDepth ended (· - 1)

theorem enter? {setting setting' : Setting}
    (settings : Setting.Alike sim world place inner setting setting')
    {machine machine' : Machine} (machines : sim.Machines world place machine machine') :
    Option.Rel (sim.Machines world inner) (setting.enter? machine) (setting'.enter? machine') := by
  cases settings with
  | here => exact .some machines
  | inside envs => exact .some (sim.inside machines envs)
  | nested =>
      obtain ⟨depth, limit⟩ := sim.callDepth machines
      simp only [Setting.enter?, depth, limit]
      split
      · exact .some (sim.atDepth machines (· + 1))
      · exact .none

theorem around {setting setting' : Setting}
    (settings : Setting.Alike sim world place inner setting setting')
    {step : Run α} {step' : Run α'}
    (ends : ∀ machine machine', sim.Machines world inner machine machine' →
      sim.Ends inner R world (step machine) (step' machine'))
    {machine machine' : Machine} (machines : sim.Machines world place machine machine') :
    sim.Ends place R world (setting.around step machine) (setting'.around step' machine') := by
  rcases relCases (enter? settings machines) with
    ⟨refused, refused'⟩ | ⟨present, present', entered, entered', begun⟩
  · obtain ⟨paren, rfl, -, whole⟩ := Setting.around_of_none step refused
    obtain ⟨paren', rfl, -, whole'⟩ := Setting.around_of_none step' refused'
    rw [whole, whole']
    cases settings with
    | nested parens => exact .error (sim.refl world) (.error ⟨rfl, .some parens⟩) machines
  · rw [Setting.around_of_some entered, Setting.around_of_some entered']
    have ended := ends present present' begun
    generalize step present = result at ended
    generalize step' present' = result' at ended
    cases ended with
    | ok later related after => exact .ok later related (leave settings later machines after)
    | error later raised after =>
        exact .error later (placing settings raised) (leave settings later machines after)

theorem play {bound bound' : Nat} {plan : Plan bound α} {plan' : Plan bound' α'}
    (inner : ∀ {world place} {task task' : Task} {S}, task.bound < bound →
      Task.Alike sim world place task task' S → ∀ machine machine',
      sim.Machines world place machine machine' →
      sim.Ends place S world (task.run machine) (task'.run machine'))
    (alike : plan.Alike sim place R world plan') {machine machine' : Machine}
    (machines : sim.Machines world place machine machine') :
    sim.Ends place R world (plan.play Task.run machine) (plan'.play Task.run machine') := by
  induction alike generalizing machine machine' with
  | done related => exact .ok (sim.refl _) related machines
  | stop raised => exact .error (sim.refl _) raised machines
  | act deeds _ ih =>
      obtain ⟨next, later, answers, changed⟩ := sim.step machines deeds
      exact (ih next later _ _ answers changed).since later
  | @start world setting setting' _ task task' _ _ _ shorter _ settings tasks _ ih =>
      have ended := around settings (inner shorter tasks) machines
      simp only [Plan.play, Bind.bind, EStateM.bind]
      generalize setting.around task.run machine = result at ended
      generalize setting'.around task'.run machine' = result' at ended
      cases ended with
      | error later raised after => exact .error later raised after
      | ok later related after => exact (ih _ later _ _ related after).since later

end Ends

end Simulation

namespace Plan.Alike

variable {sim : Simulation} {world : sim.World} {place : sim.Place} {bound bound' : Nat}
  {α α' : Type} {R : sim.World → α → α' → Prop}

section Steps

variable {task task' : Task} {shorter : task.bound < bound} {shorter' : task'.bound < bound'}

theorem here {S : sim.World → task.Result → task'.Result → Prop} {next : task.Result → Plan bound α}
    {next' : task'.Result → Plan bound' α'}
    (tasks : Task.Alike sim world place task task' S)
    (rest : ∀ later, sim.later world later → ∀ result result', S later result result' →
      Alike sim place R later (next result) (next' result')) :
    Alike sim place R world (Plan.start .here task next shorter)
      (Plan.start .here task' next' shorter') := .start .here tasks rest

theorem last {R : sim.World → task.Result → task'.Result → Prop}
    (tasks : Task.Alike sim world place task task' R) :
    Alike sim place R world (Plan.start .here task Plan.done shorter)
      (Plan.start .here task' Plan.done shorter') :=
  .here tasks fun _ _ _ _ related => .done related

end Steps

theorem fail (fault : RuntimeFault) {token token' : Token} (tokens : sim.Tokens token token') :
    Alike sim place R world (Plan.fail fault token : Plan bound α)
      (Plan.fail fault token' : Plan bound' α') := .stop (.error ⟨rfl, .some tokens⟩)

theorem failBare (fault : RuntimeFault) :
    Alike sim place R world (Plan.failBare fault : Plan bound α)
      (Plan.failBare fault : Plan bound' α') := .stop (.error ⟨rfl, .none⟩)

theorem orFailAt {token token' : Token} (tokens : sim.Tokens token token')
    {result : Except RuntimeFault Value} (plain : ∀ value, result = .ok value → value.Plain) :
    Alike sim place sim.Values world
      (Plan.orFailAt token result : Plan bound Value)
      (Plan.orFailAt token' result : Plan bound' Value) := by
  cases result with
  | ok value => exact .done (.of_plain (plain value rfl))
  | error fault => exact .fail fault tokens

theorem readVariable {id id' : ExprId} (ids : sim.Ids place id id') {name name' : Token}
    (names : sim.Tokens name name') :
    Alike sim place sim.Values world
      (Plan.readVariable id name : Plan bound Value)
      (Plan.readVariable id' name' : Plan bound' Value) := by
  unfold Plan.readVariable
  rw [sim.lexeme names]
  refine .act (.value _ ids) fun _ _ _ _ read => ?_
  cases read with
  | none => exact .fail _ names
  | some value => exact .done value

theorem retrieve (fuel : Nat) {method method' : Closure} {inst inst' : Instance}
    (methods : (sim.kin world).Methods method method') (insts : sim.Instances world inst inst') :
    Alike sim place sim.Values world
      (Plan.retrieve fuel method inst) (Plan.retrieve fuel method' inst') :=
  .here (.bindMethod methods insts) fun _ _ _ _ bound => .done (.callable (.function bound))

theorem inherited (fuel : Nat) {cls cls' : ClassObject} (classes : sim.Classes world cls cls')
    {inst inst' : Instance} (insts : sim.Instances world inst inst') {name name' : Token}
    (names : sim.Tokens name name') :
    Alike sim place sim.Values world
      (match cls.findMethod? name.lexeme with
        | some method => Plan.retrieve fuel method inst
        | none => Plan.fail (.undefinedProperty name.lexeme) name)
      (match cls'.findMethod? name'.lexeme with
        | some method => Plan.retrieve fuel method inst'
        | none => Plan.fail (.undefinedProperty name'.lexeme) name') := by
  rw [sim.lexeme names]
  rcases relCases (classes.findMethod? name.lexeme) with
    ⟨none, none'⟩ | ⟨method, method', found, found', methods⟩
  · rw [none, none']
    exact .fail _ names
  · rw [found, found']
    exact .retrieve fuel methods insts

theorem ofExpr (fuel : Nat) {expr expr' : Expr} (exprs : sim.Exprs place expr expr') :
    Alike sim place sim.Values world
      (Plan.ofExpr fuel expr) (Plan.ofExpr fuel expr') := by
  cases sim.expr exprs with
  | literal value => exact .done (.of_plain (Value.plain_ofConstant value))
  | grouping inner => exact .last (.evaluate fuel inner)
  | unary operator operand =>
      refine .here (.evaluate fuel operand) fun _ _ _ _ value => ?_
      rw [sim.kind operator, Operator.unary_alike _ value]
      exact .orFailAt operator fun _ => Operator.plain_unary
  | binary left operator right =>
      refine .here (.evaluate fuel left) fun _ _ _ _ first =>
        .here (.evaluate fuel right) fun _ later _ _ second => ?_
      rw [sim.kind operator, Operator.binary_alike _ (first.imp (sim.weakens later)) second]
      exact .orFailAt operator fun _ => Operator.plain_binary
  | logical left operator right =>
      refine .here (.evaluate fuel left) fun _ _ _ _ first => ?_
      rw [sim.kind operator, Operator.shortCircuits_alike _ first]
      split
      · exact .done first
      · exact .last (.evaluate fuel right)
  | comma left right =>
      exact .here (.evaluate fuel left) fun _ _ _ _ _ => .last (.evaluate fuel right)
  | conditional condition thenBranch elseBranch =>
      refine .here (.evaluate fuel condition) fun _ _ _ _ value => ?_
      rw [value.isTruthy]
      split
      · exact .last (.evaluate fuel thenBranch)
      · exact .last (.evaluate fuel elseBranch)
  | var ids names | this ids names => exact .readVariable ids names
  | assign ids names value =>
      refine .here (.evaluate fuel value) fun _ _ _ _ result => ?_
      unfold Plan.assignVariable
      rw [sim.lexeme names]
      refine .act (.assign _ ids result) fun _ later known known' same => ?_
      subst same
      cases known' with
      | true => exact .done (result.imp (sim.weakens later))
      | false => exact .fail _ names
  | call callee paren arguments =>
      exact .here (.evaluate fuel callee) fun _ _ _ _ function =>
        .here (.evaluateAll fuel arguments) fun _ later _ _ values =>
          .last (.call fuel (function.imp (sim.weakens later)) paren values)
  | get object names =>
      refine .here (.evaluate fuel object) fun _ _ _ _ value => ?_
      cases value with
      | object inst =>
          unfold Plan.getProperty
          rw [sim.lexeme names]
          refine .act (.field _ inst.index) fun _ later _ _ stored => ?_
          cases stored with
          | some value => exact .done value
          | none =>
              have retrieved : Alike sim place _ _ _ _ := inherited fuel
                (inst.cls.imp (sim.weakens later)) (inst.imp (sim.weakens later)) names
              rwa [sim.lexeme names] at retrieved
      | _ => exact .fail _ names
  | set object names value =>
      refine .here (.evaluate fuel object) fun _ _ _ _ target => ?_
      cases target with
      | object inst =>
          exact .here (.evaluate fuel value) fun _ _ _ _ result =>
            .act (.setField inst.index (sim.lexeme names) result) fun _ later _ _ _ =>
              .done (result.imp (sim.weakens later))
      | _ => exact .fail _ names
  | super ids keyword names =>
      refine .act (.heritage ids) fun _ _ _ _ heirs => ?_
      cases heirs with
      | none => exact .fail _ keyword
      | some heirs => exact .inherited fuel heirs.1 heirs.2 names

theorem ofNative (builtin : Native) {arguments arguments' : List Value}
    (values : List.Forall₂ (sim.Values world) arguments arguments') :
    Alike sim place sim.Values world
      (Plan.ofNative arguments builtin : Plan bound Value)
      (Plan.ofNative arguments' builtin : Plan bound' Value) := by
  have first := Native.firstType_alike values
  have refused (native : Native) : Alike sim place
      sim.Values world
      (Plan.failBare (.pathExpected native.name (Native.firstType arguments)) : Plan bound Value)
      (Plan.failBare (.pathExpected native.name (Native.firstType arguments')) :
        Plan bound' Value) := by
    rw [first]
    exact .failBare _
  cases builtin with
  | clock =>
      refine .act .clock fun _ _ _ _ same => ?_
      subst same
      exact .done (.number _)
  | readLine =>
      refine .act .readLine fun _ _ answer answer' same => ?_
      subst same
      rcases answer' with fault | ⟨_ | text⟩
      · exact .failBare _
      · exact .done .nil
      · exact .done (.string _)
  | readFile =>
      rcases values with _ | ⟨path, _ | _⟩
      · exact refused _
      · cases path with
        | string path =>
            refine .act (.readFile path) fun _ _ answer answer' same => ?_
            subst same
            cases answer' with
            | ok text => exact .done (.string _)
            | error fault => exact .failBare _
        | _ => exact refused _
      · cases path <;> exact refused _
  | writeFile =>
      rcases values with _ | ⟨path, _ | ⟨content, _ | _⟩⟩
      · exact refused _
      · cases path <;> exact refused _
      · cases path with
        | string path =>
            refine .act (.writeFile path content.text) fun _ _ answer answer' same => ?_
            subst same
            cases answer' with
            | ok => exact .done .nil
            | error fault => exact .failBare _
        | _ => exact refused _
      · cases path <;> exact refused _
  | echo =>
      rcases values with _ | ⟨value, _ | _⟩
      · exact .failBare _
      · refine .act (.writeLine value.text) fun _ _ answer answer' same => ?_
        subst same
        cases answer' with
        | ok => exact .done .nil
        | error fault => exact .failBare _
      · exact .failBare _

theorem ofCallable (fuel : Nat) {callee callee' : Callable}
    (callees : sim.Callables world callee callee') {arguments arguments' : List Value}
    (values : List.Forall₂ (sim.Values world) arguments arguments') :
    Alike sim place sim.Values world
      (Plan.ofCallable fuel arguments callee) (Plan.ofCallable fuel arguments' callee') := by
  cases callees with
  | native builtin => exact .ofNative builtin values
  | function closures => exact .last (.invokeFunction fuel closures values)
  | constructor classes =>
      refine .act (.newInstance classes) fun _ later _ _ insts => ?_
      rcases relCases ((classes.imp (sim.weakens later)).findMethod? "init") with
        ⟨none, none'⟩ | ⟨method, method', found, found', methods⟩
      · simp only [none, none']
        exact .done (.object insts)
      · simp only [found, found']
        exact .here (.bindMethod methods insts) fun _ later' _ _ bound =>
          .here (.invokeFunction fuel bound (sim.all_weakens (sim.trans later later') values))
            fun _ later'' _ _ _ =>
              .done (.object (insts.imp (sim.weakens (sim.trans later' later''))))

theorem parameterBindings {params params' : List Token} {arguments arguments' : List Value}
    (names : List.Forall₂ sim.Tokens params params')
    (values : List.Forall₂ (sim.Values world) arguments arguments') :
    TablesMatch (sim.Values world) (Run.parameterBindings params arguments)
      (Run.parameterBindings params' arguments') := by
  have entries : List.Forall₂ (fun (entry entry' : Token × Value) =>
      sim.Tokens entry.1 entry'.1 ∧ entry.2.Alike (sim.kin world) entry'.2)
      (params.zip arguments) (params'.zip arguments') := by
    induction names generalizing arguments arguments' with
    | nil => exact .nil
    | cons name _ ih =>
        cases values with
        | nil => exact .nil
        | cons value values => exact .cons ⟨name, value⟩ (ih values)
  exact .fill (fun _ _ entry => sim.lexeme entry.1) (fun _ _ entry => entry.2) entries .empty

theorem ofFunction (fuel : Nat) {closure closure' : Closure}
    (closures : (sim.kin world).Functions closure closure') {arguments arguments' : List Value}
    (values : List.Forall₂ (sim.Values world) arguments arguments') :
    Alike sim place sim.Values world
      (Plan.ofFunction fuel closure arguments) (Plan.ofFunction fuel closure' arguments') := by
  obtain ⟨isInitializer, inner, isOpen, envs, decls⟩ := sim.function_iff.mp closures
  obtain ⟨name, params, body⟩ := sim.decl decls
  refine .act (.openScope envs (parameterBindings params values)) fun _ later _ _ opened =>
    .start (.inside opened) (.executeAll fuel body) fun _ later' _ _ flow => ?_
  unfold Plan.functionResult
  rw [isInitializer]
  split
  · refine .act (.receiver isOpen (sim.envs (sim.trans later later') envs)) fun _ _ _ _ read => ?_
    cases read with
    | none => exact .fail _ name
    | some value => exact .done value
  · cases flow with
    | normal => exact .done .nil
    | returned value => exact .done value

theorem superclassPlace {parent parent' : Expr} (parents : sim.Exprs place parent parent')
    {name name' : Token} (names : sim.Tokens name name') :
    sim.Tokens (parent.superclassPlace name) (parent'.superclassPlace name') := by
  cases sim.expr parents with
  | var _ used => exact used
  | _ => exact names

theorem ofStmt (fuel : Nat) {stmt stmt' : Stmt} (stmts : sim.Stmts place stmt stmt') :
    Alike sim place sim.Flows world
      (Plan.ofStmt fuel stmt) (Plan.ofStmt fuel stmt') := by
  cases sim.stmt stmts with
  | expression value => exact .here (.evaluate fuel value) fun _ _ _ _ _ => .done .normal
  | print keyword value =>
      refine .here (.evaluate fuel value) fun _ _ _ _ result =>
        .act (.writeLine result.text) fun _ _ answer answer' same => ?_
      subst same
      cases answer' with
      | ok => exact .done .normal
      | error fault => exact .fail _ keyword
  | varDecl isOpen names initializer =>
      refine .here (.evaluateOr fuel initializer) fun _ _ _ _ value => ?_
      rw [sim.lexeme names]
      exact .act (.define _ isOpen value) fun _ _ _ _ _ => .done .normal
  | block body =>
      exact .act .env fun _ _ _ _ envs => .act (.openScope envs .empty) fun _ _ _ _ opened =>
        .start (.inside opened) (.executeAll fuel body) fun _ _ _ _ flow => .done flow
  | ifThen condition thenBranch =>
      refine .here (.evaluate fuel condition) fun _ _ _ _ value => ?_
      rw [value.isTruthy]
      split
      · exact .last (.execute fuel thenBranch)
      · exact .done .normal
  | ifElse condition thenBranch elseBranch =>
      refine .here (.evaluate fuel condition) fun _ _ _ _ value => ?_
      rw [value.isTruthy]
      split
      · exact .last (.execute fuel thenBranch)
      · exact .last (.execute fuel elseBranch)
  | whileLoop condition body => exact .last (.repeatWhile fuel condition body)
  | functionDecl isOpen decls =>
      refine .act .env fun _ _ _ _ envs => ?_
      rw [sim.lexeme (sim.decl decls).name]
      exact .act (.define _ isOpen (.callable (.function (sim.function_iff.mpr
        ⟨rfl, place, isOpen, envs, decls⟩)))) fun _ _ _ _ _ => .done .normal
  | returnStmt value =>
      exact .here (.evaluateOr fuel value) fun _ _ _ _ result => .done (.returned result)
  | classDecl isOpen names superclass methods =>
      rcases relCases superclass with ⟨rfl, rfl⟩ | ⟨parent, parent', rfl, rfl, parents⟩
      · exact .here (.declareClass isOpen names .none methods) fun _ _ _ _ _ => .done .normal
      · refine .here (.evaluate fuel parents) fun _ _ _ _ value => ?_
        have tokens := superclassPlace parents names
        rcases value with _ | _ | _ | _ | (_ | _ | cls) | _
        case callable.constructor =>
          exact .here (.declareClass isOpen names (.some cls) methods) fun _ _ _ _ _ => .done .normal
        all_goals exact .fail _ tokens

theorem ofClass {name name' : Token} (isOpen : sim.Open place) (names : sim.Tokens name name')
    {superclass superclass' : Option ClassObject}
    (classes : Option.Rel (sim.Classes world) superclass superclass')
    {methods methods' : List FunctionDecl}
    (decls : List.Forall₂ (sim.Decls (sim.toLinks.methods place superclass.isSome)) methods
      methods') :
    Alike sim place (fun _ _ _ => True) world
      (Plan.ofClass name superclass methods : Plan bound Unit)
      (Plan.ofClass name' superclass' methods' : Plan bound' Unit) := by
  unfold Plan.ofClass
  rw [sim.lexeme names]
  refine .act (.define _ isOpen .nil) fun _ later _ _ _ => .act .env fun _ later' _ _ envs => ?_
  rcases relCases classes with ⟨rfl, rfl⟩ | ⟨parent, parent', rfl, rfl, parents⟩
  · exact .act (.makeClass _ .none envs decls) fun _ _ _ _ cls =>
      .act (.define _ isOpen (.callable (.constructor cls))) fun _ _ _ _ _ => .done trivial
  · have parents := parents.imp (sim.weakens (sim.trans later later'))
    exact .act (.openScope envs (TablesMatch.empty.insert "super" (.callable (.constructor parents))))
      fun _ later'' _ _ opened =>
        .act (.makeClass _ (.some (parents.imp (sim.weakens later''))) opened decls) fun _ _ _ _ cls =>
          .act (.define _ isOpen (.callable (.constructor cls))) fun _ _ _ _ _ => .done trivial

end Plan.Alike

namespace Simulation

variable {sim : Simulation} {world : sim.World} {place : sim.Place} {task task' : Task}
  {R : sim.World → task.Result → task'.Result → Prop}

theorem plans (tasks : Task.Alike sim world place task task' R) :
    task.plan.Alike sim place R world task'.plan := by
  cases tasks with
  | evaluate fuel exprs =>
      cases fuel with
      | zero => exact .stop .outOfFuel
      | succ fuel => exact .ofExpr fuel exprs
  | evaluateAll fuel exprs =>
      cases fuel with
      | zero => exact .stop .outOfFuel
      | succ fuel =>
          cases exprs with
          | nil => exact .done .nil
          | cons first rest =>
              exact .here (.evaluate fuel first) fun _ _ _ _ value =>
                .here (.evaluateAll fuel rest) fun _ later _ _ values =>
                  .done (.cons (value.imp (sim.weakens later)) values)
  | evaluateOr fuel expr =>
      cases fuel with
      | zero => exact .stop .outOfFuel
      | succ fuel =>
          rcases relCases expr with ⟨rfl, rfl⟩ | ⟨value, value', rfl, rfl, values⟩
          · exact .done .nil
          · exact .last (.evaluate fuel values)
  | call fuel functions parens values =>
      cases fuel with
      | zero => exact .stop .outOfFuel
      | succ fuel =>
          show Plan.Alike _ _ _ _ (Plan.ofCall ..) (Plan.ofCall ..)
          unfold Plan.ofCall
          rcases relCases functions.callable? with
            ⟨none, none'⟩ | ⟨callee, callee', found, found', callees⟩
          · rw [none, none']
            exact .fail _ parens
          · rw [found, found']
            dsimp only
            rw [callees.arity, ← values.length_eq]
            split
            · exact .fail _ parens
            · exact .start (.nested parens) (.invoke fuel callees values) fun _ _ _ _ value =>
                .done value
  | invoke fuel callees values =>
      cases fuel with
      | zero => exact .stop .outOfFuel
      | succ fuel => exact .ofCallable fuel callees values
  | invokeFunction fuel closures values =>
      cases fuel with
      | zero => exact .stop .outOfFuel
      | succ fuel => exact .ofFunction fuel closures values
  | bindMethod methods insts =>
      obtain ⟨isInitializer, outer, envs, decls⟩ := sim.method_iff.mp methods
      refine .act (.openScope envs (TablesMatch.empty.insert "this" (.object insts)))
        fun _ _ _ _ opened => .done ?_
      exact sim.function_iff.mpr ⟨isInitializer, _, sim.open_enter outer, opened, decls⟩
  | execute fuel stmts =>
      cases fuel with
      | zero => exact .stop .outOfFuel
      | succ fuel => exact .ofStmt fuel stmts
  | executeAll fuel stmts =>
      cases fuel with
      | zero => exact .stop .outOfFuel
      | succ fuel =>
          cases stmts with
          | nil => exact .done .normal
          | cons first rest =>
              refine .here (.execute fuel first) fun _ _ _ _ flow => ?_
              cases flow with
              | returned value => exact .done (.returned value)
              | normal => exact .last (.executeAll fuel rest)
  | repeatWhile fuel conditions bodies =>
      cases fuel with
      | zero => exact .stop .outOfFuel
      | succ fuel =>
          refine .here (.evaluate fuel conditions) fun _ _ _ _ value => ?_
          rw [value.isTruthy]
          split
          · refine .here (.execute fuel bodies) fun _ _ _ _ flow => ?_
            cases flow with
            | returned result => exact .done (.returned result)
            | normal => exact .last (.repeatWhile fuel conditions bodies)
          · exact .done .normal
  | declareClass isOpen names classes decls => exact .ofClass isOpen names classes decls
  | executeProgram fuel stmts =>
      cases stmts with
      | nil => exact .done trivial
      | cons first rest =>
          exact .here (.execute fuel first) fun _ _ _ _ _ => .last (.executeProgram fuel rest)

theorem run (tasks : Task.Alike sim world place task task' R)
    {machine machine' : Machine} (machines : sim.Machines world place machine machine') :
    sim.Ends place R world (task.run machine) (task'.run machine') := by
  induction task using Task.induction generalizing task' world place machine machine' with
  | step task shorter =>
      rw [← task.play_plan, ← task'.play_plan]
      refine play (fun less tasks machine machine' machines => ?_) (plans tasks) machines
      exact shorter _ less tasks machines

end Simulation

end Lox
