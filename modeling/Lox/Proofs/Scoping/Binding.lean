import Lox.Proofs.Scoping.World

/-!
Where names become bound. Evaluating an expression binds no new name in any scope that is open already:
the bodies of the functions that it calls have scopes of their own, and an assignment changes only
what is bound. Executing a statement binds new names in the innermost scope only, and only those that
the statement declares there.
-/

namespace Lox

/-- More may be bound, but in the scopes that are there a name becomes bound only in the innermost one
of `env`, and only if it is one of `names`. -/
structure Scopes.Admits (env : Env) (names : String → Prop) (before after : Scopes) : Prop where
  grows : Grows before after
  unbound : ∀ ref name, ref.index < before.tables.size → before.lookUp? ref name = none →
    (env.head? = some ref → ¬ names name) → after.lookUp? ref name = none

namespace Scopes.Admits

variable {env outer : Env} {names more : String → Prop} {scopes first second third : Scopes}

theorem refl (env : Env) (names : String → Prop) (scopes : Scopes) :
    Admits env names scopes scopes := ⟨.refl scopes, fun _ _ _ absent _ => absent⟩

theorem trans (early : Admits env names first second) (late : Admits env names second third) :
    Admits env names first third where
  grows := early.grows.trans late.grows
  unbound := by
    intro ref name inStore absent apart
    refine late.unbound ref name (inStore.trans_le early.grows.size_le) ?_ apart
    exact early.unbound ref name inStore absent apart

theorem mono (admits : Admits env names first second) (implies : ∀ name, names name → more name) :
    Admits env more first second where
  grows := admits.grows
  unbound := fun ref name inStore absent apart =>
    admits.unbound ref name inStore absent fun innermost new => apart innermost (implies name new)

theorem enter (outer : Env) (bindings : Bindings) :
    Admits env names scopes (scopes.enter outer bindings).2 where
  grows := scopes.grows_enter outer bindings
  unbound := by
    intro ref name inStore absent _
    rw [lookUp?_enter, if_neg inStore.ne]
    exact absent

theorem define {name : String} (value : Value) (declared : names name) :
    Admits env names scopes (scopes.define env name value) where
  grows := scopes.grows_define env name value
  unbound := by
    intro ref used inStore absent apart
    cases env with
    | nil => exact absent
    | cons innermost outer =>
        rw [lookUp?_define, if_neg]
        · exact absent
        · rintro ⟨same, rfl, _⟩
          have innermost_eq : innermost = ref := by
            cases innermost
            cases ref
            exact congrArg ScopeRef.mk same
          exact apart (congrArg some innermost_eq) declared

theorem assign {holder : Env} {name : String} (value : Value)
    (bound : ∀ ref ∈ holder.head?, (scopes.lookUp? ref name).isSome) :
    Admits env names scopes (scopes.define holder name value) where
  grows := scopes.grows_define holder name value
  unbound := by
    intro ref used inStore absent _
    cases holder with
    | nil => exact absent
    | cons innermost outer =>
        rw [lookUp?_define, if_neg]
        · exact absent
        · rintro ⟨same, rfl, _⟩
          have known := bound innermost rfl
          simp only [lookUp?, same] at known absent
          simp [absent] at known

theorem elsewhere (early : Admits env names first second) (late : Admits outer more second third)
    (opened : ∀ ref ∈ outer.head?, first.tables.size ≤ ref.index) : Admits env names first third where
  grows := early.grows.trans late.grows
  unbound := by
    intro ref name inStore absent apart
    refine late.unbound ref name (inStore.trans_le early.grows.size_le)
      (early.unbound ref name inStore absent apart) fun innermost => ?_
    exact absurd inStore (opened ref innermost).not_gt

end Scopes.Admits

theorem Scopes.isSome_of_holder? {scopes : Scopes} {env holder : Env} {name : String}
    (found : scopes.holder? env name = some holder) :
    ∀ ref ∈ holder.head?, (scopes.lookUp? ref name).isSome := by
  induction env with
  | nil => cases found
  | cons innermost outer ih =>
      unfold holder? at found
      split at found
      · rename_i bound
        cases found
        rintro ref ⟨⟩
        exact bound
      · exact ih found

theorem Scopes.isSome_of_holderAt? {scopes : Scopes} {env holder : Env} {distance : Nat}
    {name : String} (found : scopes.holderAt? env distance name = some holder) :
    ∀ ref ∈ holder.head?, (scopes.lookUp? ref name).isSome := by
  unfold holderAt? at found
  split at found
  · cases found
  · split at found
    · rename_i bound
      cases found
      rintro ref ⟨⟩
      exact bound
    · cases found

theorem Machine.isSome_of_holderOf? {machine : Machine} {id : ExprId} {holder : Env}
    {name : String} (found : machine.holderOf? id name = some holder) :
    ∀ ref ∈ holder.head?, (machine.scopes.lookUp? ref name).isSome := by
  unfold holderOf? at found
  split at found
  · exact Scopes.isSome_of_holderAt? found
  · exact Scopes.isSome_of_holder? found

def Stmt.Introduces : Stmt → String → Prop
  | .varDecl name _, used | .classDecl name _ _, used => name.lexeme = used
  | .functionDecl decl, used => decl.name.lexeme = used
  | .ifThen _ body, used | .whileLoop _ body, used => body.Introduces used
  | .ifElse _ thenBranch elseBranch, used =>
      thenBranch.Introduces used ∨ elseBranch.Introduces used
  | _, _ => False

theorem Stmt.Introduces.declared {used : String} (stmt : Stmt) (formed : stmt.Formed)
    (introduced : stmt.Introduces used) : ∃ name ∈ stmt.declared?, name.lexeme = used := by
  have nothing {body : Stmt} (undeclared : body.declared? = none) (formed : body.Formed)
      (introduced : body.Introduces used)
      (ih : body.Formed → body.Introduces used → ∃ name ∈ body.declared?, name.lexeme = used) :
      False := by
    obtain ⟨name, member, _⟩ := ih formed introduced
    rw [undeclared] at member
    cases member
  match stmt with
  | .expression _ | .print _ _ | .block _ | .returnStmt _ _ => exact introduced.elim
  | .varDecl name _ | .classDecl name _ _ => exact ⟨name, rfl, introduced⟩
  | .functionDecl decl => exact ⟨decl.name, rfl, introduced⟩
  | .ifThen _ body | .whileLoop _ body =>
      exact (nothing formed.1 formed.2 introduced (Introduces.declared body)).elim
  | .ifElse _ thenBranch elseBranch =>
      rcases introduced with introduced | introduced
      · exact (nothing formed.1.1 formed.1.2 introduced (Introduces.declared thenBranch)).elim
      · exact (nothing formed.2.1 formed.2.2 introduced (Introduces.declared elseBranch)).elim

def Task.Introduces : Task → String → Prop
  | execute _ stmt => stmt.Introduces
  | repeatWhile _ _ body => body.Introduces
  | declareClass name _ _ => (name.lexeme = ·)
  | executeAll _ _ | executeProgram _ _ => fun _ => True
  | _ => fun _ => False

namespace Plan

variable {α : Type} {bound : Nat} {names : String → Prop} {fresh : Option Env}

def Binds (names : String → Prop) : Option Env → Plan bound α → Prop
  | _, done _ | _, stop _ => True
  | _, act (.openScope _ _) next => ∀ env, (next env).Binds names (some env)
  | fresh, act (.define name _) next => names name ∧ (next ()).Binds names fresh
  | fresh, act _ next => ∀ answer, (next answer).Binds names fresh
  | fresh, start setting task next _ =>
      (match setting with
        | .here | .nested _ => ∀ name, task.Introduces name → names name
        | .inside env => fresh = some env) ∧
      ∀ result, (next result).Binds names fresh

theorem binds_orFailAt (place : Token) (result : Except RuntimeFault α) :
    (orFailAt place result : Plan bound α).Binds names fresh := by
  cases result <;> trivial

theorem binds_ofExpr (fuel : Nat) (expr : Expr) : (ofExpr fuel expr).Binds names fresh := by
  cases expr with
  | unary => exact ⟨fun _ => False.elim, fun _ => binds_orFailAt _ _⟩
  | binary =>
      exact ⟨fun _ => False.elim, fun _ => ⟨fun _ => False.elim, fun _ => binds_orFailAt _ _⟩⟩
  | _ =>
      unfold ofExpr
      repeat' first | intro _ | constructor | split | exact False.elim ‹_› | dsimp only

theorem binds_ofStmt (fuel : Nat) (stmt : Stmt) :
    (ofStmt fuel stmt).Binds stmt.Introduces fresh := by
  cases stmt with
  | ifElse condition thenBranch elseBranch =>
      refine ⟨fun _ => False.elim, fun value => ?_⟩
      dsimp only
      split
      · exact ⟨fun _ => .inl, fun _ => trivial⟩
      · exact ⟨fun _ => .inr, fun _ => trivial⟩
  | classDecl name superclass methods =>
      cases superclass with
      | none => exact ⟨fun _ => id, fun _ => trivial⟩
      | some parent =>
          refine ⟨fun _ => False.elim, fun value => ?_⟩
          dsimp only
          split
          · exact ⟨fun _ => id, fun _ => trivial⟩
          · trivial
  | _ =>
      unfold ofStmt
      repeat' first
        | intro _ | assumption | constructor | split | exact False.elim ‹_› | dsimp only

theorem binds_ofNative (arguments : List Value) (builtin : Native) :
    (ofNative arguments builtin : Plan bound Value).Binds names fresh := by
  unfold ofNative
  repeat' first | intro _ | constructor | split | dsimp only

theorem binds_ofCallable (fuel : Nat) (arguments : List Value) (callee : Callable) :
    (ofCallable fuel arguments callee).Binds names fresh := by
  cases callee with
  | native builtin => exact binds_ofNative arguments builtin
  | _ =>
      unfold ofCallable
      repeat' first | intro _ | constructor | split | exact False.elim ‹_›

def Opened (early : Scopes) (fresh : Option Env) : Prop :=
  ∀ env ∈ fresh, ∀ ref ∈ env.head?, early.tables.size ≤ ref.index

variable {early : Scopes} {machine : Machine}

theorem admits_change {deed : Deed} {next : deed.Result → Plan bound α}
    (binds : (act deed next).Binds names fresh) (opened : Opened early fresh)
    (soFar : Scopes.Admits machine.env names early machine.scopes) :
    Scopes.Admits machine.env names early (deed.change machine).scopes ∧
      ∃ fresh, (next (deed.answer machine)).Binds names fresh ∧ Opened early fresh := by
  cases deed with
  | openScope outer bindings =>
      refine ⟨soFar.trans (.enter outer bindings), _, binds _, ?_⟩
      rintro _ ⟨⟩ _ ⟨⟩
      exact soFar.grows.size_le
  | define name value => exact ⟨soFar.trans (.define value binds.1), fresh, binds.2, opened⟩
  | assign id name value =>
      refine ⟨?_, fresh, binds _, opened⟩
      simp only [Deed.change]
      split
      · rename_i holder found
        exact soFar.trans (.assign value (Machine.isSome_of_holderOf? found))
      · exact soFar
  | writeFile =>
      refine ⟨?_, fresh, binds _, opened⟩
      simp only [Deed.change]
      split <;> exact soFar
  | _ => exact ⟨soFar, fresh, binds _, opened⟩

theorem admits_around {setting : Setting} {task : Task} {next : task.Result → Plan bound α}
    {shorter : task.bound < bound} (binds : (start setting task next shorter).Binds names fresh)
    (inner : ∀ machine, Scopes.Admits machine.env task.Introduces machine.scopes
      (task.run.final machine).scopes)
    (opened : Opened early fresh) (soFar : Scopes.Admits machine.env names early machine.scopes) :
    Scopes.Admits machine.env names early ((setting.around task.run).final machine).scopes := by
  cases entered : setting.enter? machine with
  | none =>
      obtain ⟨paren, -, -, refused⟩ := Setting.around_of_none task.run entered
      simpa only [Run.final, refused] using soFar
  | some present =>
      rw [Setting.final_around entered]
      cases setting with
      | here =>
          cases entered
          exact soFar.trans ((inner machine).mono binds.1)
      | inside env =>
          cases entered
          exact soFar.elsewhere (inner { machine with env }) (opened env binds.1)
      | nested paren =>
          obtain ⟨-, ⟨⟩⟩ := Option.ite_none_right_eq_some.mp entered
          exact soFar.trans ((inner machine.calling).mono binds.1)

theorem Binds.admits {plan : Plan bound α} (binds : plan.Binds names fresh)
    (inner : ∀ task : Task, task.bound < bound → ∀ machine,
      Scopes.Admits machine.env task.Introduces machine.scopes (task.run.final machine).scopes)
    (opened : Opened early fresh) (soFar : Scopes.Admits machine.env names early machine.scopes) :
    Scopes.Admits machine.env names early ((plan.play Task.run).final machine).scopes := by
  induction plan generalizing machine fresh with
  | done | stop => exact soFar
  | act deed next ih =>
      obtain ⟨changed, fresh, binds, opened⟩ := admits_change binds opened soFar
      rw [← (deed.kept machine).env] at changed ⊢
      exact ih _ binds opened changed
  | start setting task next less ih =>
      have around := admits_around binds (inner task less) opened soFar
      have kept := lasting_kept.around task.keeps setting machine
      simp only [Run.final, play, Bind.bind, EStateM.bind] at around kept ⊢
      cases ended : setting.around task.run machine with
      | ok result after =>
          rw [ended] at around kept
          rw [← kept.env] at around ⊢
          exact ih result (binds.2 result) opened around
      | error abort after =>
          rw [ended] at around
          exact around

end Plan

open Plan in
theorem Task.binds (task : Task) : task.plan.Binds task.Introduces none := by
  unfold Task.plan
  split
  all_goals first
    | exact binds_ofExpr _ _
    | exact binds_ofCallable _ _ _
    | exact binds_ofStmt _ _
    | repeat' first
        | intro _ | assumption | constructor | split | exact False.elim ‹_›
        | dsimp only [ofExprs, ofCall, ofFunction, functionResult, ofStmts, ofLoop, ofClass, ofProgram]

theorem Task.admits (task : Task) (machine : Machine) :
    Scopes.Admits machine.env task.Introduces machine.scopes (task.run.final machine).scopes := by
  induction task using Task.induction generalizing machine with
  | step task shorter =>
      rw [← task.play_plan]
      exact task.binds.admits shorter (by rintro _ ⟨⟩) (.refl _ _ _)

theorem Task.admits_of_ok (task : Task) {machine after : Machine} {value : task.Result}
    (ended : task.run machine = .ok value after) :
    after.env = machine.env ∧
      Scopes.Admits machine.env task.Introduces machine.scopes after.scopes :=
  ⟨(task.keeps.of_ok ended).env, Run.final_of_ok ended ▸ task.admits machine⟩

def Task.exprs? : Task → Option (List Expr)
  | .evaluate _ expr => some [expr]
  | .evaluateAll _ exprs => some exprs
  | .evaluateOr _ expr => some expr.toList
  | _ => none

theorem Substep.begins_parts {task other : Task} {machine later : Machine} {exprs parts : List Expr}
    (begun : Substep task machine other later) (here : task.exprs? = some exprs)
    (there : other.exprs? = some parts) :
    (∀ part ∈ parts, part ∈ exprs ∨ ∃ expr ∈ exprs, part ∈ expr.parts) ∧
      later.env = machine.env ∧
      Scopes.Admits machine.env (fun _ => False) machine.scopes later.scopes := by
  have same : machine.env = machine.env ∧
      Scopes.Admits machine.env (fun _ => False) machine.scopes machine.scopes :=
    ⟨rfl, .refl _ _ _⟩
  cases begun with
  | firstOf | present =>
      cases here
      cases there
      exact ⟨by simp, same⟩
  | restOf ended =>
      cases here
      cases there
      exact ⟨fun part member => .inl (List.mem_cons_of_mem _ member),
        (Task.evaluate _ _).admits_of_ok ended⟩
  | arguments ended =>
      cases here
      cases there
      exact ⟨fun part member => .inr ⟨_, List.mem_cons_self, List.mem_cons_of_mem _ member⟩,
        (Task.evaluate _ _).admits_of_ok ended⟩
  | grouping | operand | binaryLeft | logicalLeft | commaLeft | condition | assigned | callee
  | getObject | setObject =>
      cases here
      cases there
      exact ⟨by simp [Expr.parts], same⟩
  | binaryRight ended | logicalRight ended | commaRight ended | thenBranch ended
  | elseBranch ended | setValue ended =>
      cases here
      cases there
      exact ⟨by simp [Expr.parts], (Task.evaluate _ _).admits_of_ok ended⟩
  | _ => simp [Task.exprs?] at here there

end Lox
