import Lox.Proofs.Run.Simulation

/-!
Idle scopes. A scope is idle if nothing is ever declared in it. Here two runs are set side by side: one
of them opens idle scopes, and the other, the trimmed one, goes without. Their trees have the same form,
but in the trimmed run an idle scope is not counted in the depth of a name. Values of the two runs
correspond if their functions do, each in its own scopes, and what is read from machines that correspond,
or written to them, corresponds again.
-/

namespace Lox

/-! Scopes and depths. -/

/-- The scopes of the trimmed run in the order of their opening, as they are called in the other. -/
abbrev Roster := List ScopeRef

def Roster.Link (roster : Roster) (ref ref' : ScopeRef) : Prop := roster[ref'.index]? = some ref

theorem Roster.Link.mono {roster later : Roster} {ref ref' : ScopeRef} (link : roster.Link ref ref')
    (grown : roster <+: later) : later.Link ref ref' := by
  obtain ⟨added, rfl⟩ := grown
  have inside : ref'.index < roster.length := (List.getElem?_eq_some_iff.mp link).1
  exact (List.getElem?_append_left inside).trans link

/-- Which of the scopes around are idle, the innermost first. Further out none is. -/
abbrev Mask := List Bool

def Mask.Open (mask : Mask) : Prop := mask.head? ≠ some true

theorem Mask.open_cons (mask : Mask) : Mask.Open (false :: mask) := by simp [Mask.Open]

/-- The chain of scopes without the idle ones. -/
inductive Env.Trims (roster : Roster) : Mask → Env → Env → Prop
  | level {env env'} : List.Forall₂ roster.Link env env' → Trims roster [] env env'
  | shared {mask ref ref' env env'} : roster.Link ref ref' → Trims roster mask env env' →
      Trims roster (false :: mask) (ref :: env) (ref' :: env')
  | idle {mask ref env env'} : Trims roster mask env env' →
      Trims roster (true :: mask) (ref :: env) env'

/-- The two depths lead to the same scope. -/
inductive Passes : Mask → Nat → Nat → Prop
  | level (depth : Nat) : Passes [] depth depth
  | here (mask : Mask) : Passes (false :: mask) 0 0
  | past {mask depth depth'} : Passes mask depth depth' →
      Passes (false :: mask) (depth + 1) (depth' + 1)
  | idle {mask depth depth'} : Passes mask depth depth' → Passes (true :: mask) (depth + 1) depth'

/-- The two depths lead to the same scope, and so do those of the next scope inside it. -/
inductive PassesInside (mask : Mask) : Nat → Nat → Prop
  | innermost : PassesInside mask 0 0
  | within {depth depth'} : Passes mask (depth + 1) (depth' + 1) → Passes mask depth depth' →
      PassesInside mask (depth + 1) (depth' + 1)

theorem Passes.zero {mask : Mask} (isOpen : mask.Open) : Passes mask 0 0 := by
  match mask with
  | [] => exact .level 0
  | false :: outer => exact .here outer
  | true :: _ => exact absurd rfl isOpen

theorem PassesInside.level (depth : Nat) : PassesInside [] depth depth := by
  cases depth with
  | zero => exact .innermost
  | succ depth => exact .within (.level _) (.level _)

namespace Env.Trims

variable {roster later : Roster} {mask : Mask} {env env' : Env}

theorem mono (trims : Env.Trims roster mask env env') (grown : roster <+: later) :
    Env.Trims later mask env env' := by
  induction trims with
  | level links => exact .level (links.imp fun _ _ link => link.mono grown)
  | shared link _ ih => exact .shared (link.mono grown) ih
  | idle _ ih => exact .idle ih

theorem head_drop (trims : Env.Trims roster mask env env') {depth depth' : Nat}
    (passes : Passes mask depth depth') :
    Option.Rel roster.Link (env.drop depth).head? (env'.drop depth').head? := by
  induction trims generalizing depth depth' with
  | level links =>
      cases passes
      induction links generalizing depth with
      | nil =>
          rw [List.drop_nil]
          exact .none
      | cons link _ ih =>
          cases depth with
          | zero => exact .some link
          | succ depth => exact ih
  | shared link _ ih =>
      cases passes with
      | here => exact .some link
      | past passes => exact ih passes
  | idle _ ih =>
      cases passes with
      | idle passes => exact ih passes

theorem head (trims : Env.Trims roster mask env env') (isOpen : mask.Open) :
    Option.Rel roster.Link env.head? env'.head? := by
  cases trims with
  | level links =>
      cases links with
      | nil => exact .none
      | cons link _ => exact .some link
  | shared link _ => exact .some link
  | idle _ => exact absurd rfl isOpen

end Env.Trims

/-! Trees of the same form, of which the second is meant for the trimmed run. -/

structure Tables where
  full : Std.TreeMap ExprId Nat
  trimmed : Std.TreeMap ExprId Nat

section Trees

variable (tables : Tables)

inductive Expr.Trims (mask : Mask) : Expr → Expr → Prop
  | literal (value : Constant) : Trims mask (.literal value) (.literal value)
  | grouping {inner inner'} : Trims mask inner inner' →
      Trims mask (.grouping inner) (.grouping inner')
  | unary (operator : Token) {operand operand'} : Trims mask operand operand' →
      Trims mask (.unary operator operand) (.unary operator operand')
  | binary (operator : Token) {left left' right right'} : Trims mask left left' →
      Trims mask right right' →
      Trims mask (.binary left operator right) (.binary left' operator right')
  | logical (operator : Token) {left left' right right'} : Trims mask left left' →
      Trims mask right right' →
      Trims mask (.logical left operator right) (.logical left' operator right')
  | comma (operator : Token) {left left' right right'} : Trims mask left left' →
      Trims mask right right' →
      Trims mask (.comma left operator right) (.comma left' operator right')
  | conditional {condition condition' thenBranch thenBranch' elseBranch elseBranch'} :
      Trims mask condition condition' → Trims mask thenBranch thenBranch' →
      Trims mask elseBranch elseBranch' →
      Trims mask (.conditional condition thenBranch elseBranch)
        (.conditional condition' thenBranch' elseBranch')
  | var (name : Token) {id id' : ExprId} :
      Option.Rel (Passes mask) tables.full[id]? tables.trimmed[id']? →
      Trims mask (.var id name) (.var id' name)
  | assign (name : Token) {id id' : ExprId} {value value'} :
      Option.Rel (Passes mask) tables.full[id]? tables.trimmed[id']? → Trims mask value value' →
      Trims mask (.assign id name value) (.assign id' name value')
  | call (paren : Token) {callee callee' arguments arguments'} : Trims mask callee callee' →
      List.Forall₂ (Trims mask) arguments arguments' →
      Trims mask (.call callee paren arguments) (.call callee' paren arguments')
  | get (name : Token) {object object'} : Trims mask object object' →
      Trims mask (.get object name) (.get object' name)
  | set (name : Token) {object object' value value'} : Trims mask object object' →
      Trims mask value value' → Trims mask (.set object name value) (.set object' name value')
  | this (keyword : Token) {id id' : ExprId} :
      Option.Rel (Passes mask) tables.full[id]? tables.trimmed[id']? →
      Trims mask (.this id keyword) (.this id' keyword)
  | super (keyword method : Token) {id id' : ExprId} :
      Option.Rel (PassesInside mask) tables.full[id]? tables.trimmed[id']? →
      Trims mask (.super id keyword method) (.super id' keyword method)

def Mask.methods (mask : Mask) (isSubclass : Bool) : Mask :=
  if isSubclass then false :: false :: mask else false :: mask

mutual
/-- In an idle scope nothing is declared. -/
inductive Stmt.Trims : Mask → Stmt → Stmt → Prop
  | expression {mask value value'} : Expr.Trims tables mask value value' →
      Stmt.Trims mask (.expression value) (.expression value')
  | print {mask} (keyword : Token) {value value'} : Expr.Trims tables mask value value' →
      Stmt.Trims mask (.print keyword value) (.print keyword value')
  | varDecl {mask} (name : Token) {initializer initializer' : Option Expr} : mask.Open →
      Option.Rel (Expr.Trims tables mask) initializer initializer' →
      Stmt.Trims mask (.varDecl name initializer) (.varDecl name initializer')
  | block {mask body body'} : Stmt.TrimsAll (false :: mask) body body' →
      Stmt.Trims mask (.block body) (.block body')
  | ifThen {mask condition condition' thenBranch thenBranch'} :
      Expr.Trims tables mask condition condition' → Stmt.Trims mask thenBranch thenBranch' →
      Stmt.Trims mask (.ifThen condition thenBranch) (.ifThen condition' thenBranch')
  | ifElse {mask condition condition' thenBranch thenBranch' elseBranch elseBranch'} :
      Expr.Trims tables mask condition condition' → Stmt.Trims mask thenBranch thenBranch' →
      Stmt.Trims mask elseBranch elseBranch' →
      Stmt.Trims mask (.ifElse condition thenBranch elseBranch)
        (.ifElse condition' thenBranch' elseBranch')
  | whileLoop {mask condition condition' body body'} : Expr.Trims tables mask condition condition' →
      Stmt.Trims mask body body' →
      Stmt.Trims mask (.whileLoop condition body) (.whileLoop condition' body')
  | functionDecl {mask decl decl'} : mask.Open → FunctionDecl.Trims mask decl decl' →
      Stmt.Trims mask (.functionDecl decl) (.functionDecl decl')
  | returnStmt {mask} (keyword : Token) {value value' : Option Expr} :
      Option.Rel (Expr.Trims tables mask) value value' →
      Stmt.Trims mask (.returnStmt keyword value) (.returnStmt keyword value')
  | classDecl {mask} (name : Token) {superclass superclass' : Option Expr} {methods methods'} :
      mask.Open → Option.Rel (Expr.Trims tables mask) superclass superclass' →
      FunctionDecl.TrimsAll (mask.methods superclass.isSome) methods methods' →
      Stmt.Trims mask (.classDecl name superclass methods) (.classDecl name superclass' methods')

inductive Stmt.TrimsAll : Mask → List Stmt → List Stmt → Prop
  | nil {mask} : Stmt.TrimsAll mask [] []
  | cons {mask first first' rest rest'} : Stmt.Trims mask first first' →
      Stmt.TrimsAll mask rest rest' → Stmt.TrimsAll mask (first :: rest) (first' :: rest')

inductive FunctionDecl.Trims : Mask → FunctionDecl → FunctionDecl → Prop
  | intro {mask} (id : DeclId) (name : Token) (params : List Token) {body body'} :
      Stmt.TrimsAll (false :: mask) body body' →
      FunctionDecl.Trims mask ⟨id, name, params, body⟩ ⟨id, name, params, body'⟩

inductive FunctionDecl.TrimsAll : Mask → List FunctionDecl → List FunctionDecl → Prop
  | nil {mask} : FunctionDecl.TrimsAll mask [] []
  | cons {mask first first' rest rest'} : FunctionDecl.Trims mask first first' →
      FunctionDecl.TrimsAll mask rest rest' →
      FunctionDecl.TrimsAll mask (first :: rest) (first' :: rest')
end

end Trees

namespace FunctionDecl.Trims

variable {tables : Tables} {mask : Mask} {decl decl' : FunctionDecl}

theorem id (trims : decl.Trims tables mask decl') : decl'.id = decl.id := by
  cases trims
  rfl

theorem name (trims : decl.Trims tables mask decl') : decl'.name = decl.name := by
  cases trims
  rfl

theorem params (trims : decl.Trims tables mask decl') : decl'.params = decl.params := by
  cases trims
  rfl

theorem body (trims : decl.Trims tables mask decl') :
    Stmt.TrimsAll tables (false :: mask) decl.body decl'.body := by
  cases trims with
  | intro _ _ _ body => exact body

end FunctionDecl.Trims

theorem Stmt.TrimsAll.forall₂ {tables : Tables} {mask : Mask} {stmts stmts' : List Stmt}
    (trims : Stmt.TrimsAll tables mask stmts stmts') :
    List.Forall₂ (Stmt.Trims tables mask) stmts stmts' := by
  match stmts, trims with
  | [], .nil => exact .nil
  | _ :: _, .cons first rest => exact .cons first rest.forall₂

theorem FunctionDecl.TrimsAll.forall₂ {tables : Tables} {mask : Mask}
    {decls decls' : List FunctionDecl} (trims : FunctionDecl.TrimsAll tables mask decls decls') :
    List.Forall₂ (FunctionDecl.Trims tables mask) decls decls' := by
  match decls, trims with
  | [], .nil => exact .nil
  | _ :: _, .cons first rest => exact .cons first rest.forall₂

/-! Values of the two runs. -/

section Values

variable (tables : Tables) (roster : Roster)

structure Closure.Trims (closure closure' : Closure) : Prop where
  declared : ∃ mask : Mask, mask.Open ∧ Env.Trims roster mask closure.env closure'.env ∧
    closure.decl.Trims tables mask closure'.decl
  isInitializer : closure'.isInitializer = closure.isInitializer

/-- Methods that have no receiver yet: its scope will be around them. -/
structure Closure.TrimsUnbound (method method' : Closure) : Prop where
  declared : ∃ mask : Mask, Env.Trims roster mask method.env method'.env ∧
    method.decl.Trims tables (false :: mask) method'.decl
  isInitializer : method'.isInitializer = method.isInitializer

structure ClassBody.Trims (body body' : ClassBody) : Prop where
  id : body'.id = body.id
  name : body'.name = body.name
  methods : TablesMatch (Closure.TrimsUnbound tables roster) body.methods body'.methods

def ClassObject.Trims (cls cls' : ClassObject) : Prop :=
  List.Forall₂ (ClassBody.Trims tables roster) cls.chain cls'.chain

structure Instance.Trims (inst inst' : Instance) : Prop where
  index : inst'.index = inst.index
  cls : inst.cls.Trims tables roster inst'.cls

inductive Callable.Trims : Callable → Callable → Prop
  | native (builtin : Native) : Callable.Trims (.native builtin) (.native builtin)
  | function {closure closure'} : closure.Trims tables roster closure' →
      Callable.Trims (.function closure) (.function closure')
  | constructor {cls cls'} : cls.Trims tables roster cls' →
      Callable.Trims (.constructor cls) (.constructor cls')

inductive Value.Trims : Value → Value → Prop
  | nil : Value.Trims .nil .nil
  | bool (value : Bool) : Value.Trims (.bool value) (.bool value)
  | number (value : Number) : Value.Trims (.number value) (.number value)
  | string (value : String) : Value.Trims (.string value) (.string value)
  | callable {callable callable'} : callable.Trims tables roster callable' →
      Value.Trims (.callable callable) (.callable callable')
  | object {inst inst'} : inst.Trims tables roster inst' →
      Value.Trims (.object inst) (.object inst')

inductive Flow.Trims : Flow → Flow → Prop
  | normal : Flow.Trims .normal .normal
  | returned {value value'} : value.Trims tables roster value' →
      Flow.Trims (.returned value) (.returned value')

end Values

section Alike

variable {tables : Tables} {roster later : Roster}

/-! What corresponds goes on corresponding when more scopes are opened. -/

theorem Closure.Trims.mono {closure closure' : Closure}
    (trims : closure.Trims tables roster closure') (grown : roster <+: later) :
    closure.Trims tables later closure' := by
  obtain ⟨⟨mask, isOpen, env, decl⟩, isInitializer⟩ := trims
  exact ⟨⟨mask, isOpen, env.mono grown, decl⟩, isInitializer⟩

theorem ClassObject.Trims.mono {cls cls' : ClassObject} (trims : cls.Trims tables roster cls')
    (grown : roster <+: later) : cls.Trims tables later cls' := by
  refine List.Forall₂.imp (fun body body' trims => ⟨trims.id, trims.name, fun name => ?_⟩) trims
  refine relImp (fun method method' trims => ?_) (trims.methods name)
  obtain ⟨⟨mask, env, decl⟩, isInitializer⟩ := trims
  exact ⟨⟨mask, env.mono grown, decl⟩, isInitializer⟩

theorem Instance.Trims.mono {inst inst' : Instance} (trims : inst.Trims tables roster inst')
    (grown : roster <+: later) : inst.Trims tables later inst' :=
  ⟨trims.index, trims.cls.mono grown⟩

theorem Callable.Trims.mono {callable callable' : Callable}
    (trims : callable.Trims tables roster callable') (grown : roster <+: later) :
    callable.Trims tables later callable' := by
  cases trims with
  | native builtin => exact .native builtin
  | function closure => exact .function (closure.mono grown)
  | constructor cls => exact .constructor (cls.mono grown)

theorem Value.Trims.mono {value value' : Value} (trims : value.Trims tables roster value')
    (grown : roster <+: later) : value.Trims tables later value' := by
  cases trims with
  | nil => exact .nil
  | bool value => exact .bool value
  | number value => exact .number value
  | string value => exact .string value
  | callable callable => exact .callable (callable.mono grown)
  | object inst => exact .object (inst.mono grown)

/-! Values correspond if their functions do. -/

theorem Roster.link_inj (nodup : roster.Nodup) {ref ref' other other' : ScopeRef}
    (link : roster.Link ref ref') (link' : roster.Link other other') :
    ref' = other' ↔ ref = other := by
  constructor
  · rintro rfl
    exact Option.some.inj (link.symm.trans link')
  · rintro rfl
    have inside : ref'.index < roster.length := (List.getElem?_eq_some_iff.mp link).1
    have same : ref'.index = other'.index :=
      (List.getElem?_inj inside nodup).mp (link.trans link'.symm)
    cases ref'
    cases other'
    exact congrArg ScopeRef.mk same

theorem Closure.Trims.same (nodup : roster.Nodup) {closure closure' other other' : Closure}
    (trims : closure.Trims tables roster closure') (trims' : other.Trims tables roster other') :
    closure'.same other' = closure.same other := by
  obtain ⟨⟨mask, isOpen, env, decl⟩, -⟩ := trims
  obtain ⟨⟨mask', isOpen', env', decl'⟩, -⟩ := trims'
  have heads : closure'.env.head? = other'.env.head? ↔ closure.env.head? = other.env.head? := by
    rcases relCases (env.head isOpen) with ⟨none, none'⟩ | ⟨ref, ref', found, found', link⟩ <;>
      rcases relCases (env'.head isOpen') with
        ⟨none₁, none₁'⟩ | ⟨other, other', found₁, found₁', link'⟩
    · simp [none, none', none₁, none₁']
    · simp [none, none', found₁, found₁']
    · simp [found, found', none₁, none₁']
    · simpa [found, found', found₁, found₁'] using Roster.link_inj nodup link link'
  simp only [Closure.same, decl.id, decl'.id, heads]

def Tables.kin (tables : Tables) (roster : { roster : Roster // roster.Nodup }) : Kinship where
  Functions := Closure.Trims tables roster
  Methods := Closure.TrimsUnbound tables roster
  name := by
    rintro _ _ ⟨⟨mask, -, -, decl⟩, -⟩
    exact congrArg Token.lexeme decl.name
  arity := by
    rintro _ _ ⟨⟨mask, -, -, decl⟩, -⟩
    exact congrArg List.length decl.params
  methodArity := by
    rintro _ _ ⟨⟨mask, -, decl⟩, -⟩
    exact congrArg List.length decl.params
  same := Closure.Trims.same roster.2

variable {world : { roster : Roster // roster.Nodup }}

theorem ClassObject.trims_iff {cls cls' : ClassObject} :
    cls.Trims tables world cls' ↔ cls.Alike (tables.kin world) cls' :=
  ⟨List.Forall₂.imp fun _ _ body => ⟨body.id, body.name, body.methods⟩,
    List.Forall₂.imp fun _ _ body => ⟨body.id, body.name, body.methods⟩⟩

theorem Value.trims_iff {value value' : Value} :
    value.Trims tables world value' ↔ value.Alike (tables.kin world) value' := by
  constructor
  · rintro (_ | _ | _ | _ | (_ | closure | cls) | inst)
    case callable.native => exact .callable (.native _)
    case callable.function => exact .callable (.function closure)
    case callable.constructor => exact .callable (.constructor (ClassObject.trims_iff.mp cls))
    case object => exact .object ⟨inst.index, ClassObject.trims_iff.mp inst.cls⟩
    all_goals constructor
  · rintro (_ | _ | _ | _ | (_ | closure | cls) | inst)
    case callable.native => exact .callable (.native _)
    case callable.function => exact .callable (.function closure)
    case callable.constructor => exact .callable (.constructor (ClassObject.trims_iff.mpr cls))
    case object => exact .object ⟨inst.index, ClassObject.trims_iff.mpr inst.cls⟩
    all_goals constructor

theorem Flow.trims_of_alike {flow flow' : Flow} (alike : flow.Alike (tables.kin world) flow') :
    flow.Trims tables world flow' := by
  cases alike with
  | normal => exact .normal
  | returned value => exact .returned (Value.trims_iff.mpr value)

theorem Value.Trims.isTruthy {value value' : Value} (trims : value.Trims tables roster value') :
    value'.isTruthy = value.isTruthy := by
  cases trims <;> rfl

end Alike

end Lox
