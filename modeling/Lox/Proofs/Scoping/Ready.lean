import Lox.Proofs.Scoping.Steps

/-!
When a task may begin. An expression or a statement is ready if the scopes of the machine stand for a
point of the walk at which it was found to be free of faults; a call is ready if what it is given is
sound. It is a law of a world that only ready tasks begin and that only what is sound is stored.
-/

namespace Lox

namespace World

section Ready

variable (world : World)

def ReadyExpr (machine : Machine) (expr : Expr) : Prop :=
  ∃ (site : Site) (enclosingClass : ClassContext) (pending : Option String),
    world.Stands machine.scopes machine.env site.regions (boundScopes pending site.scopes) ∧
    pending ≠ some "this" ∧ world.AdmitsExpr site enclosingClass pending expr

def ReadyStmt (machine : Machine) (stmt : Stmt) : Prop :=
  ∃ site : Site, world.Stands machine.scopes machine.env site.regions site.scopes ∧
    world.AdmitsStmt site stmt

def ReadyAll (machine : Machine) (stmts : List Stmt) : Prop :=
  ∃ site : Site, world.Stands machine.scopes machine.env site.regions site.scopes ∧
    world.AdmitsAll site stmts

def ReadyClass (machine : Machine) (name : Token) (isSubclass : Bool)
    (methods : List FunctionDecl) : Prop :=
  ∃ site : Site, world.Stands machine.scopes machine.env site.regions site.scopes ∧
    world.AdmitsMethods ((site.declare name).methods isSubclass methods) methods

def Ready (machine : Machine) : Task → Prop
  | .evaluate _ expr => world.ReadyExpr machine expr
  | .evaluateAll _ exprs => ∀ expr ∈ exprs, world.ReadyExpr machine expr
  | .evaluateOr _ expr => ∀ value ∈ expr, world.ReadyExpr machine value
  | .call _ function _ arguments =>
      world.ValueSound machine.scopes function ∧
        ∀ value ∈ arguments, world.ValueSound machine.scopes value
  | .invoke _ callee arguments =>
      world.ValueSound machine.scopes (.callable callee) ∧
        (∀ value ∈ arguments, world.ValueSound machine.scopes value) ∧
        arguments.length = callee.arity
  | .invokeFunction _ closure arguments =>
      world.FunctionSound machine.scopes closure ∧
        (∀ value ∈ arguments, world.ValueSound machine.scopes value) ∧
        arguments.length = closure.arity
  | .bindMethod method inst =>
      world.MethodSound machine.scopes method ∧ world.ClassSound machine.scopes inst.cls
  | .execute _ stmt => world.ReadyStmt machine stmt
  | .executeAll _ stmts => world.ReadyAll machine stmts
  | .repeatWhile _ condition body => world.ReadyStmt machine (.whileLoop condition body)
  | .declareClass name superclass methods =>
      world.ReadyClass machine name superclass.isSome methods ∧
        ∀ parent ∈ superclass, world.ClassSound machine.scopes parent
  | .executeProgram _ stmts =>
      ∃ around : Surroundings, machine.env = world.globals ∧ world.AdmitsAll ⟨around, [], []⟩ stmts

def Post (machine : Machine) : (task : Task) → task.Result → Scopes → Prop
  | .evaluate _ _ | .evaluateOr _ _ | .call _ _ _ _ | .invoke _ _ _ | .invokeFunction _ _ _ =>
      fun value store => world.ValueSound store value
  | .evaluateAll _ _ => fun values store => ∀ value ∈ values, world.ValueSound store value
  | .bindMethod method _ => fun bound store =>
      world.FunctionSound store bound ∧ bound.decl = method.decl
  | .execute _ stmt => fun flow store =>
      match flow with
      | .normal => ∀ name ∈ stmt.declared?, Bound store machine.env name.lexeme
      | .returned value => world.ValueSound store value
  | .executeAll _ _ | .repeatWhile _ _ _ => fun flow store =>
      ∀ value, flow = .returned value → world.ValueSound store value
  | .declareClass name _ _ => fun _ store => Bound store machine.env name.lexeme
  | .executeProgram _ _ => fun _ _ => True

def law : Law where
  admits task machine := world.Ready machine task
  permits deed machine := deed.Puts (world.ValueSound (deed.change machine).scopes)
  holds := world.Holds
  later := Onward
  yields task machine result after := world.Post machine task result after.scopes
  later_refl machine := ⟨.refl machine, .refl machine.scopes⟩
  later_trans early late := ⟨early.kept.trans late.kept, early.grows.trans late.grows⟩
  change permitted holds := ⟨⟨Deed.kept _ _, Deed.grows _ _⟩, holds.change permitted⟩
  enter entered holds := by
    obtain ⟨_, _, rfl⟩ := Setting.eq_of_enter entered
    exact holds.congr rfl rfl rfl rfl
  leave {setting machine present after} entered later holds := by
    have kept := lasting_kept.leave setting machine entered later.kept
    obtain ⟨_, _, rfl⟩ := Setting.eq_of_enter entered
    obtain ⟨_, _, same⟩ := setting.leave_eq machine after
    rw [same] at kept ⊢
    exact ⟨⟨kept, later.grows⟩, holds.congr rfl rfl rfl rfl⟩

end Ready

variable {world : World} {machine after : Machine}

section Parts

theorem ReadyExpr.later {expr : Expr} (ready : world.ReadyExpr machine expr)
    (onward : Onward machine after) : world.ReadyExpr after expr := by
  obtain ⟨site, enclosingClass, pending, stands, named, admitted⟩ := ready
  refine ⟨site, enclosingClass, pending, ?_, named, admitted⟩
  rw [onward.kept.env]
  exact stands.grow onward.grows

theorem ReadyStmt.later {stmt : Stmt} (ready : world.ReadyStmt machine stmt)
    (onward : Onward machine after) : world.ReadyStmt after stmt := by
  obtain ⟨site, stands, admitted⟩ := ready
  refine ⟨site, ?_, admitted⟩
  rw [onward.kept.env]
  exact stands.grow onward.grows

theorem ReadyClass.later {name : Token} {isSubclass : Bool} {methods : List FunctionDecl}
    (ready : world.ReadyClass machine name isSubclass methods)
    (onward : Onward machine after) : world.ReadyClass after name isSubclass methods := by
  obtain ⟨site, stands, admitted⟩ := ready
  refine ⟨site, ?_, admitted⟩
  rw [onward.kept.env]
  exact stands.grow onward.grows

theorem ReadyExpr.part {expr part : Expr} (ready : world.ReadyExpr machine expr)
    (member : part ∈ expr.parts) : world.ReadyExpr machine part := by
  obtain ⟨site, enclosingClass, pending, stands, named, admitted⟩ := ready
  exact ⟨site, enclosingClass, pending, stands, named, admitted.part member⟩

variable {stmt : Stmt}

theorem ReadyStmt.part {part : Expr} (ready : world.ReadyStmt machine stmt)
    (member : part ∈ stmt.parts) : world.ReadyExpr machine part := by
  obtain ⟨site, stands, admitted⟩ := ready
  refine ⟨site, site.around.enclosingClass, none, ?_, nofun, admitted.part member⟩
  rw [boundScopes_none]
  exact stands

theorem ReadyStmt.branch {branch : Stmt} (ready : world.ReadyStmt machine stmt)
    (member : branch ∈ stmt.branches) : world.ReadyStmt machine branch := by
  obtain ⟨site, stands, admitted⟩ := ready
  exact ⟨site, stands, (admitted.branch member).1⟩

theorem ReadyStmt.initializer {name : Token} {value : Option Expr}
    (ready : world.ReadyStmt machine (.varDecl name value)) :
    ∀ expr ∈ value, world.ReadyExpr machine expr := by
  rintro expr rfl
  obtain ⟨site, stands, admitted⟩ := ready
  refine ⟨site.declare name, _, _, stands.pending name, ?_, admitted.initializer⟩
  exact fun pending => admitted.formed (Resolution.eq_of_pendingName pending).symm

theorem ReadyStmt.superclass {name : Token} {parent : Expr} {methods : List FunctionDecl}
    (ready : world.ReadyStmt machine (.classDecl name (some parent) methods)) :
    world.ReadyExpr machine parent := by
  obtain ⟨site, stands, admitted⟩ := ready
  refine ⟨site.declare name, _, _, stands.pending name, ?_, admitted.superclass⟩
  exact fun pending => admitted.formed.1 (Resolution.eq_of_pendingName pending).symm

theorem ReadyStmt.class {name : Token} {superclass : Option Expr} {methods : List FunctionDecl}
    (ready : world.ReadyStmt machine (.classDecl name superclass methods)) :
    world.ReadyClass machine name superclass.isSome methods := by
  obtain ⟨site, stands, admitted⟩ := ready
  exact ⟨site, stands, admitted.methods⟩

theorem ReadyAll.rest {first : Stmt} {rest : List Stmt}
    (ready : world.ReadyAll machine (first :: rest)) (onward : Onward machine after)
    (bound : ∀ name ∈ first.declared?, Bound after.scopes machine.env name.lexeme) :
    world.ReadyAll after rest := by
  obtain ⟨site, stands, admitted⟩ := ready
  refine ⟨site.after first, ?_, admitted.rest⟩
  have later := stands.grow onward.grows
  have scopes := first.resolve_scopes site.around site.scopes admitted.first.formed
  rw [onward.kept.env]
  simp only [Site.after, scopes]
  cases declared : first.declared? with
  | none => exact later
  | some name => exact later.declare (bound name declared)

end Parts

section Parameters

theorem isSome_foldl_insert {pairs : List (Token × Value)} {table : Bindings} {name : String} :
    ((pairs.foldl (fun table (param, value) => table.insert param.lexeme value)
        table)[name]?).isSome ↔
      (table[name]?).isSome ∨ ∃ pair ∈ pairs, pair.1.lexeme = name := by
  induction pairs generalizing table with
  | nil => simp
  | cons pair rest ih =>
      obtain ⟨param, value⟩ := pair
      rw [List.foldl_cons, ih, Std.TreeMap.getElem?_insert]
      by_cases same : param.lexeme = name
      · simp [same]
      · simp [same]

theorem isSome_parameterBindings {params : List Token} {arguments : List Value}
    (enough : arguments.length = params.length) :
    ∀ param ∈ params, ((Run.parameterBindings params arguments)[param.lexeme]?).isSome := by
  intro param member
  refine isSome_foldl_insert.mpr (.inr ?_)
  have whole : (params.zip arguments).map Prod.fst = params :=
    List.map_fst_zip enough.ge
  rw [← whole] at member
  obtain ⟨pair, paired, rfl⟩ := List.mem_map.mp member
  exact ⟨pair, paired, rfl⟩

theorem declareAll_scopes (names : Scope) (outer : List Scope) (params : List Token) :
    ∃ declared, (Resolution.declareAll (names :: outer) params).2 = declared :: outer ∧
      ∀ name ∈ declared, name ∈ names ∨ ∃ param ∈ params, param.lexeme = name := by
  induction params generalizing names with
  | nil => exact ⟨names, rfl, fun name member => .inl member⟩
  | cons param params ih =>
      simp only [Resolution.declareAll, Resolution.declare]
      split
      · obtain ⟨declared, same, origin⟩ := ih names
        refine ⟨declared, same, fun name member => ?_⟩
        rcases origin name member with known | ⟨found, listed, rfl⟩
        · exact .inl known
        · exact .inr ⟨found, List.mem_cons_of_mem _ listed, rfl⟩
      · obtain ⟨declared, same, origin⟩ := ih (param.lexeme :: names)
        refine ⟨declared, same, fun name member => ?_⟩
        rcases origin name member with known | ⟨found, listed, rfl⟩
        · rcases List.mem_cons.mp known with rfl | known
          · exact .inr ⟨param, List.mem_cons_self, rfl⟩
          · exact .inl known
        · exact .inr ⟨found, List.mem_cons_of_mem _ listed, rfl⟩

end Parameters

theorem FunctionSound.entering {closure : Closure} {arguments : List Value} {fuel : Nat}
    (sound : world.FunctionSound machine.scopes closure)
    (enough : arguments.length = closure.arity)
    (moment : world.moments (.invokeFunction (fuel + 1) closure arguments) machine) :
    world.ReadyAll
      (machine.entering closure.env (Run.parameterBindings closure.decl.params arguments))
      closure.decl.body := by
  obtain ⟨site, stands, admitted⟩ := sound
  refine ⟨site.body closure.decl, ?_, admitted.body⟩
  obtain ⟨declared, same, origin⟩ := declareAll_scopes [] site.scopes closure.decl.params
  simp only [Site.body, same]
  refine stands.enter ⟨_, machine, moment, .function, rfl⟩ fun name member => ?_
  rcases origin name member with absent | ⟨param, listed, rfl⟩
  · cases absent
  · exact isSome_parameterBindings enough param listed

end World

end Lox
