import Lox.Proofs.Run.Discipline
import Lox.Proofs.Run.Law
import Lox.Proofs.Scoping.Parsed

/-!
What every value knows about its scopes. A world is a record of what has happened: the tasks that were
begun and the uses of names that the resolver has visited. In a world a chain of scopes stands for the
open scopes of a point of the walk if each of them was opened for the region at its place and binds the
names that were declared there. A function is sound if its scopes stand for a point at which its
declaration was found to be free of faults; soundness is kept when more names are bound and more scopes
are opened.
-/

namespace Lox

/-- The task opens a scope for the region before it does anything else to the store of scopes. -/
inductive Task.Opens : Task → Region → Prop
  | block {fuel body} : Opens (.execute (fuel + 1) (.block body)) (.block body)
  | function {fuel closure arguments} :
      Opens (.invokeFunction (fuel + 1) closure arguments) (.function closure.decl)
  | this {method inst methods} : method.decl ∈ methods →
      Opens (.bindMethod method inst) (.this methods)
  | super {name parent methods} :
      Opens (.declareClass name (some parent) methods) (.super methods)

structure Grows (before after : Scopes) : Prop where
  size_le : before.tables.size ≤ after.tables.size
  binds : ∀ ref name, (before.lookUp? ref name).isSome → (after.lookUp? ref name).isSome

namespace Grows

theorem refl (scopes : Scopes) : Grows scopes scopes := ⟨le_rfl, fun _ _ bound => bound⟩

theorem trans {first second third : Scopes} (early : Grows first second)
    (late : Grows second third) : Grows first third where
  size_le := early.size_le.trans late.size_le
  binds := fun ref name bound => late.binds ref name (early.binds ref name bound)

end Grows

namespace Scopes

theorem grows_enter (scopes : Scopes) (outer : Env) (bindings : Bindings) :
    Grows scopes (scopes.enter outer bindings).2 where
  size_le := by simp [enter]
  binds := by
    intro ref name bound
    rw [lookUp?_enter]
    split
    · rename_i fresh
      simp [lookUp?, fresh] at bound
    · exact bound

theorem grows_define (scopes : Scopes) (env : Env) (name : String) (value : Value) :
    Grows scopes (scopes.define env name value) := by
  cases env with
  | nil => exact .refl scopes
  | cons ref outer =>
      refine ⟨(scopes.size_define _ name value).ge, fun other used bound => ?_⟩
      rw [lookUp?_define]
      split
      · rfl
      · exact bound

end Scopes

theorem Deed.grows (deed : Deed) (machine : Machine) :
    Grows machine.scopes (deed.change machine).scopes := by
  cases deed with
  | assign =>
      simp only [change]
      split
      · exact Scopes.grows_define _ _ _ _
      · exact .refl _
  | define => exact Scopes.grows_define _ _ _ _
  | openScope outer bindings => exact Scopes.grows_enter _ outer bindings
  | writeFile =>
      simp only [change]
      split <;> exact .refl _
  | _ => exact .refl _

/-- What has happened so far: the tasks that were begun, each in its state of the machine, the uses of
names that were visited and the depths that were recorded. -/
structure World where
  moments : Task → Machine → Prop
  begun : ∀ {task machine other later}, moments task machine →
    Substep task machine other later → moments other later
  visits : Visit → Prop
  depths : Std.TreeMap ExprId Nat
  globals : Env

namespace World

variable (world : World)

def Activates (ref : ScopeRef) (region : Region) : Prop :=
  ∃ task machine, world.moments task machine ∧ task.Opens region ∧
    ref = ⟨machine.scopes.tables.size⟩

/-- The chain of scopes, from the innermost out to the globals, stands for these open scopes. -/
inductive Stands (store : Scopes) : Env → List Region → List Scope → Prop
  | globals : Stands store world.globals [] []
  | inner {ref env region regions names scopes} : world.Activates ref region →
      ref.index < store.tables.size → (∀ name ∈ names, (store.lookUp? ref name).isSome) →
      Stands store env regions scopes →
      Stands store (ref :: env) (region :: regions) (names :: scopes)

structure AdmitsFunction (site : Site) (decl : FunctionDecl) : Prop where
  clean : (decl.resolve site.around site.scopes).errors = []
  formed : decl.Formed
  visited : ∀ visit ∈ decl.visits site, world.visits visit

def FunctionSound (store : Scopes) (closure : Closure) : Prop :=
  ∃ site, world.Stands store closure.env site.regions site.scopes ∧
    world.AdmitsFunction site closure.decl

/-- A method lies in the scopes of its class; its own point of the walk is inside `this`. -/
def MethodSound (store : Scopes) (method : Closure) : Prop :=
  ∃ (site : Site) (methods : List FunctionDecl),
    world.Stands store method.env site.regions site.scopes ∧ method.decl ∈ methods ∧
    world.AdmitsFunction (site.enter (.this methods) ["this"]) method.decl

def ClassSound (store : Scopes) (cls : ClassObject) : Prop :=
  ∀ body ∈ cls.chain, ∀ (name : String) method, body.methods[name]? = some method →
    world.MethodSound store method

def ValueSound (store : Scopes) : Value → Prop
  | .callable (.function closure) => world.FunctionSound store closure
  | .callable (.constructor cls) => world.ClassSound store cls
  | .object inst => world.ClassSound store inst.cls
  | _ => True

structure Holds (machine : Machine) : Prop where
  globals : machine.globals = world.globals
  depths : machine.depths = world.depths
  bound : ∀ ref name value, machine.scopes.lookUp? ref name = some value →
    world.ValueSound machine.scopes value
  fields : ∀ inst name value, machine.field? inst name = some value →
    world.ValueSound machine.scopes value

variable {world}

theorem Stands.grow {before after : Scopes} {env : Env} {regions : List Region}
    {scopes : List Scope} (stands : world.Stands before env regions scopes)
    (grows : Grows before after) : world.Stands after env regions scopes := by
  induction stands with
  | globals => exact .globals
  | inner activated inStore bound _ ih =>
      exact .inner activated (inStore.trans_le grows.size_le)
        (fun name member => grows.binds _ _ (bound name member)) ih

theorem FunctionSound.grow {before after : Scopes} {closure : Closure}
    (sound : world.FunctionSound before closure) (grows : Grows before after) :
    world.FunctionSound after closure := by
  obtain ⟨site, stands, admitted⟩ := sound
  exact ⟨site, stands.grow grows, admitted⟩

theorem MethodSound.grow {before after : Scopes} {method : Closure}
    (sound : world.MethodSound before method) (grows : Grows before after) :
    world.MethodSound after method := by
  obtain ⟨site, methods, stands, member, admitted⟩ := sound
  exact ⟨site, methods, stands.grow grows, member, admitted⟩

theorem ClassSound.grow {before after : Scopes} {cls : ClassObject}
    (sound : world.ClassSound before cls) (grows : Grows before after) :
    world.ClassSound after cls :=
  fun body member name method found => (sound body member name method found).grow grows

theorem ValueSound.grow {before after : Scopes} {value : Value}
    (sound : world.ValueSound before value) (grows : Grows before after) :
    world.ValueSound after value := by
  match value with
  | .callable (.function closure) => exact FunctionSound.grow sound grows
  | .callable (.constructor cls) => exact ClassSound.grow sound grows
  | .object inst => exact ClassSound.grow sound grows
  | .nil | .bool _ | .number _ | .string _ | .callable (.native _) => trivial

structure Le (small big : World) : Prop where
  moments : ∀ task machine, small.moments task machine → big.moments task machine
  visits : ∀ visit, small.visits visit → big.visits visit
  globals : big.globals = small.globals

section Le

variable {big : World} (le : Le world big) {store : Scopes}
include le

theorem Stands.mono {env : Env} {regions : List Region} {scopes : List Scope}
    (stands : world.Stands store env regions scopes) : big.Stands store env regions scopes := by
  induction stands with
  | globals =>
      rw [← le.globals]
      exact .globals
  | inner activated inStore bound _ ih =>
      obtain ⟨task, machine, moment, opens, fresh⟩ := activated
      exact .inner ⟨task, machine, le.moments task machine moment, opens, fresh⟩ inStore bound ih

theorem AdmitsFunction.mono {site : Site} {decl : FunctionDecl}
    (admitted : world.AdmitsFunction site decl) : big.AdmitsFunction site decl :=
  ⟨admitted.clean, admitted.formed,
    fun visit member => le.visits visit (admitted.visited visit member)⟩

theorem FunctionSound.mono {closure : Closure} (sound : world.FunctionSound store closure) :
    big.FunctionSound store closure := by
  obtain ⟨site, stands, admitted⟩ := sound
  exact ⟨site, stands.mono le, admitted.mono le⟩

theorem ClassSound.mono {cls : ClassObject} (sound : world.ClassSound store cls) :
    big.ClassSound store cls := by
  intro body member name method found
  obtain ⟨site, methods, stands, listed, admitted⟩ := sound body member name method found
  exact ⟨site, methods, stands.mono le, listed, admitted.mono le⟩

theorem ValueSound.mono {value : Value} (sound : world.ValueSound store value) :
    big.ValueSound store value := by
  match value with
  | .callable (.function closure) => exact FunctionSound.mono le sound
  | .callable (.constructor cls) => exact ClassSound.mono le sound
  | .object inst => exact ClassSound.mono le sound
  | .nil | .bool _ | .number _ | .string _ | .callable (.native _) => trivial

theorem Holds.mono {machine other : Machine} (holds : world.Holds machine)
    (globals : other.globals = machine.globals) (depths : other.depths = big.depths)
    (scopes : other.scopes = machine.scopes) (fields : other.fields = machine.fields) :
    big.Holds other where
  globals := by rw [globals, le.globals, holds.globals]
  depths := depths
  bound := by
    rw [scopes]
    exact fun ref name value bound => (holds.bound ref name value bound).mono le
  fields := by
    rw [scopes]
    simp only [Machine.field?, fields]
    exact fun inst name value found => (holds.fields inst name value found).mono le

end Le

theorem ClassSound.findMethod? {store : Scopes} {cls : ClassObject} {name : String}
    {method : Closure} (sound : world.ClassSound store cls)
    (found : cls.findMethod? name = some method) : world.MethodSound store method := by
  obtain ⟨body, member, holds⟩ := List.exists_of_findSome?_eq_some found
  exact sound body member name method holds

end World

/-- Of the open scopes, the names that are bound while `pending` has no value yet. -/
def boundScopes (pending : Option String) : List Scope → List Scope
  | [] => []
  | names :: outer => names.filter (pending ≠ some ·) :: outer

theorem boundScopes_none (scopes : List Scope) : boundScopes none scopes = scopes := by
  cases scopes <;> simp [boundScopes]

theorem Resolution.eq_of_pendingName {scopes : List Scope} {name : Token} {pending : String}
    (found : pendingName scopes name = some pending) : pending = name.lexeme := by
  unfold pendingName at found
  split at found
  · cases found
  · split at found
    · cases found
    · exact (Option.some.inj found).symm

namespace World

variable (world : World)

structure AdmitsExpr (site : Site) (enclosingClass : ClassContext) (pending : Option String)
    (expr : Expr) : Prop where
  clean : (expr.resolve enclosingClass site.scopes pending).errors = []
  visited : ∀ visit ∈ site.visits expr.uses, world.visits visit

structure AdmitsStmt (site : Site) (stmt : Stmt) : Prop where
  clean : (stmt.resolve site.around site.scopes).1.errors = []
  formed : stmt.Formed
  visited : ∀ visit ∈ stmt.visits site, world.visits visit

structure AdmitsAll (site : Site) (stmts : List Stmt) : Prop where
  clean : (Stmt.resolveAll site.around site.scopes stmts).errors = []
  formed : Stmt.FormedAll stmts
  visited : ∀ visit ∈ Stmt.visitsAll site stmts, world.visits visit

structure AdmitsMethods (site : Site) (methods : List FunctionDecl) : Prop where
  clean : (FunctionDecl.resolveMethods site.around site.scopes methods).errors = []
  formed : FunctionDecl.FormedAll methods
  visited : ∀ visit ∈ FunctionDecl.visitsMethods site methods, world.visits visit

variable {world} {site : Site}

theorem AdmitsExpr.part {enclosingClass : ClassContext} {pending : Option String}
    {expr part : Expr} (admitted : world.AdmitsExpr site enclosingClass pending expr)
    (member : part ∈ expr.parts) : world.AdmitsExpr site enclosingClass pending part where
  clean := Expr.resolve_clean admitted.clean member
  visited := by
    intro visit visited
    obtain ⟨use, used, rfl⟩ := List.mem_map.mp visited
    exact admitted.visited _ (List.mem_map.mpr ⟨use, Expr.uses_of_parts member used, rfl⟩)

theorem AdmitsStmt.part {stmt : Stmt} {part : Expr} (admitted : world.AdmitsStmt site stmt)
    (member : part ∈ stmt.parts) :
    world.AdmitsExpr site site.around.enclosingClass none part := by
  obtain ⟨clean, formed, visited⟩ := admitted
  cases stmt with
  | varDecl | block | functionDecl | classDecl => simp [Stmt.parts] at member
  | expression value | print _ value =>
      obtain rfl : part = value := by simpa [Stmt.parts] using member
      exact ⟨clean, visited⟩
  | ifThen condition _ | whileLoop condition _ =>
      obtain rfl : part = condition := by simpa [Stmt.parts] using member
      simp only [Stmt.resolve, Resolution.errors_append, List.append_eq_nil_iff] at clean
      simp only [Stmt.visits, List.forall_mem_append] at visited
      exact ⟨clean.1, visited.1⟩
  | ifElse condition _ _ =>
      obtain rfl : part = condition := by simpa [Stmt.parts] using member
      simp only [Stmt.resolve, Resolution.errors_append, List.append_eq_nil_iff] at clean
      simp only [Stmt.visits, List.forall_mem_append] at visited
      exact ⟨clean.1.1, visited.1.1⟩
  | returnStmt keyword value =>
      obtain rfl : value = some part := by simpa [Stmt.parts] using member
      simp only [Stmt.resolve, Resolution.errors_append, List.append_eq_nil_iff] at clean
      refine ⟨Expr.resolveAll_clean clean.2 part (by simp), ?_⟩
      simpa [Stmt.visits, Expr.usesAll] using visited

theorem AdmitsStmt.branch {stmt branch : Stmt} (admitted : world.AdmitsStmt site stmt)
    (member : branch ∈ stmt.branches) :
    world.AdmitsStmt site branch ∧ branch.declared? = none := by
  obtain ⟨clean, formed, visited⟩ := admitted
  cases stmt with
  | ifThen condition body | whileLoop condition body =>
      obtain rfl : branch = body := by simpa [Stmt.branches] using member
      simp only [Stmt.resolve, Resolution.errors_append, List.append_eq_nil_iff] at clean
      simp only [Stmt.visits, List.forall_mem_append] at visited
      exact ⟨⟨clean.2, formed.2, visited.2⟩, formed.1⟩
  | ifElse condition thenBranch elseBranch =>
      simp only [Stmt.resolve, Resolution.errors_append, List.append_eq_nil_iff] at clean
      simp only [Stmt.visits, List.forall_mem_append] at visited
      obtain ⟨⟨undeclared, formedThen⟩, undeclared', formedElse⟩ := formed
      have same : site.after thenBranch = site := Site.after_eq formedThen undeclared
      simp only [Stmt.branches, List.mem_cons, List.not_mem_nil, or_false] at member
      rcases member with rfl | rfl
      · exact ⟨⟨clean.1.2, formedThen, visited.1.2⟩, undeclared⟩
      · refine ⟨⟨?_, formedElse, ?_⟩, undeclared'⟩
        · have scopes : (thenBranch.resolve site.around site.scopes).2 = site.scopes :=
            congrArg Site.scopes same
          simpa only [scopes] using clean.2
        · simpa only [same] using visited.2
  | _ => simp [Stmt.branches] at member

theorem AdmitsStmt.block {body : List Stmt} (admitted : world.AdmitsStmt site (.block body)) :
    world.AdmitsAll (site.enter (.block body) []) body :=
  ⟨admitted.clean, admitted.formed, admitted.visited⟩

theorem AdmitsStmt.initializer {name : Token} {value : Expr}
    (admitted : world.AdmitsStmt site (.varDecl name (some value))) :
    world.AdmitsExpr (site.declare name) site.around.enclosingClass
      (Resolution.pendingName site.scopes name) value := by
  obtain ⟨clean, _, visited⟩ := admitted
  simp only [Stmt.resolve, Resolution.errors_append, List.append_eq_nil_iff] at clean
  refine ⟨Expr.resolveAll_clean clean.2 value (by simp), ?_⟩
  simpa [Stmt.visits, Expr.usesAll] using visited

theorem AdmitsStmt.function {decl : FunctionDecl}
    (admitted : world.AdmitsStmt site (.functionDecl decl)) :
    world.AdmitsFunction ((site.declare decl.name).inFunction .function) decl := by
  obtain ⟨clean, formed, visited⟩ := admitted
  simp only [Stmt.resolve, Resolution.errors_append, List.append_eq_nil_iff] at clean
  exact ⟨clean.2, formed, visited⟩

theorem AdmitsStmt.superclass {name : Token} {parent : Expr} {methods : List FunctionDecl}
    (admitted : world.AdmitsStmt site (.classDecl name (some parent) methods)) :
    world.AdmitsExpr (site.declare name) .subclass (Resolution.pendingName site.scopes name)
      parent := by
  obtain ⟨clean, formed, visited⟩ := admitted
  obtain ⟨id, used, rfl⟩ := formed.2.1 parent rfl
  simp only [Stmt.resolve, Resolution.errors_append, List.append_eq_nil_iff] at clean
  simp only [Stmt.visits, List.forall_mem_append] at visited
  refine ⟨?_, by simpa [Expr.usesAll] using visited.1⟩
  have different : used.lexeme ≠ name.lexeme := by
    intro same
    simp [Expr.useOf?, same, Resolution.error] at clean
  simp only [Expr.resolve, Resolution.errors_append, Resolution.errors_lookUp, List.append_nil]
  rw [if_neg]
  · rfl
  · exact fun pending => different (Resolution.eq_of_pendingName pending)

theorem AdmitsStmt.methods {name : Token} {superclass : Option Expr} {methods : List FunctionDecl}
    (admitted : world.AdmitsStmt site (.classDecl name superclass methods)) :
    world.AdmitsMethods ((site.declare name).methods superclass.isSome methods) methods := by
  obtain ⟨clean, formed, visited⟩ := admitted
  simp only [Stmt.visits, List.forall_mem_append] at visited
  refine ⟨?_, formed.2.2, visited.2⟩
  cases superclass <;>
    simp only [Stmt.resolve, Resolution.errors_append, List.append_eq_nil_iff] at clean <;>
    exact clean.2

theorem AdmitsMethods.method {methods : List FunctionDecl}
    (admitted : world.AdmitsMethods site methods) :
    ∀ method ∈ methods,
      world.AdmitsFunction (site.inFunction (.ofMethod method.name)) method := by
  induction methods with
  | nil => simp
  | cons first rest ih =>
      obtain ⟨clean, formed, visited⟩ := admitted
      simp only [FunctionDecl.resolveMethods, Resolution.errors_append, List.append_eq_nil_iff]
        at clean
      simp only [FunctionDecl.visitsMethods, List.forall_mem_append] at visited
      rw [List.forall_mem_cons]
      exact ⟨⟨clean.1, formed.1, visited.1⟩, ih ⟨clean.2, formed.2, visited.2⟩⟩

theorem AdmitsAll.first {first : Stmt} {rest : List Stmt}
    (admitted : world.AdmitsAll site (first :: rest)) : world.AdmitsStmt site first := by
  obtain ⟨clean, formed, visited⟩ := admitted
  simp only [Stmt.resolveAll, Resolution.errors_append, List.append_eq_nil_iff] at clean
  simp only [Stmt.visitsAll, List.forall_mem_append] at visited
  exact ⟨clean.1, formed.1, visited.1⟩

theorem AdmitsAll.rest {first : Stmt} {rest : List Stmt}
    (admitted : world.AdmitsAll site (first :: rest)) :
    world.AdmitsAll (site.after first) rest := by
  obtain ⟨clean, formed, visited⟩ := admitted
  simp only [Stmt.resolveAll, Resolution.errors_append, List.append_eq_nil_iff] at clean
  simp only [Stmt.visitsAll, List.forall_mem_append] at visited
  exact ⟨clean.2, formed.2, visited.2⟩

theorem AdmitsFunction.body {decl : FunctionDecl} (admitted : world.AdmitsFunction site decl) :
    world.AdmitsAll (site.body decl) decl.body := by
  obtain ⟨clean, formed, visited⟩ := admitted
  match decl with
  | ⟨id, name, params, body⟩ =>
      simp only [FunctionDecl.resolve, Resolution.errors_append, List.append_eq_nil_iff] at clean
      exact ⟨clean.2, formed, visited⟩

end World

end Lox
