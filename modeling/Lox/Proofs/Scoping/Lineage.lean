import Lox.Proofs.Run.Confined
import Lox.Proofs.Scoping.Spelling
import Lox.Proofs.Scoping.World

/-!
Where scopes and functions come from. The lineage of a chain of scopes names, from the innermost out
to the globals, the moment at which each scope was opened: when a block was executed, when a
function was called, when a method was bound to an instance, and when a subclass was declared. The
scope of a bound method holds its receiver, and that of a subclass its superclass, for ever: no
program can name them. What runs and what is stored in a machine has a lineage that agrees with the
walk of the resolver.
-/

namespace Lox

namespace Region

def isThis : Region → Bool
  | this _ => true
  | _ => false

def isSuper : Region → Bool
  | super _ => true
  | _ => false

/-- Of the two names that no program can declare, the scope has the one that its region is for. -/
structure Declares (region : Region) (scope : Scope) : Prop where
  this : "this" ∈ scope ↔ region.isThis
  super : "super" ∈ scope ↔ region.isSuper

theorem Declares.cons {region : Region} {scope : Scope} (declares : region.Declares scope)
    {name : String} (nameable : Nameable name) : region.Declares (name :: scope) where
  this := by simp [nameable.ne_this.symm, declares.this]
  super := by simp [nameable.ne_super.symm, declares.super]

end Region

def classAt : List Region → ClassContext
  | [] => .outside
  | .this _ :: .super _ :: _ => .subclass
  | .this _ :: _ => .plain
  | _ :: outer => classAt outer

section Declaring

variable {regions : List Region} {scopes : List Scope}
  (declares : List.Forall₂ Region.Declares regions scopes)
include declares

theorem declares_declare {name : Token} (nameable : Nameable name.lexeme) :
    List.Forall₂ Region.Declares regions (Resolution.declare scopes name).2 := by
  cases declares with
  | nil => exact .nil
  | cons first outer =>
      simp only [Resolution.declare]
      split
      · exact .cons first outer
      · exact .cons (first.cons nameable) outer

theorem declares_declareAll {names : List Token}
    (nameable : ∀ name ∈ names, Nameable name.lexeme) :
    List.Forall₂ Region.Declares regions (Resolution.declareAll scopes names).2 := by
  induction names generalizing scopes with
  | nil => exact declares
  | cons name names ih =>
      rw [List.forall_mem_cons] at nameable
      exact ih (declares_declare declares nameable.1) nameable.2

theorem findIdx?_this :
    scopes.findIdx? (·.contains "this") = regions.findIdx? Region.isThis := by
  induction declares with
  | nil => rfl
  | cons first _ ih =>
      have same := first.this
      rw [List.findIdx?_cons, List.findIdx?_cons, ih]
      simp [same]

theorem findIdx?_super :
    scopes.findIdx? (·.contains "super") = regions.findIdx? Region.isSuper := by
  induction declares with
  | nil => rfl
  | cons first _ ih =>
      have same := first.super
      rw [List.findIdx?_cons, List.findIdx?_cons, ih]
      simp [same]

end Declaring

namespace Site

structure Regular (site : Site) : Prop where
  scopes : List.Forall₂ Region.Declares site.regions site.scopes
  enclosingClass : site.around.enclosingClass = classAt site.regions

namespace Regular

variable {site : Site}

theorem topLevel : Site.topLevel.Regular := ⟨.nil, rfl⟩

theorem declare (regular : site.Regular) {name : Token} (nameable : Nameable name.lexeme) :
    (site.declare name).Regular :=
  ⟨declares_declare regular.scopes nameable, regular.enclosingClass⟩

theorem block (regular : site.Regular) (body : List Stmt) :
    (site.enter (.block body) []).Regular :=
  ⟨.cons ⟨by simp [Region.isThis], by simp [Region.isSuper]⟩ regular.scopes, regular.enclosingClass⟩

theorem body (regular : site.Regular) {decl : FunctionDecl}
    (nameable : ∀ param ∈ decl.params, Nameable param.lexeme) : (site.body decl).Regular where
  scopes := by
    refine declares_declareAll (.cons ?_ regular.scopes) nameable
    exact ⟨by simp [Region.isThis], by simp [Region.isSuper]⟩
  enclosingClass := regular.enclosingClass

theorem inFunction (regular : site.Regular) (context : FunctionContext) :
    (site.inFunction context).Regular := ⟨regular.scopes, regular.enclosingClass⟩

theorem this (regular : site.Regular) (methods : List FunctionDecl)
    (apart : ∀ region ∈ site.regions.head?, region.isSuper = false) :
    (site.methods false methods).Regular where
  scopes := .cons ⟨by simp [Region.isThis], by simp [Region.isSuper]⟩ regular.scopes
  enclosingClass := by
    cases found : site.regions with
    | nil => simp [Site.methods, Site.enter, found, classAt]
    | cons region outer =>
        have other := apart region (by simp [found])
        cases region <;> simp_all [Site.methods, Site.enter, Region.isSuper, classAt]

theorem super (regular : site.Regular) (methods : List FunctionDecl) :
    (site.methods true methods).Regular where
  scopes := .cons ⟨by simp [Region.isThis], by simp [Region.isSuper]⟩
    (.cons ⟨by simp [Region.isThis], by simp [Region.isSuper]⟩ regular.scopes)
  enclosingClass := rfl

theorem after (regular : site.Regular) {stmt : Stmt} (formed : stmt.Formed)
    (spelled : (Node.stmt stmt).Spelled) : (site.after stmt).Regular := by
  have scopes := stmt.resolve_scopes site.around site.scopes formed
  refine ⟨?_, regular.enclosingClass⟩
  simp only [Site.after, scopes]
  cases declared : stmt.declared? with
  | none => exact regular.scopes
  | some name => exact declares_declare regular.scopes (spelled.declared name declared)

end Regular

end Site

namespace World

variable (world : World) (store : Scopes)

mutual
/-- The scopes in which code runs, with the region for which each was opened. -/
inductive Lineage : Env → List Region → Prop
  | globals : Lineage world.globals []
  | block {fuel body machine regions} :
      world.moments (.execute (fuel + 1) (.block body)) machine → Lineage machine.env regions →
      Lineage (⟨machine.scopes.tables.size⟩ :: machine.env) (.block body :: regions)
  | call {fuel closure arguments machine regions} :
      world.moments (.invokeFunction (fuel + 1) closure arguments) machine →
      FunctionLineage closure regions →
      Lineage (⟨machine.scopes.tables.size⟩ :: closure.env) (.function closure.decl :: regions)

/-- A function was declared by itself, or it is a method that was bound to an instance. -/
inductive FunctionLineage : Closure → List Region → Prop
  | declared {fuel decl machine regions} :
      world.moments (.execute (fuel + 1) (.functionDecl decl)) machine →
      Lineage machine.env regions → FunctionLineage ⟨decl, machine.env, false⟩ regions
  | bound {method inst machine methods regions} :
      world.moments (.bindMethod method inst) machine → MethodLineage method methods regions →
      store.lookUp? ⟨machine.scopes.tables.size⟩ "this" = some (.object inst) →
      FunctionLineage { method with env := ⟨machine.scopes.tables.size⟩ :: method.env }
        (.this methods :: regions)

inductive MethodLineage : Closure → List FunctionDecl → List Region → Prop
  | plain {name methods machine decl isInitializer regions} :
      world.moments (.declareClass name none methods) machine → decl ∈ methods →
      Lineage machine.env regions →
      MethodLineage ⟨decl, machine.env, isInitializer⟩ methods regions
  | inherited {name parent methods machine decl isInitializer regions} :
      world.moments (.declareClass name (some parent) methods) machine → decl ∈ methods →
      Lineage machine.env regions →
      store.lookUp? ⟨machine.scopes.tables.size⟩ "super" = some (.ofClass parent) →
      MethodLineage ⟨decl, ⟨machine.scopes.tables.size⟩ :: machine.env, isInitializer⟩ methods
        (.super methods :: regions)
end

end World

/-- What is bound under the names that no program can declare stays so. -/
def Scopes.Preserves (before after : Scopes) : Prop :=
  ∀ ref name value, ¬ Nameable name → before.lookUp? ref name = some value →
    after.lookUp? ref name = some value

namespace Scopes.Preserves

theorem refl (scopes : Scopes) : Preserves scopes scopes := fun _ _ _ _ bound => bound

theorem trans {first second third : Scopes} (early : Preserves first second)
    (late : Preserves second third) : Preserves first third :=
  fun ref name value reserved bound =>
    late ref name value reserved (early ref name value reserved bound)

theorem enter (scopes : Scopes) (outer : Env) (bindings : Bindings) :
    Preserves scopes (scopes.enter outer bindings).2 := by
  intro ref name value _ bound
  rw [lookUp?_enter, if_neg]
  · exact bound
  · intro fresh
    simp [lookUp?, fresh] at bound

theorem define (scopes : Scopes) (env : Env) {name : String} (value : Value)
    (nameable : Nameable name) : Preserves scopes (scopes.define env name value) := by
  intro ref used found reserved bound
  cases env with
  | nil => exact bound
  | cons innermost outer =>
      rw [lookUp?_define, if_neg]
      · exact bound
      · rintro ⟨-, rfl, -⟩
        exact reserved nameable

end Scopes.Preserves

namespace World

theorem Le.refl (world : World) : Le world world :=
  ⟨fun _ _ moment => moment, fun _ visited => visited, rfl⟩

section Later

variable {world big : World} {before after : Scopes}

mutual
theorem Lineage.mono {env : Env} {regions : List Region}
    (lineage : world.Lineage before env regions) (le : Le world big)
    (preserved : before.Preserves after) : big.Lineage after env regions := by
  match lineage with
  | .globals =>
      rw [← le.globals]
      exact .globals
  | .block moment outer => exact .block (le.moments _ _ moment) (outer.mono le preserved)
  | .call moment function => exact .call (le.moments _ _ moment) (function.mono le preserved)

theorem FunctionLineage.mono {closure : Closure} {regions : List Region}
    (lineage : world.FunctionLineage before closure regions) (le : Le world big)
    (preserved : before.Preserves after) : big.FunctionLineage after closure regions := by
  match lineage with
  | .declared moment outer => exact .declared (le.moments _ _ moment) (outer.mono le preserved)
  | .bound moment method receiver =>
      exact .bound (le.moments _ _ moment) (method.mono le preserved)
        (preserved _ _ _ (fun nameable => nameable.ne_this rfl) receiver)

theorem MethodLineage.mono {method : Closure} {methods : List FunctionDecl} {regions : List Region}
    (lineage : world.MethodLineage before method methods regions) (le : Le world big)
    (preserved : before.Preserves after) : big.MethodLineage after method methods regions := by
  match lineage with
  | .plain moment member outer =>
      exact .plain (le.moments _ _ moment) member (outer.mono le preserved)
  | .inherited moment member outer parent =>
      exact .inherited (le.moments _ _ moment) member (outer.mono le preserved)
        (preserved _ _ _ (fun nameable => nameable.ne_super rfl) parent)
end

end Later

/-- The scope of `super` lies directly around that of `this`. -/
theorem Lineage.not_super {world : World} {store : Scopes} {env : Env} {regions : List Region}
    (lineage : world.Lineage store env regions) :
    ∀ region ∈ regions.head?, region.isSuper = false := by
  cases lineage with
  | globals => simp
  | block => simp [Region.isSuper]
  | call => simp [Region.isSuper]

section Traced

variable (world : World) (store : Scopes)

/-- The code has a lineage that agrees with a point of the walk at which it was found free of
faults. The name of a superclass is looked up as if the class were around it. -/
def TracedExpr (env : Env) (expr : Expr) : Prop :=
  ∃ (site : Site) (enclosingClass : ClassContext) (pending : Option String),
    world.Lineage store env site.regions ∧ site.Regular ∧
    (enclosingClass = site.around.enclosingClass ∨ ∃ id name, expr = .var id name) ∧
    world.AdmitsExpr site enclosingClass pending expr ∧ (Node.expr expr).Spelled

def TracedStmt (env : Env) (stmt : Stmt) : Prop :=
  ∃ site : Site, world.Lineage store env site.regions ∧ site.Regular ∧
    world.AdmitsStmt site stmt ∧ (Node.stmt stmt).Spelled

def TracedFunction (closure : Closure) : Prop :=
  ∃ site : Site, world.FunctionLineage store closure site.regions ∧ site.Regular ∧
    world.AdmitsFunction site closure.decl ∧ (Node.function closure.decl).Spelled

def TracedMethod (method : Closure) : Prop :=
  ∃ (site : Site) (methods : List FunctionDecl) (regions : List Region),
    site.regions = .this methods :: regions ∧ world.MethodLineage store method methods regions ∧
    site.Regular ∧ world.AdmitsFunction site method.decl ∧ (Node.function method.decl).Spelled

def Traced (env : Env) : Node → Prop
  | .expr expr => world.TracedExpr store env expr
  | .stmt stmt => world.TracedStmt store env stmt
  | .function _ | .method _ => False

end Traced

variable {world big : World} {store before after : Scopes} {env : Env}

section Mono

variable (le : Le world big) (preserved : before.Preserves after)
include le preserved

theorem TracedFunction.mono {closure : Closure} (traced : world.TracedFunction before closure) :
    big.TracedFunction after closure := by
  obtain ⟨site, lineage, regular, admitted, spelled⟩ := traced
  exact ⟨site, lineage.mono le preserved, regular, admitted.mono le, spelled⟩

theorem TracedMethod.mono {method : Closure} (traced : world.TracedMethod before method) :
    big.TracedMethod after method := by
  obtain ⟨site, methods, regions, own, lineage, regular, admitted, spelled⟩ := traced
  exact ⟨site, methods, regions, own, lineage.mono le preserved, regular, admitted.mono le, spelled⟩

end Mono

theorem Traced.later {node : Node} (traced : world.Traced before env node)
    (preserved : before.Preserves after) : world.Traced after env node := by
  cases node with
  | expr expr =>
      obtain ⟨site, enclosingClass, pending, lineage, rest⟩ := traced
      exact ⟨site, enclosingClass, pending, lineage.mono (.refl world) preserved, rest⟩
  | stmt stmt =>
      obtain ⟨site, lineage, rest⟩ := traced
      exact ⟨site, lineage.mono (.refl world) preserved, rest⟩
  | function decl | method decl => exact traced.elim

theorem TracedExpr.part {expr part : Expr} (traced : world.TracedExpr store env expr)
    (member : part ∈ expr.parts) : world.TracedExpr store env part := by
  obtain ⟨site, enclosingClass, pending, lineage, regular, around, admitted, spelled⟩ := traced
  refine ⟨site, enclosingClass, pending, lineage, regular, .inl ?_, admitted.part member,
    spelled.part (List.mem_map_of_mem member)⟩
  rcases around with same | ⟨id, name, rfl⟩
  · exact same
  · simp [Expr.parts] at member

theorem TracedStmt.part {stmt : Stmt} {child : Node} (traced : world.TracedStmt store env stmt)
    (member : child ∈ (Node.stmt stmt).inPlace) : world.Traced store env child := by
  obtain ⟨site, lineage, regular, admitted, spelled⟩ := traced
  have listed := spelled.part (Node.mem_parts_of_mem_inPlace member)
  -- an expression or a statement that is run at the same point of the walk
  have evaluated {part : Expr} (same : child = .expr part) (own : part ∈ stmt.parts) :
      world.Traced store env child := by
    subst same
    exact ⟨site, _, none, lineage, regular, .inl rfl, admitted.part own, listed⟩
  have executed {branch : Stmt} (same : child = .stmt branch) (own : branch ∈ stmt.branches) :
      world.Traced store env child := by
    subst same
    exact ⟨site, lineage, regular, (admitted.branch own).1, listed⟩
  have nameable := spelled.declared
  cases stmt with
  | block | functionDecl => simp [Node.inPlace] at member
  | expression value | print keyword value =>
      have same : child = .expr value := by simpa [Node.inPlace, Node.parts] using member
      exact evaluated same (by simp [Stmt.parts])
  | returnStmt keyword value =>
      obtain ⟨part, rfl, rfl⟩ : ∃ part, value = some part ∧ .expr part = child := by
        simpa [Node.inPlace, Node.parts] using member
      exact evaluated rfl (by simp [Stmt.parts])
  | varDecl name value =>
      obtain ⟨part, rfl, rfl⟩ : ∃ part, value = some part ∧ .expr part = child := by
        simpa [Node.inPlace, Node.parts] using member
      exact ⟨site.declare name, _, _, lineage, regular.declare (nameable name rfl), .inl rfl,
        admitted.initializer, listed⟩
  | classDecl name superclass methods =>
      obtain ⟨parent, rfl, rfl⟩ : ∃ parent, superclass = some parent ∧ .expr parent = child := by
        simpa [Node.inPlace] using member
      exact ⟨site.declare name, _, _, lineage, regular.declare (nameable name rfl),
        .inr (admitted.formed.2.1 parent rfl), admitted.superclass, listed⟩
  | ifThen condition branch | whileLoop condition branch =>
      rcases (by simpa [Node.inPlace, Node.parts] using member) with same | same
      · exact evaluated same (by simp [Stmt.parts])
      · exact executed same (by simp [Stmt.branches])
  | ifElse condition thenBranch elseBranch =>
      rcases (by simpa [Node.inPlace, Node.parts] using member) with same | same | same
      · exact evaluated same (by simp [Stmt.parts])
      · exact executed same (by simp [Stmt.branches])
      · exact executed same (by simp [Stmt.branches])

theorem Traced.part {node child : Node} (traced : world.Traced store env node)
    (member : child ∈ node.inPlace) : world.Traced store env child := by
  cases node with
  | expr expr =>
      obtain ⟨part, listed, rfl⟩ := List.mem_map.mp member
      exact TracedExpr.part traced listed
  | stmt stmt => exact TracedStmt.part traced member
  | function decl | method decl => exact traced.elim

theorem traced_of_admitsAll {site : Site} {stmts : List Stmt}
    (lineage : world.Lineage store env site.regions) (regular : site.Regular)
    (admitted : world.AdmitsAll site stmts) (spelled : ∀ stmt ∈ stmts, (Node.stmt stmt).Spelled) :
    ∀ stmt ∈ stmts, world.TracedStmt store env stmt := by
  induction stmts generalizing site with
  | nil => simp
  | cons first rest ih =>
      rw [List.forall_mem_cons] at spelled ⊢
      refine ⟨⟨site, lineage, regular, admitted.first, spelled.1⟩, ?_⟩
      have next : world.Lineage store env (site.after first).regions := lineage
      exact ih next (regular.after admitted.first.formed spelled.1) admitted.rest spelled.2

section Opening

variable {machine : Machine}

theorem TracedStmt.block {fuel : Nat} {body : List Stmt}
    (moment : world.moments (.execute (fuel + 1) (.block body)) machine)
    (traced : world.TracedStmt machine.scopes machine.env (.block body)) :
    ∀ stmt ∈ body, world.TracedStmt (machine.entering machine.env {}).scopes
      (machine.entering machine.env {}).env stmt := by
  obtain ⟨site, lineage, regular, admitted, spelled⟩ := traced
  have outer := lineage.mono (.refl world) (.enter _ machine.env {})
  have inner : world.Lineage _ _ (site.enter (.block body) []).regions := .block moment outer
  exact traced_of_admitsAll inner (regular.block body) admitted.block
    fun stmt member => spelled.part (List.mem_map_of_mem member)

theorem TracedFunction.body {fuel : Nat} {closure : Closure} {arguments : List Value}
    (moment : world.moments (.invokeFunction (fuel + 1) closure arguments) machine)
    (traced : world.TracedFunction machine.scopes closure) (bindings : Bindings) :
    ∀ stmt ∈ closure.decl.body, world.TracedStmt (machine.entering closure.env bindings).scopes
      (machine.entering closure.env bindings).env stmt := by
  obtain ⟨site, lineage, regular, admitted, spelled⟩ := traced
  have outer := lineage.mono (.refl world) (.enter _ closure.env bindings)
  have inner : world.Lineage _ _ (site.body closure.decl).regions := .call moment outer
  exact traced_of_admitsAll inner (regular.body spelled.here.names) admitted.body
    fun stmt member => spelled.part (List.mem_map_of_mem member)

theorem TracedStmt.function {fuel : Nat} {decl : FunctionDecl}
    (moment : world.moments (.execute (fuel + 1) (.functionDecl decl)) machine)
    (traced : world.TracedStmt machine.scopes machine.env (.functionDecl decl)) :
    world.TracedFunction machine.scopes ⟨decl, machine.env, false⟩ := by
  obtain ⟨site, lineage, regular, admitted, spelled⟩ := traced
  have named := regular.declare (spelled.declared decl.name rfl)
  exact ⟨(site.declare decl.name).inFunction .function, .declared moment lineage,
    named.inFunction .function, admitted.function, spelled.part List.mem_cons_self⟩

theorem TracedStmt.method {name : Token} {methods : List FunctionDecl}
    (moment : world.moments (.declareClass name none methods) machine)
    (traced : world.TracedStmt machine.scopes machine.env (.classDecl name none methods))
    {decl : FunctionDecl} (listed : decl ∈ methods) (isInitializer : Bool) :
    world.TracedMethod machine.scopes ⟨decl, machine.env, isInitializer⟩ := by
  obtain ⟨site, lineage, regular, admitted, spelled⟩ := traced
  have named := regular.declare (spelled.declared name rfl)
  have inClass := named.this methods lineage.not_super
  refine ⟨((site.declare name).methods false methods).inFunction (.ofMethod decl.name), methods,
    site.regions, rfl, .plain moment listed lineage, inClass.inFunction _,
    admitted.methods.method decl listed, Node.spelled_method.mp (spelled.part ?_)⟩
  exact List.mem_append_right _ (List.mem_map_of_mem listed)

theorem TracedStmt.inheritedMethod {name : Token} {expr : Expr} {parent : ClassObject}
    {methods : List FunctionDecl}
    (moment : world.moments (.declareClass name (some parent) methods) machine)
    (traced : world.TracedStmt machine.scopes machine.env (.classDecl name (some expr) methods))
    (same : store.tables.size = machine.scopes.tables.size)
    (preserved : machine.scopes.Preserves store) {decl : FunctionDecl} (listed : decl ∈ methods)
    (isInitializer : Bool) :
    world.TracedMethod
      (store.enter machine.env (({} : Bindings).insert "super" (.ofClass parent))).2
      ⟨decl, ⟨machine.scopes.tables.size⟩ :: machine.env, isInitializer⟩ := by
  obtain ⟨site, lineage, regular, admitted, spelled⟩ := traced
  have named := regular.declare (spelled.declared name rfl)
  have outer (bindings : Bindings) :=
    lineage.mono (.refl world) (preserved.trans (.enter store machine.env bindings))
  refine ⟨((site.declare name).methods true methods).inFunction (.ofMethod decl.name), methods,
    .super methods :: site.regions, rfl, .inherited moment listed (outer _) ?_,
    (named.super methods).inFunction _, admitted.methods.method decl listed,
    Node.spelled_method.mp (spelled.part ?_)⟩
  · rw [Scopes.lookUp?_enter, if_pos same.symm]
    simp
  · exact List.mem_append_right _ (List.mem_map_of_mem listed)

theorem TracedMethod.bind {method : Closure} {inst : Instance}
    (moment : world.moments (.bindMethod method inst) machine)
    (traced : world.TracedMethod machine.scopes method) :
    world.TracedFunction
      (machine.scopes.enter method.env (({} : Bindings).insert "this" (.object inst))).2
      { method with env := ⟨machine.scopes.tables.size⟩ :: method.env } := by
  obtain ⟨site, methods, regions, own, lineage, regular, admitted, spelled⟩ := traced
  refine ⟨site, ?_, regular, admitted, spelled⟩
  rw [own]
  refine .bound moment (lineage.mono (.refl world) (.enter _ _ _)) ?_
  rw [Scopes.lookUp?_enter, if_pos rfl]
  simp

end Opening

def lineages (world : World) : Realm where
  moments := world.moments
  scope := fun _ => True
  object := fun _ => True
  oldScopes := 0
  oldObjects := 0
  veil := .none
  declarable := Nameable
  later := Scopes.Preserves
  code := world.Traced
  function := world.TracedFunction
  method := world.TracedMethod
  begun := world.begun
  scope_new := fun _ _ => trivial
  object_new := fun _ _ => trivial
  scope_seen := fun ref _ => Veil.scopes_none ref
  object_seen := fun index _ => Veil.fields_none index
  later_refl := .refl
  later_trans := .trans
  later_enter := .enter
  later_define := fun store env _ value nameable => .define store env value nameable
  code_later := .later
  function_later := fun traced preserved => traced.mono (.refl world) preserved
  method_later := fun traced preserved => traced.mono (.refl world) preserved
  code_scope := fun _ _ _ => trivial
  function_scope := fun _ _ _ => trivial
  code_part := .part
  code_declares := fun ⟨_, _, _, _, spelled⟩ => spelled.declared
  code_assigns := fun ⟨_, _, _, _, _, _, _, spelled⟩ => spelled.here.names _ List.mem_cons_self
  code_block := fun moment _ traced => TracedStmt.block moment traced
  code_body := fun moment _ traced => TracedFunction.body moment traced
  function_declared := fun moment traced => TracedStmt.function moment traced
  method_declared := fun moment traced _ listed => TracedStmt.method moment traced listed _
  method_inherited := fun moment _ traced _ same preserved _ listed =>
    TracedStmt.inheritedMethod moment traced same preserved listed _
  function_bound := fun moment _ traced => TracedMethod.bind moment traced

end World

end Lox
