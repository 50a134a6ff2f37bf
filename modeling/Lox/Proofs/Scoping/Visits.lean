import Lox.Resolution
import Mathlib.Tactic

/-!
The walk of the resolver. `visits` lists the uses of names in the order in which they are resolved, each
with the scopes that are open at that point and with the part of the program that each scope belongs
to. The depths that the resolver finds are those of its visits; next to a fault some may be missing.
-/

namespace Lox

/-- A part of a program that has a scope of its own. -/
inductive Region
  | block (body : List Stmt)
  | function (decl : FunctionDecl)
  | this (methods : List FunctionDecl)
  | super (methods : List FunctionDecl)

/-- A point of the walk: what is around it, and the open scopes with the regions they belong to, the
innermost first. -/
structure Site where
  around : Surroundings
  regions : List Region
  scopes : List Scope

inductive UseKind
  | read
  | assign
  | this
  | super
deriving DecidableEq

structure Use where
  kind : UseKind
  id : ExprId
  name : Token

structure Visit where
  use : Use
  regions : List Region
  scopes : List Scope

namespace Visit

abbrev id (visit : Visit) : ExprId := visit.use.id

abbrev name (visit : Visit) : Token := visit.use.name

def depth? (visit : Visit) : Option Nat := visit.scopes.findIdx? (·.contains visit.name.lexeme)

def record? (visit : Visit) : Option (ExprId × Nat) := visit.depth?.map (visit.id, ·)

end Visit

namespace Site

def topLevel : Site := ⟨.topLevel, [], []⟩

def enter (site : Site) (region : Region) (scope : Scope) : Site :=
  { site with regions := region :: site.regions, scopes := scope :: site.scopes }

def declare (site : Site) (name : Token) : Site :=
  { site with scopes := (Resolution.declare site.scopes name).2 }

def after (site : Site) (stmt : Stmt) : Site :=
  { site with scopes := (stmt.resolve site.around site.scopes).2 }

def inFunction (site : Site) (context : FunctionContext) : Site :=
  { site with around.function := context }

def body (site : Site) (decl : FunctionDecl) : Site :=
  { site with
    regions := .function decl :: site.regions
    scopes := (Resolution.declareAll ([] :: site.scopes) decl.params).2 }

def methods (site : Site) (isSubclass : Bool) (methods : List FunctionDecl) : Site :=
  if isSubclass then
    ({ site with around.enclosingClass := .subclass }.enter (.super methods) ["super"]).enter
      (.this methods) ["this"]
  else { site with around.enclosingClass := .plain }.enter (.this methods) ["this"]

def visits (site : Site) (uses : List Use) : List Visit :=
  uses.map fun use => ⟨use, site.regions, site.scopes⟩

end Site

namespace Expr

mutual
def uses : Expr → List Use
  | literal _ => []
  | grouping inner => inner.uses
  | unary _ operand => operand.uses
  | binary left _ right | logical left _ right | comma left _ right => left.uses ++ right.uses
  | conditional condition thenBranch elseBranch =>
      condition.uses ++ thenBranch.uses ++ elseBranch.uses
  | var id name => [⟨.read, id, name⟩]
  | assign id name value => value.uses ++ [⟨.assign, id, name⟩]
  | call callee _ arguments => callee.uses ++ usesAll arguments
  | get object _ => object.uses
  | set object _ value => object.uses ++ value.uses
  | this id keyword => [⟨.this, id, keyword⟩]
  | super id keyword _ => [⟨.super, id, keyword⟩]

def usesAll : List Expr → List Use
  | [] => []
  | first :: rest => first.uses ++ usesAll rest
end

end Expr

mutual
def Stmt.visits (site : Site) : Stmt → List Visit
  | .expression value | .print _ value => site.visits value.uses
  | .varDecl name initializer => (site.declare name).visits (Expr.usesAll initializer.toList)
  | .block body => Stmt.visitsAll (site.enter (.block body) []) body
  | .ifThen condition thenBranch => site.visits condition.uses ++ thenBranch.visits site
  | .ifElse condition thenBranch elseBranch =>
      site.visits condition.uses ++ thenBranch.visits site ++
        elseBranch.visits (site.after thenBranch)
  | .whileLoop condition body => site.visits condition.uses ++ body.visits site
  | .functionDecl decl => decl.visits ((site.declare decl.name).inFunction .function)
  | .returnStmt _ value => site.visits (Expr.usesAll value.toList)
  | .classDecl name superclass methods =>
      (site.declare name).visits (Expr.usesAll superclass.toList) ++
        FunctionDecl.visitsMethods ((site.declare name).methods superclass.isSome methods) methods

def Stmt.visitsAll (site : Site) : List Stmt → List Visit
  | [] => []
  | first :: rest => first.visits site ++ Stmt.visitsAll (site.after first) rest

def FunctionDecl.visits (site : Site) : FunctionDecl → List Visit
  | ⟨id, name, params, body⟩ => Stmt.visitsAll (site.body ⟨id, name, params, body⟩) body

def FunctionDecl.visitsMethods (site : Site) : List FunctionDecl → List Visit
  | [] => []
  | first :: rest =>
      first.visits (site.inFunction (.ofMethod first.name)) ++
        FunctionDecl.visitsMethods site rest
end

namespace Resolution

@[simp] theorem depths_append (first second : Resolution) :
    (first ++ second).depths = first.depths ++ second.depths := rfl

@[simp] theorem errors_append (first second : Resolution) :
    (first ++ second).errors = first.errors ++ second.errors := rfl

@[simp] theorem errors_lookUp (scopes : List Scope) (id : ExprId) (name : Token) :
    (lookUp scopes id name).errors = [] := by
  unfold lookUp
  split <;> rfl

@[simp] theorem depths_declare (scopes : List Scope) (name : Token) :
    (declare scopes name).1.depths = [] := by
  unfold declare
  split
  · rfl
  · split <;> rfl

@[simp] theorem depths_declareAll (scopes : List Scope) (names : List Token) :
    (declareAll scopes names).1.depths = [] := by
  induction names generalizing scopes with
  | nil => rfl
  | cons name names ih => simp [declareAll, ih]

/-- The depths are those of the visits; next to a fault some may be missing. -/
structure Follows (resolution : Resolution) (visits : List Visit) : Prop where
  sublist : resolution.depths.Sublist (visits.filterMap Visit.record?)
  eq_of_clean : resolution.errors = [] → resolution.depths = visits.filterMap Visit.record?

namespace Follows

variable {first second : Resolution} {visits others : List Visit}

theorem none : Resolution.none.Follows [] := ⟨.refl _, fun _ => rfl⟩

theorem error (token : Token) (fault : ScopeFault) (visits : List Visit) :
    (Resolution.error token fault).Follows visits := ⟨List.nil_sublist _, nofun⟩

theorem append (early : first.Follows visits) (late : second.Follows others) :
    (first ++ second).Follows (visits ++ others) where
  sublist := by
    rw [depths_append, List.filterMap_append]
    exact early.sublist.append late.sublist
  eq_of_clean := by
    intro clean
    rw [errors_append, List.append_eq_nil_iff] at clean
    rw [depths_append, List.filterMap_append, early.eq_of_clean clean.1, late.eq_of_clean clean.2]

theorem after (silent : first.depths = []) (late : second.Follows visits) :
    (first ++ second).Follows visits := by
  have early : first.Follows [] := ⟨by simp [silent], fun _ => silent⟩
  exact early.append late

theorem lookUp (site : Site) (kind : UseKind) (id : ExprId) (name : Token) :
    (Resolution.lookUp site.scopes id name).Follows (site.visits [⟨kind, id, name⟩]) := by
  have same : (Resolution.lookUp site.scopes id name).depths =
      (site.visits [⟨kind, id, name⟩]).filterMap Visit.record? := by
    simp only [Resolution.lookUp, Site.visits, List.map_cons, List.map_nil, List.filterMap_cons,
      Visit.record?, Visit.depth?, Visit.name]
    cases site.scopes.findIdx? (·.contains name.lexeme) <;> rfl
  exact ⟨same ▸ .refl _, fun _ => same⟩

end Follows

end Resolution

theorem Site.visits_append (site : Site) (first second : List Use) :
    site.visits (first ++ second) = site.visits first ++ site.visits second := List.map_append

open Resolution (Follows)

section Depths

variable (site : Site) (enclosingClass : ClassContext) (pending : Option String)

mutual
theorem Expr.follows (expr : Expr) :
    (expr.resolve enclosingClass site.scopes pending).Follows (site.visits expr.uses) := by
  match expr with
  | .literal value => exact .none
  | .grouping inner | .unary _ inner | .get inner _ => exact inner.follows
  | .binary left operator right | .logical left operator right | .comma left operator right
  | .set left operator right =>
      rw [Expr.uses, Site.visits_append]
      exact left.follows.append right.follows
  | .conditional condition thenBranch elseBranch =>
      rw [Expr.uses, Site.visits_append, Site.visits_append]
      exact (condition.follows.append thenBranch.follows).append elseBranch.follows
  | .var id name =>
      refine .after ?_ (.lookUp site .read id name)
      split <;> rfl
  | .assign id name value =>
      rw [Expr.uses, Site.visits_append]
      exact value.follows.append (.lookUp site .assign id name)
  | .call callee paren arguments =>
      rw [Expr.uses, Site.visits_append]
      exact callee.follows.append (Expr.followsAll arguments)
  | .this id keyword =>
      cases enclosingClass with
      | outside => exact .error keyword _ _
      | plain | subclass => exact .lookUp site .this id keyword
  | .super id keyword method =>
      refine .after ?_ (.lookUp site .super id keyword)
      split <;> rfl

theorem Expr.followsAll (exprs : List Expr) :
    (Expr.resolveAll enclosingClass site.scopes pending exprs).Follows
      (site.visits (Expr.usesAll exprs)) := by
  match exprs with
  | [] => exact .none
  | first :: rest =>
      rw [Expr.usesAll, Site.visits_append]
      exact first.follows.append (Expr.followsAll rest)
end

end Depths

mutual
theorem Stmt.follows (site : Site) (stmt : Stmt) :
    (stmt.resolve site.around site.scopes).1.Follows (stmt.visits site) := by
  match stmt with
  | .expression value | .print _ value => exact value.follows site site.around.enclosingClass none
  | .varDecl name initializer =>
      exact .after (Resolution.depths_declare _ _) (Expr.followsAll (site.declare name) _ _ _)
  | .block body => exact Stmt.followsAll (site.enter (.block body) []) body
  | .ifThen condition thenBranch =>
      exact (condition.follows site _ _).append (thenBranch.follows site)
  | .ifElse condition thenBranch elseBranch =>
      exact ((condition.follows site _ _).append (thenBranch.follows site)).append
        (elseBranch.follows (site.after thenBranch))
  | .whileLoop condition body => exact (condition.follows site _ _).append (body.follows site)
  | .functionDecl decl =>
      exact .after (Resolution.depths_declare _ _)
        (decl.follows ((site.declare decl.name).inFunction .function))
  | .returnStmt keyword value =>
      refine .after ?_ (Expr.followsAll site _ _ _)
      split <;> split <;> rfl
  | .classDecl name none methods =>
      exact .after (Resolution.depths_declare _ _)
        (FunctionDecl.followsMethods ((site.declare name).methods false methods) methods)
  | .classDecl name (some parent) methods =>
      have inherited : (parent.resolve .subclass (site.declare name).scopes none).Follows
          ((site.declare name).visits (Expr.usesAll [parent])) := by
        simpa [Expr.usesAll] using parent.follows (site.declare name) .subclass none
      refine .append (.after (List.append_eq_nil_iff.mpr ⟨Resolution.depths_declare _ _, ?_⟩)
        inherited)
        (FunctionDecl.followsMethods ((site.declare name).methods true methods) methods)
      split <;> rfl

theorem Stmt.followsAll (site : Site) (stmts : List Stmt) :
    (Stmt.resolveAll site.around site.scopes stmts).Follows (Stmt.visitsAll site stmts) := by
  match stmts with
  | [] => exact .none
  | first :: rest => exact (first.follows site).append (Stmt.followsAll (site.after first) rest)

theorem FunctionDecl.follows (site : Site) (decl : FunctionDecl) :
    (decl.resolve site.around site.scopes).Follows (decl.visits site) := by
  match decl with
  | ⟨id, name, params, body⟩ =>
      exact .after (Resolution.depths_declareAll _ _)
        (Stmt.followsAll (site.body ⟨id, name, params, body⟩) body)

theorem FunctionDecl.followsMethods (site : Site) (methods : List FunctionDecl) :
    (FunctionDecl.resolveMethods site.around site.scopes methods).Follows
      (FunctionDecl.visitsMethods site methods) := by
  match methods with
  | [] => exact .none
  | first :: rest =>
      exact (first.follows (site.inFunction (.ofMethod first.name))).append
        (FunctionDecl.followsMethods site rest)
end

/-! What a walk without faults has found of the parts of a tree. -/

def Expr.parts : Expr → List Expr
  | .literal _ | .var _ _ | .this _ _ | .super _ _ _ => []
  | .grouping inner | .unary _ inner | .assign _ _ inner | .get inner _ => [inner]
  | .binary left _ right | .logical left _ right | .comma left _ right | .set left _ right =>
      [left, right]
  | .conditional condition thenBranch elseBranch => [condition, thenBranch, elseBranch]
  | .call callee _ arguments => callee :: arguments

theorem Expr.resolveAll_clean {enclosingClass : ClassContext} {scopes : List Scope}
    {pending : Option String} {exprs : List Expr}
    (clean : (Expr.resolveAll enclosingClass scopes pending exprs).errors = []) :
    ∀ expr ∈ exprs, (expr.resolve enclosingClass scopes pending).errors = [] := by
  induction exprs with
  | nil => simp
  | cons first rest ih =>
      simp only [Expr.resolveAll, Resolution.errors_append, List.append_eq_nil_iff] at clean
      simpa using ⟨clean.1, ih clean.2⟩

theorem Expr.resolve_clean {enclosingClass : ClassContext} {scopes : List Scope}
    {pending : Option String} {expr part : Expr}
    (clean : (expr.resolve enclosingClass scopes pending).errors = []) (member : part ∈ expr.parts) :
    (part.resolve enclosingClass scopes pending).errors = [] := by
  cases expr with
  | literal | var | this | super => simp [parts] at member
  | grouping inner | unary _ inner | get inner _ =>
      obtain rfl : part = inner := by simpa [parts] using member
      exact clean
  | assign id name inner =>
      obtain rfl : part = inner := by simpa [parts] using member
      simp only [resolve, Resolution.errors_append, List.append_eq_nil_iff] at clean
      exact clean.1
  | binary left _ right | logical left _ right | comma left _ right | set left _ right =>
      simp only [resolve, Resolution.errors_append, List.append_eq_nil_iff] at clean
      simp only [parts, List.mem_cons, List.not_mem_nil, or_false] at member
      rcases member with rfl | rfl
      · exact clean.1
      · exact clean.2
  | conditional condition thenBranch elseBranch =>
      simp only [resolve, Resolution.errors_append, List.append_eq_nil_iff] at clean
      simp only [parts, List.mem_cons, List.not_mem_nil, or_false] at member
      rcases member with rfl | rfl | rfl
      · exact clean.1.1
      · exact clean.1.2
      · exact clean.2
  | call callee paren arguments =>
      simp only [resolve, Resolution.errors_append, List.append_eq_nil_iff] at clean
      rcases List.mem_cons.mp member with rfl | member
      · exact clean.1
      · exact resolveAll_clean clean.2 part member

theorem Expr.mem_usesAll {exprs : List Expr} {use : Use} :
    use ∈ Expr.usesAll exprs ↔ ∃ expr ∈ exprs, use ∈ expr.uses := by
  induction exprs with
  | nil => simp [usesAll]
  | cons first rest ih => simp [usesAll, ih]

theorem Expr.uses_of_parts {expr part : Expr} {use : Use} (member : part ∈ expr.parts)
    (used : use ∈ part.uses) : use ∈ expr.uses := by
  cases expr <;> simp only [parts, List.mem_cons, List.not_mem_nil, or_false] at member
  case call callee paren arguments =>
    rw [uses, List.mem_append]
    rcases member with rfl | member
    · exact .inl used
    · exact .inr (mem_usesAll.mpr ⟨part, member, used⟩)
  case conditional => rcases member with rfl | rfl | rfl <;> simp [uses, used]
  case binary | logical | comma | set => rcases member with rfl | rfl <;> simp [uses, used]
  all_goals
    subst member
    simp [uses, used]

def Stmt.parts : Stmt → List Expr
  | .expression value | .print _ value => [value]
  | .ifThen condition _ | .ifElse condition _ _ | .whileLoop condition _ => [condition]
  | .returnStmt _ value => value.toList
  | _ => []

def Stmt.branches : Stmt → List Stmt
  | .ifThen _ thenBranch => [thenBranch]
  | .ifElse _ thenBranch elseBranch => [thenBranch, elseBranch]
  | .whileLoop _ body => [body]
  | _ => []

end Lox
