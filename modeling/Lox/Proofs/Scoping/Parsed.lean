import Lox.Proofs.Parse.Supply
import Lox.Proofs.Scoping.Visits
import Lox.Proofs.Scoping.Words

/-!
What the grammar promises to the resolver. The branches of a conditional and the body of a loop declare
nothing in the scope around them, a superclass is a name, and nothing is called `this`. And the resolver
comes to each identity of a tree once.
-/

namespace Lox

def Stmt.declared? : Stmt → Option Token
  | .varDecl name _ | .classDecl name _ _ => some name
  | .functionDecl decl => some decl.name
  | _ => none

mutual
/-- Declarations stand only where the grammar has them, superclasses are names, and no variable and no
class is called `this`. -/
def Stmt.Formed : Stmt → Prop
  | .expression _ | .print _ _ | .returnStmt _ _ => True
  | .varDecl name _ => name.lexeme ≠ "this"
  | .block body => Stmt.FormedAll body
  | .ifThen _ thenBranch => thenBranch.declared? = none ∧ thenBranch.Formed
  | .ifElse _ thenBranch elseBranch =>
      (thenBranch.declared? = none ∧ thenBranch.Formed) ∧
        elseBranch.declared? = none ∧ elseBranch.Formed
  | .whileLoop _ body => body.declared? = none ∧ body.Formed
  | .functionDecl decl => decl.Formed
  | .classDecl name superclass methods =>
      name.lexeme ≠ "this" ∧ (∀ parent ∈ superclass, ∃ id used, parent = .var id used) ∧
        FunctionDecl.FormedAll methods

def Stmt.FormedAll : List Stmt → Prop
  | [] => True
  | first :: rest => first.Formed ∧ Stmt.FormedAll rest

def FunctionDecl.Formed : FunctionDecl → Prop
  | ⟨_, _, _, body⟩ => Stmt.FormedAll body

def FunctionDecl.FormedAll : List FunctionDecl → Prop
  | [] => True
  | first :: rest => first.Formed ∧ FunctionDecl.FormedAll rest
end

theorem Stmt.resolve_scopes (around : Surroundings) (scopes : List Scope) (stmt : Stmt)
    (formed : stmt.Formed) :
    (stmt.resolve around scopes).2 =
      match stmt.declared? with
      | some name => (Resolution.declare scopes name).2
      | none => scopes := by
  match stmt with
  | .expression _ | .print _ _ | .varDecl _ _ | .block _ | .functionDecl _ | .returnStmt _ _ => rfl
  | .classDecl _ superclass _ => cases superclass <;> rfl
  | .ifThen condition thenBranch =>
      have same := thenBranch.resolve_scopes around scopes formed.2
      rw [formed.1] at same
      exact same
  | .ifElse condition thenBranch elseBranch =>
      have same := thenBranch.resolve_scopes around scopes formed.1.2
      rw [formed.1.1] at same
      have same' := elseBranch.resolve_scopes around (thenBranch.resolve around scopes).2
        formed.2.2
      rw [formed.2.1] at same'
      exact same'.trans same
  | .whileLoop condition body =>
      have same := body.resolve_scopes around scopes formed.2
      rw [formed.1] at same
      exact same

theorem Site.after_eq {site : Site} {stmt : Stmt} (formed : stmt.Formed)
    (undeclared : stmt.declared? = none) : site.after stmt = site := by
  have same := stmt.resolve_scopes site.around site.scopes formed
  rw [undeclared] at same
  simp [Site.after, same]

/-! The identities that the resolver comes to. -/

mutual
theorem Expr.uses_ids (expr : Expr) : (expr.uses.map Use.id).Perm expr.ids := by
  match expr with
  | .literal _ => exact .nil
  | .var _ _ | .this _ _ | .super _ _ _ => exact .refl _
  | .grouping inner | .unary _ inner | .get inner _ => exact inner.uses_ids
  | .binary left _ right | .logical left _ right | .comma left _ right | .set left _ right =>
      simp only [Expr.uses, Expr.ids, List.map_append]
      exact left.uses_ids.append right.uses_ids
  | .conditional condition thenBranch elseBranch =>
      simp only [Expr.uses, Expr.ids, List.map_append]
      exact (condition.uses_ids.append thenBranch.uses_ids).append elseBranch.uses_ids
  | .assign id name value =>
      -- the value is resolved before the variable
      simp only [Expr.uses, Expr.ids, List.map_append]
      exact List.perm_append_comm.trans (value.uses_ids.cons id)
  | .call callee _ arguments =>
      simp only [Expr.uses, Expr.ids, List.map_append]
      exact callee.uses_ids.append (Expr.usesAll_ids arguments)

theorem Expr.usesAll_ids (exprs : List Expr) :
    ((Expr.usesAll exprs).map Use.id).Perm (Expr.idsAll exprs) := by
  match exprs with
  | [] => exact .nil
  | first :: rest =>
      simp only [Expr.usesAll, Expr.idsAll, List.map_append]
      exact first.uses_ids.append (Expr.usesAll_ids rest)
end

theorem Site.visits_ids (site : Site) (uses : List Use) :
    (site.visits uses).map Visit.id = uses.map Use.id := by
  simp [Site.visits, Function.comp_def]

mutual
theorem Stmt.visits_ids (site : Site) (stmt : Stmt) :
    ((stmt.visits site).map Visit.id).Perm stmt.ids := by
  match stmt with
  | .expression value | .print _ value =>
      rw [Stmt.visits, Site.visits_ids]
      exact value.uses_ids
  | .varDecl _ value | .returnStmt _ value =>
      rw [Stmt.visits, Site.visits_ids]
      exact Expr.usesAll_ids value.toList
  | .block body => exact Stmt.visitsAll_ids _ body
  | .ifThen condition body | .whileLoop condition body =>
      rw [Stmt.visits, List.map_append, Site.visits_ids]
      exact condition.uses_ids.append (body.visits_ids site)
  | .ifElse condition thenBranch elseBranch =>
      rw [Stmt.visits, List.map_append, List.map_append, Site.visits_ids]
      exact (condition.uses_ids.append (thenBranch.visits_ids site)).append
        (elseBranch.visits_ids _)
  | .functionDecl decl => exact decl.visits_ids _
  | .classDecl name superclass methods =>
      rw [Stmt.visits, List.map_append, Site.visits_ids]
      exact (Expr.usesAll_ids superclass.toList).append (FunctionDecl.visitsMethods_ids _ methods)

theorem Stmt.visitsAll_ids (site : Site) (stmts : List Stmt) :
    ((Stmt.visitsAll site stmts).map Visit.id).Perm (Stmt.idsAll stmts) := by
  match stmts with
  | [] => exact .nil
  | first :: rest =>
      rw [Stmt.visitsAll, List.map_append]
      exact (first.visits_ids site).append (Stmt.visitsAll_ids _ rest)

theorem FunctionDecl.visits_ids (site : Site) (decl : FunctionDecl) :
    ((decl.visits site).map Visit.id).Perm decl.ids := by
  match decl with
  | ⟨id, name, params, body⟩ => exact Stmt.visitsAll_ids _ body

theorem FunctionDecl.visitsMethods_ids (site : Site) (methods : List FunctionDecl) :
    ((FunctionDecl.visitsMethods site methods).map Visit.id).Perm (FunctionDecl.idsAll methods) := by
  match methods with
  | [] => exact .nil
  | first :: rest =>
      rw [FunctionDecl.visitsMethods, List.map_append]
      exact (first.visits_ids _).append (FunctionDecl.visitsMethods_ids site rest)
end

namespace Grammar

theorem map_use_visits (site : Site) (uses : List Use) :
    (site.visits uses).map Visit.use = uses := by
  simp [Site.visits, Function.comp_def]

def Clause.Formed : (clause : Clause) → clause.Tree → Prop
  | declarations, stmts => Stmt.FormedAll stmts
  | declaration _, stmt => Stmt.Formed stmt
  | statement _, stmt => Stmt.declared? stmt = none ∧ Stmt.Formed stmt
  | function, decl => FunctionDecl.Formed decl
  | functions, decls => FunctionDecl.FormedAll decls

theorem VarDecl.formed {start after : Supply} {words : List Token} {stmt : Stmt}
    (derived : VarDecl start words stmt after) (plain : ∀ token ∈ words, token.Plain) :
    stmt.Formed := by
  cases derived with
  | bare _ isName _ => exact (plain _ (by simp)).ne_word isName (by decide)
  | initialized _ isName _ _ _ => exact (plain _ (by simp)).ne_word isName (by decide)

theorem ForInitializer.formed {start after : Supply} {words : List Token}
    {initializer : Option Stmt} (derived : ForInitializer start words initializer after)
    (plain : ∀ token ∈ words, token.Plain) : ∀ first ∈ initializer, first.Formed := by
  cases derived with
  | absent => simp
  | declared derived => simpa using derived.formed plain
  | expression derived =>
      cases derived
      simp [Stmt.Formed]

theorem formed_forLoop {initializer : Option Stmt} {condition increment : Option Expr}
    {body : Stmt} (initialized : ∀ first ∈ initializer, first.Formed)
    (executed : body.declared? = none ∧ body.Formed) :
    (Stmt.forLoop initializer condition increment body).declared? = none ∧
      (Stmt.forLoop initializer condition increment body).Formed := by
  cases initializer <;> cases increment <;>
    simp_all [Stmt.forLoop, Stmt.declared?, Stmt.Formed, Stmt.FormedAll]

theorem StmtDerives.formed {nearest : Bool} {clause : Clause} {start after : Supply}
    {words : List Token} {tree : clause.Tree}
    (derived : StmtDerives nearest clause start words tree after)
    (plain : ∀ token ∈ words, token.Plain) : clause.Formed tree := by
  induction derived with
  | none | noMethod => trivial
  | next _ _ ih ih' | nextMethod _ _ ih ih' =>
      simp only [List.forall_mem_append] at plain
      exact ⟨ih plain.1, ih' plain.2⟩
  | classDecl _ isName _ _ _ ih =>
      simp only [List.forall_mem_cons, List.forall_mem_append] at plain
      exact ⟨plain.2.1.ne_word isName (by decide), by simp, ih plain.2.2.2.1⟩
  | subclassDecl _ isName _ _ _ _ _ ih =>
      simp only [List.forall_mem_cons, List.forall_mem_append] at plain
      exact ⟨plain.2.1.ne_word isName (by decide), by simp, ih plain.2.2.2.2.2.1⟩
  | funDecl _ _ ih =>
      simp only [List.forall_mem_cons] at plain
      exact ih plain.2
  | varDecl derived => exact derived.formed plain
  | statement _ ih => exact (ih plain).2
  | function _ _ _ _ _ _ _ ih =>
      simp only [List.forall_mem_cons, List.forall_mem_append] at plain
      exact ih plain.2.2.2.2.2.1
  | exprStmt derived =>
      cases derived
      exact ⟨rfl, trivial⟩
  | forLoop _ _ initialized _ _ _ _ _ ih =>
      simp only [List.forall_mem_cons, List.forall_mem_append] at plain
      obtain ⟨_, _, plainStart, _, _, _, _, plainBody⟩ := plain
      rw [expansion_eq_forLoop]
      exact formed_forLoop (initialized.formed plainStart) (ih plainBody)
  | ifThen _ _ _ _ _ ih | whileLoop _ _ _ _ _ ih =>
      simp only [List.forall_mem_cons, List.forall_mem_append] at plain
      obtain ⟨_, _, _, _, plainBody⟩ := plain
      exact ⟨rfl, ih plainBody⟩
  | ifElse _ _ _ _ _ _ _ _ ih ih' =>
      simp only [List.forall_mem_cons, List.forall_mem_append] at plain
      obtain ⟨_, _, _, _, plainThen, _, plainElse⟩ := plain
      exact ⟨rfl, ih plainThen, ih' plainElse⟩
  | print | returnStmt => exact ⟨rfl, trivial⟩
  | block _ _ _ ih =>
      simp only [List.forall_mem_cons, List.forall_mem_append] at plain
      exact ⟨rfl, ih plain.2.1⟩

end Grammar

end Lox
