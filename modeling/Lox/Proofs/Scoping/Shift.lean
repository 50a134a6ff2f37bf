import Lox.Proofs.Parse.Shift
import Lox.Proofs.Scoping.Visits

/-!
What the resolver finds in trees with later identities: the same faults, and the same depths under the
later identities.
-/

namespace Lox

namespace Resolution

def shift (offset : Supply) (resolution : Resolution) : Resolution :=
  { resolution with depths := resolution.depths.map (Prod.map (· + offset.nextExpr) id) }

variable {offset : Supply}

theorem shift_append (first second : Resolution) :
    (first ++ second).shift offset = first.shift offset ++ second.shift offset := by
  show Resolution.mk (List.map _ (first.depths ++ second.depths)) _ = _
  rw [List.map_append]
  rfl

theorem shift_of_depths {resolution : Resolution} (none : resolution.depths = []) :
    resolution.shift offset = resolution := by
  rw [shift, none, List.map_nil, ← none]

theorem lookUp_shift (scopes : List Scope) (id : ExprId) (name : Token) :
    lookUp scopes (id + offset.nextExpr) name = (lookUp scopes id name).shift offset := by
  unfold lookUp
  split <;> rfl

end Resolution

open Resolution (shift_append shift_of_depths lookUp_shift depths_declare depths_declareAll)

variable {offset : Supply}

mutual
theorem Expr.resolve_shift (enclosingClass : ClassContext) (scopes : List Scope)
    (pending : Option String) (expr : Expr) :
    (expr.shift offset).resolve enclosingClass scopes pending =
      (expr.resolve enclosingClass scopes pending).shift offset := by
  match expr with
  | .literal _ => rfl
  | .grouping inner | .unary _ inner | .get inner _ =>
      exact inner.resolve_shift enclosingClass scopes pending
  | .binary left _ right | .logical left _ right | .comma left _ right | .set left _ right =>
      rw [Expr.shift, Expr.resolve, Expr.resolve, shift_append,
        left.resolve_shift enclosingClass scopes pending,
        right.resolve_shift enclosingClass scopes pending]
  | .conditional condition thenBranch elseBranch =>
      rw [Expr.shift, Expr.resolve, Expr.resolve, shift_append, shift_append,
        condition.resolve_shift enclosingClass scopes pending,
        thenBranch.resolve_shift enclosingClass scopes pending,
        elseBranch.resolve_shift enclosingClass scopes pending]
  | .var id name =>
      rw [Expr.shift, Expr.resolve, Expr.resolve, shift_append, lookUp_shift]
      split <;> rfl
  | .assign id name value =>
      rw [Expr.shift, Expr.resolve, Expr.resolve, shift_append, lookUp_shift,
        value.resolve_shift enclosingClass scopes pending]
  | .call callee _ arguments =>
      rw [Expr.shift, Expr.resolve, Expr.resolve, shift_append,
        callee.resolve_shift enclosingClass scopes pending,
        Expr.resolveAll_shift enclosingClass scopes pending arguments]
  | .this id keyword =>
      cases enclosingClass with
      | outside => rfl
      | plain | subclass => exact lookUp_shift scopes id keyword
  | .super id keyword _ =>
      cases enclosingClass <;> simp only [Expr.shift, Expr.resolve, shift_append, lookUp_shift] <;>
        rfl

theorem Expr.resolveAll_shift (enclosingClass : ClassContext) (scopes : List Scope)
    (pending : Option String) (exprs : List Expr) :
    Expr.resolveAll enclosingClass scopes pending (Expr.shiftAll offset exprs) =
      (Expr.resolveAll enclosingClass scopes pending exprs).shift offset := by
  match exprs with
  | [] => rfl
  | first :: rest =>
      rw [Expr.shiftAll, Expr.resolveAll, Expr.resolveAll, shift_append,
        first.resolve_shift enclosingClass scopes pending,
        Expr.resolveAll_shift enclosingClass scopes pending rest]
end

theorem Expr.useOf?_shift (expr : Expr) (name : Token) :
    (expr.shift offset).useOf? name = expr.useOf? name := by
  cases expr <;> rfl

theorem FunctionDecl.name_shift (decl : FunctionDecl) : (decl.shift offset).name = decl.name := by
  cases decl
  rfl

mutual
theorem Stmt.resolve_shift (around : Surroundings) (scopes : List Scope) (stmt : Stmt) :
    (stmt.shift offset).resolve around scopes =
      ((stmt.resolve around scopes).1.shift offset, (stmt.resolve around scopes).2) := by
  match stmt with
  | .expression value | .print _ value =>
      simp only [Stmt.shift, Stmt.resolve, value.resolve_shift]
  | .varDecl name initializer =>
      simp only [Stmt.shift, Stmt.resolve, shift_append, shift_of_depths (depths_declare scopes name),
        ← Expr.shiftAll_toList, Expr.resolveAll_shift]
  | .block body => simp only [Stmt.shift, Stmt.resolve, Stmt.resolveAll_shift around _ body]
  | .ifThen condition body | .whileLoop condition body =>
      simp only [Stmt.shift, Stmt.resolve, shift_append, condition.resolve_shift,
        body.resolve_shift around]
  | .ifElse condition thenBranch elseBranch =>
      simp only [Stmt.shift, Stmt.resolve, shift_append, condition.resolve_shift,
        thenBranch.resolve_shift around, elseBranch.resolve_shift around]
  | .functionDecl decl =>
      simp only [Stmt.shift, Stmt.resolve, shift_append, decl.name_shift,
        shift_of_depths (depths_declare scopes decl.name), decl.resolve_shift]
  | .returnStmt keyword value =>
      simp only [Stmt.shift, Stmt.resolve, shift_append, ← Expr.shiftAll_toList,
        Expr.resolveAll_shift, Option.isSome_map]
      split <;> split <;> rfl
  | .classDecl name none methods =>
      simp only [Stmt.shift, Stmt.resolve, shift_append, Option.map_none,
        shift_of_depths (depths_declare scopes name),
        FunctionDecl.resolveMethods_shift _ _ methods]
  | .classDecl name (some parent) methods =>
      simp only [Stmt.shift, Stmt.resolve, shift_append, Option.map_some,
        shift_of_depths (depths_declare scopes name), parent.useOf?_shift, parent.resolve_shift,
        FunctionDecl.resolveMethods_shift _ _ methods]
      cases parent.useOf? name <;> rfl

theorem Stmt.resolveAll_shift (around : Surroundings) (scopes : List Scope) (stmts : List Stmt) :
    Stmt.resolveAll around scopes (Stmt.shiftAll offset stmts) =
      (Stmt.resolveAll around scopes stmts).shift offset := by
  match stmts with
  | [] => rfl
  | first :: rest =>
      simp only [Stmt.shiftAll, Stmt.resolveAll, shift_append, first.resolve_shift around scopes,
        Stmt.resolveAll_shift around _ rest]

theorem FunctionDecl.resolve_shift (around : Surroundings) (scopes : List Scope)
    (decl : FunctionDecl) :
    (decl.shift offset).resolve around scopes = (decl.resolve around scopes).shift offset := by
  match decl with
  | ⟨_, _, params, body⟩ =>
      simp only [FunctionDecl.shift, FunctionDecl.resolve, shift_append,
        shift_of_depths (depths_declareAll ([] :: scopes) params),
        Stmt.resolveAll_shift around _ body]

theorem FunctionDecl.resolveMethods_shift (around : Surroundings) (scopes : List Scope)
    (decls : List FunctionDecl) :
    FunctionDecl.resolveMethods around scopes (FunctionDecl.shiftAll offset decls) =
      (FunctionDecl.resolveMethods around scopes decls).shift offset := by
  match decls with
  | [] => rfl
  | first :: rest =>
      rw [FunctionDecl.shiftAll, FunctionDecl.resolveMethods, FunctionDecl.resolveMethods,
        shift_append, first.name_shift, first.resolve_shift, FunctionDecl.resolveMethods_shift _ _ rest]
end

theorem Resolution.ofProgram_shift (stmts : List Stmt) :
    ofProgram (Stmt.shiftAll offset stmts) = (ofProgram stmts).shift offset :=
  Stmt.resolveAll_shift .topLevel [] stmts

theorem Resolution.ofExpr_shift (expr : Expr) :
    ofExpr (expr.shift offset) = (ofExpr expr).shift offset :=
  expr.resolve_shift .outside [] .none

end Lox
