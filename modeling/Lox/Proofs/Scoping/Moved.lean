import Lox.Proofs.Scoping.World
import Lox.Proofs.Run.Matching

/-!
What the resolver finds in trees that match: the same depths, and the same faults at other places. At top
level it goes from statement to statement without a memory.
-/

namespace Lox

structure Resolution.Matches (resolution resolution' : Resolution) : Prop where
  depths : resolution'.depths = resolution.depths
  faults : resolution'.errors.map ScopeError.fault = resolution.errors.map ScopeError.fault

namespace Resolution.Matches

theorem none : Matches .none .none := ⟨rfl, rfl⟩

theorem error (token token' : Token) (fault : ScopeFault) :
    Matches (.error token fault) (.error token' fault) := ⟨rfl, rfl⟩

theorem append {first first' second second' : Resolution} (left : first.Matches first')
    (right : second.Matches second') : (first ++ second).Matches (first' ++ second') := by
  constructor
  · rw [depths_append, depths_append, left.depths, right.depths]
  · rw [errors_append, errors_append, List.map_append, List.map_append, left.faults, right.faults]

theorem clean {resolution resolution' : Resolution} (matched : resolution.Matches resolution')
    (clean : resolution.errors = []) : resolution'.errors = [] := by
  have faults := matched.faults
  rw [clean] at faults
  exact List.map_eq_nil_iff.mp faults

end Resolution.Matches

section Resolved

variable {matching : Matching}

open Resolution

theorem lookUp_matches (scopes : List Scope) (id : ExprId) {name name' : Token}
    (related : matching.Tokens name name') :
    (lookUp scopes id name).Matches (lookUp scopes id name') := by
  unfold lookUp
  rw [matching.lexeme related]
  exact ⟨rfl, rfl⟩

theorem declare_matches (scopes : List Scope) {name name' : Token}
    (related : matching.Tokens name name') :
    (declare scopes name).1.Matches (declare scopes name').1 ∧
      (declare scopes name').2 = (declare scopes name).2 := by
  unfold declare
  rw [matching.lexeme related]
  split
  · exact ⟨.none, rfl⟩
  · split
    · exact ⟨.error _ _ _, rfl⟩
    · exact ⟨.none, rfl⟩

theorem declareAll_matches (scopes : List Scope) {names names' : List Token}
    (related : List.Forall₂ matching.Tokens names names') :
    (declareAll scopes names).1.Matches (declareAll scopes names').1 ∧
      (declareAll scopes names').2 = (declareAll scopes names).2 := by
  induction related generalizing scopes with
  | nil => exact ⟨.none, rfl⟩
  | cons related _ ih =>
      obtain ⟨first, inside⟩ := declare_matches scopes related
      simp only [declareAll, inside]
      exact ⟨first.append (ih _).1, (ih _).2⟩

mutual
theorem Expr.resolve_matches (enclosingClass : ClassContext) (scopes : List Scope)
    (pending : Option String) (expr : Expr) {expr' : Expr} (matched : expr.Matches matching expr') :
    (expr.resolve enclosingClass scopes pending).Matches
      (expr'.resolve enclosingClass scopes pending) := by
  match expr, matched with
  | .literal _, .literal _ => exact .none
  | .grouping inner, .grouping matched =>
      rw [Expr.resolve, Expr.resolve]
      exact inner.resolve_matches enclosingClass scopes pending matched
  | .unary _ operand, .unary _ matched =>
      rw [Expr.resolve, Expr.resolve]
      exact operand.resolve_matches enclosingClass scopes pending matched
  | .binary left _ right, .binary first _ second
  | .logical left _ right, .logical first _ second
  | .comma left _ right, .comma first _ second =>
      exact (left.resolve_matches enclosingClass scopes pending first).append
        (right.resolve_matches enclosingClass scopes pending second)
  | .conditional condition thenBranch elseBranch, .conditional first second third =>
      exact ((condition.resolve_matches enclosingClass scopes pending first).append
        (thenBranch.resolve_matches enclosingClass scopes pending second)).append
        (elseBranch.resolve_matches enclosingClass scopes pending third)
  | .var id name, .var _ related =>
      simp only [Expr.resolve, matching.lexeme related]
      refine Resolution.Matches.append ?_ (lookUp_matches scopes id related)
      split
      · exact .error _ _ _
      · exact .none
  | .assign id name value, .assign _ related matched =>
      exact (value.resolve_matches enclosingClass scopes pending matched).append
        (lookUp_matches scopes id related)
  | .call callee _ arguments, .call matched _ all =>
      exact (callee.resolve_matches enclosingClass scopes pending matched).append
        (Expr.resolveAll_matches enclosingClass scopes pending arguments all)
  | .get object _, .get matched _ =>
      rw [Expr.resolve, Expr.resolve]
      exact object.resolve_matches enclosingClass scopes pending matched
  | .set object _ value, .set matched _ matched' =>
      exact (object.resolve_matches enclosingClass scopes pending matched).append
        (value.resolve_matches enclosingClass scopes pending matched')
  | .this id keyword, .this _ related =>
      cases enclosingClass with
      | outside => exact .error _ _ _
      | plain | subclass => exact lookUp_matches scopes id related
  | .super id keyword _, .super _ related _ =>
      refine Resolution.Matches.append ?_ (lookUp_matches scopes id related)
      cases enclosingClass with
      | outside | plain => exact .error _ _ _
      | subclass => exact .none

theorem Expr.resolveAll_matches (enclosingClass : ClassContext) (scopes : List Scope)
    (pending : Option String) (exprs : List Expr) {exprs' : List Expr}
    (matched : Expr.MatchesAll matching exprs exprs') :
    (Expr.resolveAll enclosingClass scopes pending exprs).Matches
      (Expr.resolveAll enclosingClass scopes pending exprs') := by
  match exprs, matched with
  | [], .nil => exact .none
  | first :: rest, .cons matched all =>
      exact (first.resolve_matches enclosingClass scopes pending matched).append
        (Expr.resolveAll_matches enclosingClass scopes pending rest all)
end

theorem isSome_of_rel {α β : Type} {R : α → β → Prop} {value : Option α} {value' : Option β}
    (related : Option.Rel R value value') : value'.isSome = value.isSome := by
  cases related <;> rfl

theorem useOf?_matches {parent parent' : Expr} (matched : parent.Matches matching parent')
    {name name' : Token} (related : matching.Tokens name name') :
    Option.Rel matching.Tokens (parent.useOf? name) (parent'.useOf? name') := by
  unfold Expr.useOf?
  rw [matching.lexeme related]
  cases matched with
  | var known used =>
      dsimp only
      rw [matching.lexeme used]
      split
      · exact .some used
      · exact .none
  | _ => exact .none

theorem pendingName_matches (scopes : List Scope) {name name' : Token}
    (related : matching.Tokens name name') : pendingName scopes name' = pendingName scopes name := by
  unfold pendingName
  rw [matching.lexeme related]

mutual
theorem Stmt.resolve_matches (around : Surroundings) (scopes : List Scope) (stmt : Stmt)
    {stmt' : Stmt} (matched : stmt.Matches matching stmt') :
    (stmt.resolve around scopes).1.Matches (stmt'.resolve around scopes).1 ∧
      (stmt'.resolve around scopes).2 = (stmt.resolve around scopes).2 := by
  match stmt, matched with
  | .expression value, .expression matched | .print _ value, .print _ matched =>
      exact ⟨value.resolve_matches around.enclosingClass scopes .none matched, rfl⟩
  | .varDecl name initializer, .varDecl related matched =>
      obtain ⟨declared, inside⟩ := declare_matches scopes related
      simp only [Stmt.resolve, inside, pendingName_matches scopes related]
      exact ⟨declared.append (Expr.resolveAll_matches _ _ _ _ matched), trivial⟩
  | .block body, .block matched =>
      exact ⟨Stmt.resolveAll_matches around ([] :: scopes) body matched, rfl⟩
  | .ifThen condition thenBranch, .ifThen tested matched =>
      obtain ⟨first, scopes'⟩ := thenBranch.resolve_matches around scopes matched
      exact ⟨(condition.resolve_matches around.enclosingClass scopes .none tested).append first,
        scopes'⟩
  | .ifElse condition thenBranch elseBranch, .ifElse tested matched matched' =>
      obtain ⟨first, inside⟩ := thenBranch.resolve_matches around scopes matched
      obtain ⟨second, inside'⟩ := elseBranch.resolve_matches around _ matched'
      simp only [Stmt.resolve, inside]
      exact ⟨((condition.resolve_matches around.enclosingClass scopes .none tested).append
        first).append second, inside'⟩
  | .whileLoop condition body, .whileLoop tested matched =>
      obtain ⟨round, scopes'⟩ := body.resolve_matches around scopes matched
      exact ⟨(condition.resolve_matches around.enclosingClass scopes .none tested).append round,
        scopes'⟩
  | .functionDecl decl, .functionDecl matched =>
      obtain ⟨declared, inside⟩ := declare_matches scopes matched.name
      simp only [Stmt.resolve, inside]
      exact ⟨declared.append (decl.resolve_matches _ _ matched), trivial⟩
  | .returnStmt keyword value, .returnStmt related matched =>
      have misplaced (wrong : Prop) [Decidable wrong] (fault : ScopeFault) (token token' : Token) :
          Resolution.Matches (if wrong then .error token fault else .none)
            (if wrong then .error token' fault else .none) := by
        split
        · exact .error _ _ _
        · exact .none
      have present := isSome_of_rel matched.option
      simp only [Stmt.resolve, present]
      exact ⟨((misplaced _ _ _ _).append (misplaced _ _ _ _)).append
        (Expr.resolveAll_matches _ _ _ _ matched), trivial⟩
  | .classDecl name superclass methods, .classDecl related inherited matched =>
      obtain ⟨declared, inside⟩ := declare_matches scopes related
      rcases relCases inherited.option with ⟨rfl, rfl⟩ | ⟨parent, parent', rfl, rfl, same⟩
      · simp only [Stmt.resolve, inside]
        exact ⟨declared.append (FunctionDecl.resolveMethods_matches _ _ methods matched), trivial⟩
      · simp only [Stmt.resolve, inside]
        refine ⟨((declared.append ?_).append (parent.resolve_matches _ _ _ same)).append
          (FunctionDecl.resolveMethods_matches _ _ methods matched), trivial⟩
        rcases relCases (useOf?_matches same related) with
          ⟨none, none'⟩ | ⟨used, used', found, found', -⟩
        · rw [none, none']
          exact .none
        · rw [found, found']
          exact .error _ _ _

theorem Stmt.resolveAll_matches (around : Surroundings) (scopes : List Scope) (stmts : List Stmt)
    {stmts' : List Stmt} (matched : Stmt.MatchesAll matching stmts stmts') :
    (Stmt.resolveAll around scopes stmts).Matches (Stmt.resolveAll around scopes stmts') := by
  match stmts, matched with
  | [], .nil => exact .none
  | first :: rest, .cons matched all =>
      obtain ⟨found, inside⟩ := first.resolve_matches around scopes matched
      simp only [Stmt.resolveAll, inside]
      exact found.append (Stmt.resolveAll_matches around _ rest all)

theorem FunctionDecl.resolve_matches (around : Surroundings) (scopes : List Scope)
    (decl : FunctionDecl) {decl' : FunctionDecl} (matched : decl.Matches matching decl') :
    (decl.resolve around scopes).Matches (decl'.resolve around scopes) := by
  match decl, matched with
  | ⟨id, name, params, body⟩, .intro _ related matched =>
      obtain ⟨declared, inside⟩ := declareAll_matches ([] :: scopes) related
      simp only [FunctionDecl.resolve, inside]
      exact declared.append (Stmt.resolveAll_matches around _ body matched)

theorem FunctionDecl.resolveMethods_matches (around : Surroundings) (scopes : List Scope)
    (decls : List FunctionDecl) {decls' : List FunctionDecl}
    (matched : FunctionDecl.MatchesAll matching decls decls') :
    (FunctionDecl.resolveMethods around scopes decls).Matches
      (FunctionDecl.resolveMethods around scopes decls') := by
  match decls, matched with
  | [], .nil => exact .none
  | first :: rest, .cons matched all =>
      simp only [FunctionDecl.resolveMethods, FunctionContext.ofMethod,
        matching.lexeme matched.name]
      exact (first.resolve_matches _ scopes matched).append
        (FunctionDecl.resolveMethods_matches around scopes rest all)
end

theorem Stmt.resolve_global (around : Surroundings) (stmt : Stmt) :
    (stmt.resolve around []).2 = [] := by
  match stmt with
  | .expression _ | .print _ _ | .varDecl _ _ | .block _ | .functionDecl _ | .returnStmt _ _ => rfl
  | .classDecl _ superclass _ => cases superclass <;> rfl
  | .ifThen condition thenBranch => exact thenBranch.resolve_global around
  | .ifElse condition thenBranch elseBranch =>
      have same := thenBranch.resolve_global around
      have same' := elseBranch.resolve_global around
      simp only [Stmt.resolve, same, same']
  | .whileLoop condition body => exact body.resolve_global around

theorem Resolution.append_assoc (first second third : Resolution) :
    first ++ second ++ third = first ++ (second ++ third) := by
  show Resolution.append (Resolution.append first second) third =
    Resolution.append first (Resolution.append second third)
  simp only [Resolution.append, List.append_assoc]

theorem Resolution.ofProgram_append (stmts stmts' : List Stmt) :
    Resolution.ofProgram (stmts ++ stmts') =
      Resolution.ofProgram stmts ++ Resolution.ofProgram stmts' := by
  unfold Resolution.ofProgram
  induction stmts with
  | nil => rfl
  | cons first rest ih =>
      simp only [List.cons_append, Stmt.resolveAll, Stmt.resolve_global]
      rw [ih, Resolution.append_assoc]

end Resolved

end Lox
