import Lox.Proofs.Parse.Likeness

/-!
Readings that begin at later identities. No rule looks at the identities that it gives out: when more of
them were given out before, a rule reads the same tokens, takes the same notes and comes to the same end.
Only the identities in its tree are later, all by the same number.
-/

namespace Lox

section Trees

variable (offset : Supply)

mutual
def Expr.shift : Expr → Expr
  | .literal value => .literal value
  | .grouping inner => .grouping inner.shift
  | .unary operator operand => .unary operator operand.shift
  | .binary left operator right => .binary left.shift operator right.shift
  | .logical left operator right => .logical left.shift operator right.shift
  | .comma left operator right => .comma left.shift operator right.shift
  | .conditional condition thenBranch elseBranch =>
      .conditional condition.shift thenBranch.shift elseBranch.shift
  | .var id name => .var (id + offset.nextExpr) name
  | .assign id name value => .assign (id + offset.nextExpr) name value.shift
  | .call callee paren arguments => .call callee.shift paren (Expr.shiftAll arguments)
  | .get object name => .get object.shift name
  | .set object name value => .set object.shift name value.shift
  | .this id keyword => .this (id + offset.nextExpr) keyword
  | .super id keyword method => .super (id + offset.nextExpr) keyword method

def Expr.shiftAll : List Expr → List Expr
  | [] => []
  | first :: rest => first.shift :: Expr.shiftAll rest
end

mutual
def Stmt.shift : Stmt → Stmt
  | .expression value => .expression (value.shift offset)
  | .print keyword value => .print keyword (value.shift offset)
  | .varDecl name initializer => .varDecl name (initializer.map (Expr.shift offset))
  | .block body => .block (Stmt.shiftAll body)
  | .ifThen condition thenBranch => .ifThen (condition.shift offset) thenBranch.shift
  | .ifElse condition thenBranch elseBranch =>
      .ifElse (condition.shift offset) thenBranch.shift elseBranch.shift
  | .whileLoop condition body => .whileLoop (condition.shift offset) body.shift
  | .functionDecl decl => .functionDecl decl.shift
  | .returnStmt keyword value => .returnStmt keyword (value.map (Expr.shift offset))
  | .classDecl name superclass methods =>
      .classDecl name (superclass.map (Expr.shift offset)) (FunctionDecl.shiftAll methods)

def Stmt.shiftAll : List Stmt → List Stmt
  | [] => []
  | first :: rest => first.shift :: Stmt.shiftAll rest

def FunctionDecl.shift : FunctionDecl → FunctionDecl
  | ⟨id, name, params, body⟩ => ⟨id + offset.nextDecl, name, params, Stmt.shiftAll body⟩

def FunctionDecl.shiftAll : List FunctionDecl → List FunctionDecl
  | [] => []
  | first :: rest => first.shift :: FunctionDecl.shiftAll rest
end

end Trees

variable {offset : Supply}

theorem Expr.shiftAll_toList (expr : Option Expr) :
    Expr.shiftAll offset expr.toList = (expr.map (Expr.shift offset)).toList := by
  cases expr <;> rfl

theorem Stmt.forLoop_shift (initializer : Option Stmt) (condition increment : Option Expr)
    (body : Stmt) :
    Stmt.forLoop (initializer.map (Stmt.shift offset)) (condition.map (Expr.shift offset))
        (increment.map (Expr.shift offset)) (body.shift offset) =
      (Stmt.forLoop initializer condition increment body).shift offset := by
  cases initializer <;> cases condition <;> cases increment <;> rfl

def TreeSort.shift (offset : Supply) : (sort : TreeSort) → sort.Tree → sort.Tree
  | expr => Expr.shift offset
  | exprs => Expr.shiftAll offset
  | stmt => Stmt.shift offset
  | stmts => Stmt.shiftAll offset
  | decl => FunctionDecl.shift offset
  | decls => FunctionDecl.shiftAll offset

theorem Expr.eq_map_shift {expr expr' : Option Expr}
    (same : expr'.toList = Expr.shiftAll offset expr.toList) :
    expr' = expr.map (Expr.shift offset) := by
  cases expr <;> cases expr' <;> simp_all [Expr.shiftAll]

theorem Stmt.eq_map_shift {stmt stmt' : Option Stmt}
    (same : stmt'.toList = Stmt.shiftAll offset stmt.toList) :
    stmt' = stmt.map (Stmt.shift offset) := by
  cases stmt <;> cases stmt' <;> simp_all [Stmt.shiftAll]

namespace Likeness

variable {known : Token → Prop}

theorem Trees.eq_shift {sort : TreeSort} {start after : Standing} {tree tree' : sort.Tree}
    (trees : (itself known offset).Trees sort start after tree tree') :
    tree' = sort.shift offset tree := by
  induction trees with
  | skipped _ _ _ _ ih | unassigned _ _ _ _ ih => exact ih
  | noExpr | constant | literal | noStmt | noDecl => rfl
  | grouping _ ih | expression _ ih | block _ ih | functionDecl _ ih =>
      subst ih
      rfl
  | moreExprs _ _ ih ih' | moreStmts _ _ ih ih' | moreDecls _ _ ih ih' | ifThen _ _ ih ih'
  | whileLoop _ _ ih ih' =>
      subst ih ih'
      rfl
  | conditional _ _ _ ih ih' ih'' | ifElse _ _ _ ih ih' ih'' =>
      subst ih ih' ih''
      rfl
  | unary token _ _ ih | get _ token _ ih | print token _ _ ih =>
      obtain ⟨rfl, -⟩ := token
      subst ih
      rfl
  | @combine _ _ _ _ _ _ _ _ _ level _ token _ _ ih ih' =>
      obtain ⟨rfl, -⟩ := token
      subst ih ih'
      cases level <;> rfl
  | call _ token _ _ ih ih' =>
      obtain ⟨rfl, -⟩ := token
      subst ih ih'
      rfl
  | var token | this token =>
      obtain ⟨rfl, -⟩ := token
      rfl
  | super token _ method =>
      obtain ⟨⟨rfl, -⟩, rfl, -⟩ := And.intro token method
      rfl
  | assign _ _ ih ih' | set _ _ ih ih' =>
      cases ih
      subst ih'
      rfl
  | varDecl token _ _ ih | returnStmt token _ _ ih =>
      obtain ⟨rfl, -⟩ := token
      rw [Expr.eq_map_shift ih]
      rfl
  | forLoop _ _ _ _ ih ih' ih'' ih''' =>
      rw [Stmt.eq_map_shift ih, Expr.eq_map_shift ih', Expr.eq_map_shift ih'', ih''']
      exact Stmt.forLoop_shift ..
  | classDecl token _ _ _ ih ih' =>
      obtain ⟨rfl, -⟩ := token
      rw [Expr.eq_map_shift ih, ih']
      rfl
  | function token _ params _ _ ih =>
      obtain ⟨rfl, -⟩ := token
      rw [eq_of_same params, ih]
      rfl

theorem Completes.eq_shift {sort : TreeSort} {start : Standing} {tree tree' : sort.Tree}
    {found found' : List Complaint × Supply}
    (whole : (itself known offset).Completes sort start tree tree' found found') :
    tree' = sort.shift offset tree ∧ found' = (found.1, found.2.plus offset) := by
  obtain ⟨after, supply, supply', notes, -, trees⟩ := whole
  exact ⟨trees.eq_shift, Prod.ext (eq_of_complaints notes) (by rw [supply, supply']; rfl)⟩

end Likeness

theorem Supply.first_plus (supply : Supply) : ({} : Supply).plus supply = supply := by
  simp [Supply.plus]

namespace Parse

theorem declarations_shift (offset : Supply) (tokens : List Token) (supply : Supply) :
    declarations ⟨tokens, supply.plus offset⟩ =
      (Stmt.shiftAll offset (declarations ⟨tokens, supply⟩).1, (declarations ⟨tokens, supply⟩).2.1,
        (declarations ⟨tokens, supply⟩).2.2.plus offset) := by
  have whole := @Likeness.declarations _ ⟨supply, False⟩ _ _ (Likeness.same_offset offset tokens)
  exact Prod.ext whole.eq_shift.1 whole.eq_shift.2

theorem lone_shift (offset : Supply) (tokens : List Token) (supply : Supply) :
    lone ⟨tokens, supply.plus offset⟩ =
      ((lone ⟨tokens, supply⟩).1.map (Expr.shift offset), (lone ⟨tokens, supply⟩).2.1,
        (lone ⟨tokens, supply⟩).2.2.plus offset) := by
  have whole := @Likeness.lone _ ⟨supply, False⟩ _ _ (Likeness.same_offset offset tokens)
  exact Prod.ext (Expr.eq_map_shift whole.eq_shift.1) whole.eq_shift.2

theorem program_shift (offset : Supply) (tokens : List Token) (supply : Supply) :
    program tokens (supply.plus offset) =
      ⟨Stmt.shiftAll offset (program tokens supply).tree, (program tokens supply).errors,
        (program tokens supply).supply.plus offset⟩ := by
  unfold program
  rw [declarations_shift]

theorem expression_shift (offset : Supply) (tokens : List Token) (supply : Supply) :
    expression tokens (supply.plus offset) =
      ⟨(expression tokens supply).tree.map (Expr.shift offset), (expression tokens supply).errors,
        (expression tokens supply).supply.plus offset⟩ := by
  unfold expression
  rw [lone_shift]

end Parse

end Lox
