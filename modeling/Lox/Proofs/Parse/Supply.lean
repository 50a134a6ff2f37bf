import Lox.Proofs.Grammar
import Lox.Proofs.Parse.Likeness

/-!
Which identities a tree has. Whatever a rule reads, and whether it succeeds or is stuck, identities are
never given back: those in its tree were given out while it read, each of them once. A rule that takes
no note has put all that were given out into its tree.
-/

namespace Lox

mutual
/-- The identities in an expression, in the order in which they are given out. -/
def Expr.ids : Expr → List ExprId
  | .literal _ => []
  | .grouping inner | .unary _ inner | .get inner _ => inner.ids
  | .binary left _ right | .logical left _ right | .comma left _ right | .set left _ right =>
      left.ids ++ right.ids
  | .conditional condition thenBranch elseBranch =>
      condition.ids ++ thenBranch.ids ++ elseBranch.ids
  | .var id _ | .this id _ | .super id _ _ => [id]
  | .assign id _ value => id :: value.ids
  | .call callee _ arguments => callee.ids ++ Expr.idsAll arguments

def Expr.idsAll : List Expr → List ExprId
  | [] => []
  | first :: rest => first.ids ++ Expr.idsAll rest
end

mutual
def Stmt.ids : Stmt → List ExprId
  | .expression value | .print _ value => value.ids
  | .varDecl _ value | .returnStmt _ value => Expr.idsAll value.toList
  | .block body => Stmt.idsAll body
  | .ifThen condition body | .whileLoop condition body => condition.ids ++ body.ids
  | .ifElse condition thenBranch elseBranch =>
      condition.ids ++ thenBranch.ids ++ elseBranch.ids
  | .functionDecl decl => decl.ids
  | .classDecl _ superclass methods =>
      Expr.idsAll superclass.toList ++ FunctionDecl.idsAll methods

def Stmt.idsAll : List Stmt → List ExprId
  | [] => []
  | first :: rest => first.ids ++ Stmt.idsAll rest

def FunctionDecl.ids : FunctionDecl → List ExprId
  | ⟨_, _, _, body⟩ => Stmt.idsAll body

def FunctionDecl.idsAll : List FunctionDecl → List ExprId
  | [] => []
  | first :: rest => first.ids ++ FunctionDecl.idsAll rest
end

@[simp] theorem Expr.idsAll_single (expr : Expr) : Expr.idsAll [expr] = expr.ids := by
  simp [Expr.idsAll]

/-- Identities that were given out from `start` on and before `after`, each at most once; if `clean`,
then all of them. -/
structure Issued (start after : Nat) (ids : List Nat) (clean : Prop) : Prop where
  le : start ≤ after
  bounds : ∀ id ∈ ids, start ≤ id ∧ id < after
  nodup : ids.Nodup
  all : clean → after = start + ids.length

namespace Issued

variable {start middle after : Nat} {ids others : List Nat} {clean weaker : Prop}

theorem nil (start : Nat) (clean : Prop) : Issued start start [] clean :=
  ⟨le_rfl, by simp, .nil, fun _ => rfl⟩

theorem imp (issued : Issued start after ids clean) (implies : weaker → clean) :
    Issued start after ids weaker :=
  ⟨issued.le, issued.bounds, issued.nodup, fun holds => issued.all (implies holds)⟩

theorem perm (issued : Issued start after ids clean) (same : ids.Perm others) :
    Issued start after others clean where
  le := issued.le
  bounds := fun id member => issued.bounds id (same.mem_iff.mpr member)
  nodup := same.nodup_iff.mp issued.nodup
  all := fun holds => same.length_eq ▸ issued.all holds

theorem append (first : Issued start middle ids clean) (second : Issued middle after others clean) :
    Issued start after (ids ++ others) clean where
  le := first.le.trans second.le
  bounds := by
    intro id member
    have below := first.le
    have above := second.le
    rcases List.mem_append.mp member with member | member
    · have bound := first.bounds id member
      omega
    · have bound := second.bounds id member
      omega
  nodup := by
    refine List.Nodup.append first.nodup second.nodup ?_
    intro id member member'
    have upper := first.bounds id member
    have lower := second.bounds id member'
    omega
  all := by
    intro holds
    have shorter := first.all holds
    have longer := second.all holds
    rw [List.length_append]
    omega

theorem one (start : Nat) (clean : Prop) : Issued start (start + 1) [start] clean :=
  ⟨Nat.le_succ _, by simp, List.nodup_singleton _, fun _ => rfl⟩

theorem skip (issued : Issued start after ids clean) {start' after' : Nat} (before : start' ≤ start)
    (behind : after ≤ after') (unclean : ¬ weaker) : Issued start' after' ids weaker where
  le := before.trans (issued.le.trans behind)
  bounds := by
    intro id member
    have bound := issued.bounds id member
    omega
  nodup := issued.nodup
  all := fun holds => absurd holds unclean

theorem range (issued : Issued start after ids clean) (holds : clean) :
    ids.Perm (List.range' start (after - start)) := by
  have whole := issued.all holds
  have inside : ids ⊆ List.range' start (after - start) := by
    intro id member
    have bound := issued.bounds id member
    rw [List.mem_range'_1]
    omega
  apply (List.subperm_of_subset issued.nodup inside).perm_of_length_le
  rw [List.length_range']
  omega

end Issued

namespace Parse

def clauseIds (expr : Option Expr) : List ExprId := Expr.idsAll expr.toList

/-- The increment of a `for` loop is read before its body and stands behind it. -/
theorem ids_forLoop (initializer : Option Stmt) (condition increment : Option Expr) (body : Stmt) :
    (Stmt.idsAll initializer.toList ++ clauseIds condition ++ clauseIds increment ++ body.ids).Perm
      (Stmt.forLoop initializer condition increment body).ids := by
  have conditions : (condition.getD (.literal (.bool true))).ids = clauseIds condition := by
    cases condition <;> simp [clauseIds, Expr.ids, Expr.idsAll]
  have loop (round : Stmt) (same : (clauseIds increment ++ body.ids).Perm round.ids) :
      (Stmt.idsAll initializer.toList ++ clauseIds condition ++ clauseIds increment ++ body.ids).Perm
        (Stmt.idsAll initializer.toList ++ (clauseIds condition ++ round.ids)) := by
    simpa using (same.append_left (clauseIds condition)).append_left (Stmt.idsAll initializer.toList)
  have turned (step : Expr) : (clauseIds (some step) ++ body.ids).Perm
      (Stmt.block [body, .expression step]).ids := by
    simp only [clauseIds, Stmt.ids, Stmt.idsAll, Option.toList_some, Expr.idsAll_single,
      List.append_nil]
    exact List.perm_append_comm
  cases increment with
  | none => cases initializer <;>
      simpa [Stmt.forLoop, Stmt.ids, Stmt.idsAll, conditions] using loop body (.refl _)
  | some step => cases initializer <;>
      simpa [Stmt.forLoop, Stmt.ids, Stmt.idsAll, conditions] using loop _ (turned step)

end Parse

def TreeSort.ids : (sort : TreeSort) → sort.Tree → List ExprId
  | expr => Expr.ids
  | exprs => Expr.idsAll
  | stmt => Stmt.ids
  | stmts => Stmt.idsAll
  | decl => FunctionDecl.ids
  | decls => FunctionDecl.idsAll

namespace Likeness

variable {like : Likeness} {start after : Standing}

theorem Trees.issued {sort : TreeSort} {tree tree' : sort.Tree}
    (trees : like.Trees sort start after tree tree') :
    Issued start.nextExpr after.nextExpr (sort.ids tree) (¬ after.noted) := by
  have joined {start middle after : Standing} {ids others : List ExprId}
      (first : Issued start.nextExpr middle.nextExpr ids (¬ middle.noted))
      (second : Issued middle.nextExpr after.nextExpr others (¬ after.noted))
      (later : middle.noted → after.noted) :
      Issued start.nextExpr after.nextExpr (ids ++ others) (¬ after.noted) :=
    (first.imp (mt later)).append second
  induction trees with
  | skipped _ le noted trees ih => exact ih.skip le le_rfl (not_not.mpr (trees.noted noted))
  | unassigned _ _ _ _ ih ih' => exact ih.skip le_rfl ih'.le (not_not.mpr trivial)
  | noExpr | constant | literal | noStmt | noDecl => exact .nil _ _
  | var | this | super => exact .one _ _
  | grouping _ ih | unary _ _ _ ih | get _ _ _ ih | expression _ ih | print _ _ _ ih
  | varDecl _ _ _ ih | returnStmt _ _ _ ih | block _ ih | functionDecl _ ih
  | function _ _ _ _ _ ih => exact ih
  | moreExprs _ second ih ih' | assign _ second ih ih' | set _ second ih ih'
  | call _ _ _ second ih ih' | moreStmts _ second ih ih' | ifThen _ second ih ih'
  | whileLoop _ second ih ih' | classDecl _ _ _ second ih ih' | moreDecls _ second ih ih' =>
      exact joined ih ih' second.noted
  | @combine _ _ _ _ _ _ _ _ _ level _ _ _ second ih ih' =>
      cases level <;> exact joined ih ih' second.noted
  | conditional _ second third ih ih' ih'' | ifElse _ second third ih ih' ih'' =>
      exact joined (joined ih ih' second.noted) ih'' third.noted
  | forLoop _ second third fourth ih ih' ih'' ih''' =>
      refine Issued.perm ?_ (Parse.ids_forLoop ..)
      exact joined (joined (joined ih ih' second.noted) ih'' third.noted) ih''' fourth.noted

theorem Completes.issued {sort : TreeSort} {tree tree' : sort.Tree} {supply : Supply}
    {found found' : List Complaint × Supply}
    (whole : like.Completes sort ⟨supply, False⟩ tree tree' found found') :
    Issued supply.nextExpr found.2.nextExpr (sort.ids tree) (found.1 = []) := by
  obtain ⟨after, rest, -, -, noted, trees⟩ := whole
  rw [rest]
  exact trees.issued.imp fun clean => by simp [noted, clean]

end Likeness

namespace Parse

theorem declarations_issued (start : Position) :
    Issued start.supply.nextExpr (declarations start).2.2.nextExpr
      (Stmt.idsAll (declarations start).1) ((declarations start).2.1 = []) :=
  (@Likeness.declarations _ ⟨start.supply, False⟩ _ _ (Likeness.same_offset {} start.rest)).issued

theorem lone_issued (start : Position) :
    Issued start.supply.nextExpr (lone start).2.2.nextExpr (clauseIds (lone start).1)
      ((lone start).2.1 = []) :=
  (@Likeness.lone _ ⟨start.supply, False⟩ _ _ (Likeness.same_offset {} start.rest)).issued

theorem program_issued (tokens : List Token) (supply : Supply) :
    Issued supply.nextExpr (program tokens supply).supply.nextExpr
      (Stmt.idsAll (program tokens supply).tree) ((program tokens supply).errors = []) :=
  (declarations_issued ⟨words tokens, supply⟩).imp List.map_eq_nil_iff.mp

theorem expression_issued (tokens : List Token) (supply : Supply) :
    Issued supply.nextExpr (expression tokens supply).supply.nextExpr
      (clauseIds (expression tokens supply).tree) ((expression tokens supply).errors = []) :=
  (lone_issued ⟨words tokens, supply⟩).imp List.map_eq_nil_iff.mp

end Parse

/-! Derivations give out what is in their trees. -/

namespace Grammar

def Phrase.ids : (phrase : Phrase) → phrase.Tree → List ExprId
  | arguments => Expr.idsAll
  | assignment _ | conditional _ | chain _ | call | primary => Expr.ids

variable {start after : Supply} {words : List Token}

theorem ExprDerives.issued {phrase : Phrase} {tree : phrase.Tree}
    (derived : ExprDerives phrase start words tree after) :
    Issued start.nextExpr after.nextExpr (phrase.ids tree) True := by
  induction derived with
  | plain _ ih | unconditional _ ih | single _ ih | unsigned _ ih | uncalled _ ih | negation _ _ ih
  | get _ _ _ ih | grouping _ _ _ ih => exact ih
  | falseWord | trueWord | nilWord | literal => exact .nil _ _
  | this | super | var => exact .one _ _
  | assign _ _ _ ih ih' | set _ _ _ ih ih' | nextArgument _ _ _ ih ih' | call _ _ _ _ _ ih ih' =>
      exact ih.append ih'
  | @operation level _ _ _ _ _ _ _ _ _ _ _ ih ih' => cases level <;> exact ih.append ih'
  | choice _ _ _ _ _ ih ih' ih'' => exact (ih.append ih').append ih''
  | callEmpty _ _ _ ih | argument _ ih => exact ih.append (.nil _ _)

theorem OptionalExpr.issued {expr : Option Expr} (derived : OptionalExpr start words expr after) :
    Issued start.nextExpr after.nextExpr (Parse.clauseIds expr) True := by
  cases derived with
  | absent => exact .nil _ _
  | present derived => exact derived.issued.append (.nil _ _)

theorem ExprStmt.issued {stmt : Stmt} (derived : ExprStmt start words stmt after) :
    Issued start.nextExpr after.nextExpr stmt.ids True := by
  cases derived with
  | intro derived => exact derived.issued

theorem VarDecl.issued {stmt : Stmt} (derived : VarDecl start words stmt after) :
    Issued start.nextExpr after.nextExpr stmt.ids True := by
  cases derived with
  | bare => exact .nil _ _
  | initialized _ _ _ derived => exact derived.issued.append (.nil _ _)

theorem ForInitializer.issued {stmt : Option Stmt} (derived : ForInitializer start words stmt after) :
    Issued start.nextExpr after.nextExpr (Stmt.idsAll stmt.toList) True := by
  cases derived with
  | absent => exact .nil _ _
  | declared derived => exact derived.issued.append (.nil _ _)
  | expression derived => exact derived.issued.append (.nil _ _)

def Clause.ids : (clause : Clause) → clause.Tree → List ExprId
  | declarations => Stmt.idsAll
  | declaration _ | statement _ => Stmt.ids
  | function => FunctionDecl.ids
  | functions => FunctionDecl.idsAll

theorem StmtDerives.issued {nearest : Bool} {clause : Clause} {tree : clause.Tree}
    (derived : StmtDerives nearest clause start words tree after) :
    Issued start.nextExpr after.nextExpr (clause.ids tree) True := by
  induction derived with
  | none | noMethod => exact .nil _ _
  | next _ _ ih ih' | nextMethod _ _ ih ih' => exact ih.append ih'
  | classDecl _ _ _ _ _ ih | funDecl _ _ ih | statement _ ih | function _ _ _ _ _ _ _ ih
  | block _ _ _ ih => exact ih
  | subclassDecl _ _ _ _ _ _ _ ih => exact (Issued.one _ _).append ih
  | varDecl derived => exact derived.issued
  | exprStmt derived => exact derived.issued
  | print _ derived => exact derived.issued
  | returnStmt _ derived => exact derived.issued
  | ifThen _ _ conditional _ _ ih | whileLoop _ _ conditional _ _ ih =>
      exact conditional.issued.append ih
  | ifElse _ _ conditional _ _ _ _ _ ih ih' => exact (conditional.issued.append ih).append ih'
  | forLoop _ _ initialized conditioned _ incremented _ _ ih =>
      have clauses := (initialized.issued.append conditioned.issued).append incremented.issued
      rw [expansion_eq_forLoop]
      exact (clauses.append ih).perm (Parse.ids_forLoop ..)

end Grammar

end Lox
