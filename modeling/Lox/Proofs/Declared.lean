import Lox.Proofs.Grammar
import Lox.Proofs.Node
import Mathlib.Data.List.Pairwise
import Mathlib.Order.Basic

/-!
The functions that statements declare. In a tree of the grammar no branch and no body of a loop is
itself the declaration of a function, and functions that are declared side by side have different
identities, which grow in the order of the declarations.
-/

namespace Lox

def Stmt.function? : Stmt → Option DeclId
  | .functionDecl decl => some decl.id
  | _ => none

def Stmt.functions (stmts : List Stmt) : List DeclId := stmts.filterMap Stmt.function?

@[simp] theorem Stmt.functions_nil : functions [] = [] := rfl

theorem Stmt.functions_cons (first : Stmt) (rest : List Stmt) :
    functions (first :: rest) = first.function?.toList ++ functions rest := by
  cases declared : first.function? <;> simp [functions, declared]

namespace Node

def TidyHere : Node → Prop
  | stmt (.block body) => (Stmt.functions body).Nodup
  | stmt (.ifThen _ branch) | stmt (.whileLoop _ branch) => branch.function? = none
  | stmt (.ifElse _ thenBranch elseBranch) =>
      thenBranch.function? = none ∧ elseBranch.function? = none
  | function decl | method decl => (Stmt.functions decl.body).Nodup
  | expr _ | stmt _ => True

/-- In the node each function is declared once, and has a scope in which it is. -/
def Tidy (node : Node) : Prop := node.Everywhere TidyHere

variable {node : Node}

theorem tidy_iff : node.Tidy ↔ node.TidyHere ∧ ∀ child ∈ node.parts, child.Tidy := everywhere_iff

theorem Tidy.here (tidy : node.Tidy) : node.TidyHere := (tidy_iff.mp tidy).1

theorem tidy_expr (whole : Expr) : (expr whole).Tidy := by
  induction whole using Expr.induction_parts with
  | step whole ih =>
      rw [tidy_iff]
      exact ⟨trivial, by simpa [parts] using ih⟩

theorem tidy_method {decl : FunctionDecl} : (method decl).Tidy ↔ (function decl).Tidy := by
  rw [tidy_iff, tidy_iff]
  rfl

end Node

namespace Grammar

/-! Which identities a derivation gives out. -/

theorem ExprDerives.nextDecl {phrase : Phrase} {start after : Supply} {words : List Token}
    {tree : phrase.Tree} (derived : ExprDerives phrase start words tree after) :
    after.nextDecl = start.nextDecl := by
  induction derived with
  | plain _ ih | unconditional _ ih | single _ ih | unsigned _ ih | uncalled _ ih | argument _ ih
  | negation _ _ ih | callEmpty _ _ _ ih | get _ _ _ ih | grouping _ _ _ ih => exact ih
  | assign _ _ _ ih ih' | set _ _ _ ih ih' | operation _ _ _ ih ih' | call _ _ _ _ _ ih ih'
  | nextArgument _ _ _ ih ih' => exact ih'.trans ih
  | choice _ _ _ _ _ ih ih' ih'' => exact ih''.trans (ih'.trans ih)
  | falseWord | trueWord | nilWord | literal | this | super | var => rfl

theorem OptionalExpr.nextDecl {start after : Supply} {words : List Token} {expr : Option Expr}
    (derived : OptionalExpr start words expr after) : after.nextDecl = start.nextDecl := by
  cases derived with
  | absent => rfl
  | present derived => exact derived.nextDecl

theorem ExprStmt.nextDecl {start after : Supply} {words : List Token} {stmt : Stmt}
    (derived : ExprStmt start words stmt after) : after.nextDecl = start.nextDecl := by
  cases derived with
  | intro derived => exact derived.nextDecl

theorem VarDecl.nextDecl {start after : Supply} {words : List Token} {stmt : Stmt}
    (derived : VarDecl start words stmt after) : after.nextDecl = start.nextDecl := by
  cases derived with
  | bare => rfl
  | initialized _ _ _ derived => exact derived.nextDecl

theorem ForInitializer.nextDecl {start after : Supply} {words : List Token}
    {initializer : Option Stmt} (derived : ForInitializer start words initializer after) :
    after.nextDecl = start.nextDecl := by
  cases derived with
  | absent => rfl
  | declared derived => exact derived.nextDecl
  | expression derived => exact derived.nextDecl

theorem StmtDerives.nextDecl_le {nearest : Bool} {clause : Clause} {start after : Supply}
    {words : List Token} {tree : clause.Tree}
    (derived : StmtDerives nearest clause start words tree after) :
    start.nextDecl ≤ after.nextDecl := by
  induction derived with
  | none | noMethod => exact le_rfl
  | next _ _ ih ih' | nextMethod _ _ ih ih' => exact ih.trans ih'
  | classDecl _ _ _ _ _ ih | subclassDecl _ _ _ _ _ _ _ ih | funDecl _ _ ih | statement _ ih
  | block _ _ _ ih => exact ih
  | function _ _ _ _ _ _ _ ih => exact ih.trans (Nat.le_succ _)
  | varDecl derived => exact derived.nextDecl.ge
  | exprStmt derived => exact derived.nextDecl.ge
  | print _ derived => exact derived.nextDecl.ge
  | returnStmt _ derived => exact derived.nextDecl.ge
  | ifThen _ _ conditional _ _ ih | whileLoop _ _ conditional _ _ ih =>
      exact conditional.nextDecl.ge.trans ih
  | ifElse _ _ conditional _ _ _ _ _ ih ih' => exact conditional.nextDecl.ge.trans (ih.trans ih')
  | forLoop _ _ initialized conditioned _ incremented _ _ ih =>
      have stepped := incremented.nextDecl.ge.trans ih
      exact initialized.nextDecl.ge.trans (conditioned.nextDecl.ge.trans stepped)

/-! What is declared with them. -/

theorem VarDecl.tidy {start after : Supply} {words : List Token} {stmt : Stmt}
    (derived : VarDecl start words stmt after) :
    (Node.stmt stmt).Tidy ∧ stmt.function? = none := by
  cases derived with
  | bare => exact ⟨Node.tidy_iff.mpr ⟨trivial, by simp [Node.parts]⟩, rfl⟩
  | initialized => exact ⟨Node.tidy_iff.mpr ⟨trivial, by simp [Node.parts, Node.tidy_expr]⟩, rfl⟩

theorem ExprStmt.tidy {start after : Supply} {words : List Token} {stmt : Stmt}
    (derived : ExprStmt start words stmt after) :
    (Node.stmt stmt).Tidy ∧ stmt.function? = none := by
  cases derived with
  | intro => exact ⟨Node.tidy_iff.mpr ⟨trivial, by simp [Node.parts, Node.tidy_expr]⟩, rfl⟩

theorem ForInitializer.tidy {start after : Supply} {words : List Token}
    {initializer : Option Stmt} (derived : ForInitializer start words initializer after) :
    ∀ first ∈ initializer, (Node.stmt first).Tidy ∧ first.function? = none := by
  cases derived with
  | absent => simp
  | declared derived => simpa using derived.tidy
  | expression derived => simpa using derived.tidy

theorem nodup_functions_pair {first second : Stmt} (bare : first.function? = none)
    (bare' : second.function? = none) : (Stmt.functions [first, second]).Nodup := by
  simp [Stmt.functions_cons, bare, bare']

theorem tidy_block {body : List Stmt} (distinct : (Stmt.functions body).Nodup)
    (tidy : ∀ stmt ∈ body, (Node.stmt stmt).Tidy) : (Node.stmt (.block body)).Tidy :=
  Node.tidy_iff.mpr ⟨distinct, by simpa [Node.parts] using tidy⟩

theorem tidy_forLoop {initializer : Option Stmt} {condition increment : Option Expr} {body : Stmt}
    (initialized : ∀ first ∈ initializer, (Node.stmt first).Tidy ∧ first.function? = none)
    (executed : (Node.stmt body).Tidy ∧ body.function? = none) :
    (Node.stmt (.forLoop initializer condition increment body)).Tidy ∧
      (Stmt.forLoop initializer condition increment body).function? = none := by
  have looped {round : Stmt} (tidy : (Node.stmt round).Tidy) (bare : round.function? = none) :
      (Node.stmt (.whileLoop (condition.getD (.literal (.bool true))) round)).Tidy :=
    Node.tidy_iff.mpr ⟨bare, by simp [Node.parts, Node.tidy_expr, tidy]⟩
  have stepped (step : Expr) : (Node.stmt (.block [body, .expression step])).Tidy := by
    have last : (Node.stmt (.expression step)).Tidy :=
      Node.tidy_iff.mpr ⟨trivial, by simp [Node.parts, Node.tidy_expr]⟩
    exact tidy_block (nodup_functions_pair executed.2 rfl) (by simp [executed.1, last])
  have started {first : Stmt} {round : Stmt} (member : first ∈ initializer)
      (tidy : (Node.stmt round).Tidy) (bare : round.function? = none) :
      (Node.stmt (.block [first, .whileLoop (condition.getD (.literal (.bool true))) round])).Tidy :=
    tidy_block (nodup_functions_pair (initialized first member).2 rfl)
      (by simp [(initialized first member).1, looped tidy bare])
  cases initializer with
  | none =>
      cases increment with
      | none => exact ⟨looped executed.1 executed.2, rfl⟩
      | some step => exact ⟨looped (stepped step) rfl, rfl⟩
  | some first =>
      cases increment with
      | none => exact ⟨started rfl executed.1 executed.2, rfl⟩
      | some step => exact ⟨started rfl (stepped step) rfl, rfl⟩

def Clause.Tidy (start after : Supply) : (clause : Clause) → clause.Tree → Prop
  | declarations, stmts =>
      (∀ stmt ∈ stmts, (Node.stmt stmt).Tidy) ∧ (Stmt.functions stmts).Pairwise (· < ·) ∧
        ∀ id ∈ Stmt.functions stmts, start.nextDecl ≤ id ∧ id < after.nextDecl
  | declaration _, stmt =>
      (Node.stmt stmt).Tidy ∧ ∀ id ∈ stmt.function?, start.nextDecl ≤ id ∧ id < after.nextDecl
  | statement _, stmt => (Node.stmt stmt).Tidy ∧ stmt.function? = none
  | function, decl => (Node.function decl).Tidy ∧ start.nextDecl ≤ decl.id ∧ decl.id < after.nextDecl
  | functions, decls => ∀ decl ∈ decls, (Node.function decl).Tidy

theorem tidy_next {start middle after : Supply} {stmt : Stmt} {stmts : List Stmt} {isOpen : Bool}
    (early : start.nextDecl ≤ middle.nextDecl) (late : middle.nextDecl ≤ after.nextDecl)
    (first : (Clause.declaration isOpen).Tidy start middle stmt)
    (rest : Clause.declarations.Tidy middle after stmts) :
    Clause.declarations.Tidy start after (stmt :: stmts) := by
  obtain ⟨tidy, given⟩ := first
  obtain ⟨tidy', ordered, given'⟩ := rest
  refine ⟨List.forall_mem_cons.mpr ⟨tidy, tidy'⟩, ?_, ?_⟩
  · rw [Stmt.functions_cons, List.pairwise_append]
    refine ⟨by cases stmt.function? <;> simp, ordered, fun id member other listed => ?_⟩
    exact (given id (by simpa using member)).2.trans_le (given' other listed).1
  · rw [Stmt.functions_cons, List.forall_mem_append]
    constructor
    · intro id member
      obtain ⟨le, lt⟩ := given id (by simpa using member)
      exact ⟨le, lt.trans_le late⟩
    · intro id listed
      obtain ⟨le, lt⟩ := given' id listed
      exact ⟨early.trans le, lt⟩

theorem StmtDerives.tidy {nearest : Bool} {clause : Clause} {start after : Supply}
    {words : List Token} {tree : clause.Tree}
    (derived : StmtDerives nearest clause start words tree after) :
    clause.Tidy start after tree := by
  induction derived with
  | none => exact ⟨by simp, .nil, by simp⟩
  | next first rest ih ih' => exact tidy_next first.nextDecl_le rest.nextDecl_le ih ih'
  | noMethod => simp [Clause.Tidy]
  | nextMethod _ _ ih ih' => exact List.forall_mem_cons.mpr ⟨ih.1, ih'⟩
  | classDecl _ _ _ _ _ ih =>
      have methods : ∀ decl ∈ _, (Node.function decl).Tidy := ih
      exact ⟨Node.tidy_iff.mpr ⟨trivial, by simpa [Node.parts, Node.tidy_method] using methods⟩,
        by simp [Stmt.function?]⟩
  | subclassDecl _ _ _ _ _ _ _ ih =>
      have methods : ∀ decl ∈ _, (Node.function decl).Tidy := ih
      refine ⟨Node.tidy_iff.mpr ⟨trivial, ?_⟩, by simp [Stmt.function?]⟩
      simpa [Node.parts, Node.tidy_method, Node.tidy_expr] using methods
  | funDecl _ _ ih =>
      obtain ⟨tidy, given⟩ := ih
      exact ⟨Node.tidy_iff.mpr ⟨trivial, by simpa [Node.parts] using tidy⟩,
        by simpa [Stmt.function?] using given⟩
  | varDecl derived => exact ⟨derived.tidy.1, by simp [derived.tidy.2]⟩
  | statement _ ih => exact ⟨ih.1, by simp [ih.2]⟩
  | function _ _ _ _ _ body _ ih =>
      obtain ⟨tidy, ordered, -⟩ := ih
      have distinct : (Stmt.functions _).Nodup := ordered.imp Nat.ne_of_lt
      exact ⟨Node.tidy_iff.mpr ⟨distinct, by simpa [Node.parts] using tidy⟩, body.nextDecl_le,
        Nat.lt_succ_self _⟩
  | exprStmt derived => exact derived.tidy
  | forLoop _ _ initialized _ _ _ _ _ ih =>
      rw [expansion_eq_forLoop]
      exact tidy_forLoop initialized.tidy ih
  | ifThen _ _ _ _ _ ih | whileLoop _ _ _ _ _ ih =>
      obtain ⟨tidy, bare⟩ := ih
      exact ⟨Node.tidy_iff.mpr ⟨bare, by simpa [Node.parts, Node.tidy_expr] using tidy⟩, rfl⟩
  | ifElse _ _ _ _ _ _ _ _ ih ih' =>
      obtain ⟨tidy, bare⟩ := ih
      obtain ⟨tidy', bare'⟩ := ih'
      refine ⟨Node.tidy_iff.mpr ⟨⟨bare, bare'⟩, ?_⟩, rfl⟩
      simpa [Node.parts, Node.tidy_expr] using ⟨tidy, tidy'⟩
  | print => exact ⟨Node.tidy_iff.mpr ⟨trivial, by simp [Node.parts, Node.tidy_expr]⟩, rfl⟩
  | returnStmt => exact ⟨Node.tidy_iff.mpr ⟨trivial, by simp [Node.parts, Node.tidy_expr]⟩, rfl⟩
  | block _ _ _ ih =>
      obtain ⟨tidy, ordered, -⟩ := ih
      exact ⟨tidy_block (ordered.imp Nat.ne_of_lt) tidy, rfl⟩

end Grammar

end Lox
