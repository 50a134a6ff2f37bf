import Lox.Proofs.Parse.Supply
import Lox.Proofs.Run.Pairing

/-!
Runs that match. Two runs may differ in where the tokens of their trees stand, in the depths recorded
for names that neither of them comes to, and in how often their output was flushed. Here it is said when
trees and values match. Runs of trees that match go in step.
-/

namespace Lox

/-- Which tokens stand for each other, and for which identities the same depth is recorded. Both sinks
fail in the same way when they are flushed. -/
structure Matching where
  Tokens : Token → Token → Prop
  Ids : ExprId → Prop
  flushFault : Nat → Option HostFault
  kind : ∀ {token token'}, Tokens token token' → token'.kind = token.kind
  lexeme : ∀ {token token'}, Tokens token token' → token'.lexeme = token.lexeme

/-! Trees that are the same but for their tokens. -/

section Trees

variable (matching : Matching)

mutual
inductive Expr.Matches : Expr → Expr → Prop
  | literal (value : Constant) : Expr.Matches (.literal value) (.literal value)
  | grouping {inner inner'} : Expr.Matches inner inner' →
      Expr.Matches (.grouping inner) (.grouping inner')
  | unary {operator operator' operand operand'} : matching.Tokens operator operator' →
      Expr.Matches operand operand' →
      Expr.Matches (.unary operator operand) (.unary operator' operand')
  | binary {left left' operator operator' right right'} : Expr.Matches left left' →
      matching.Tokens operator operator' → Expr.Matches right right' →
      Expr.Matches (.binary left operator right) (.binary left' operator' right')
  | logical {left left' operator operator' right right'} : Expr.Matches left left' →
      matching.Tokens operator operator' → Expr.Matches right right' →
      Expr.Matches (.logical left operator right) (.logical left' operator' right')
  | comma {left left' operator operator' right right'} : Expr.Matches left left' →
      matching.Tokens operator operator' → Expr.Matches right right' →
      Expr.Matches (.comma left operator right) (.comma left' operator' right')
  | conditional {condition condition' thenBranch thenBranch' elseBranch elseBranch'} :
      Expr.Matches condition condition' → Expr.Matches thenBranch thenBranch' →
      Expr.Matches elseBranch elseBranch' →
      Expr.Matches (.conditional condition thenBranch elseBranch)
        (.conditional condition' thenBranch' elseBranch')
  | var {id name name'} : matching.Ids id → matching.Tokens name name' →
      Expr.Matches (.var id name) (.var id name')
  | assign {id name name' value value'} : matching.Ids id → matching.Tokens name name' →
      Expr.Matches value value' → Expr.Matches (.assign id name value) (.assign id name' value')
  | call {callee callee' paren paren' arguments arguments'} : Expr.Matches callee callee' →
      matching.Tokens paren paren' → Expr.MatchesAll arguments arguments' →
      Expr.Matches (.call callee paren arguments) (.call callee' paren' arguments')
  | get {object object' name name'} : Expr.Matches object object' →
      matching.Tokens name name' → Expr.Matches (.get object name) (.get object' name')
  | set {object object' name name' value value'} : Expr.Matches object object' →
      matching.Tokens name name' → Expr.Matches value value' →
      Expr.Matches (.set object name value) (.set object' name' value')
  | this {id keyword keyword'} : matching.Ids id → matching.Tokens keyword keyword' →
      Expr.Matches (.this id keyword) (.this id keyword')
  | super {id keyword keyword' method method'} : matching.Ids id →
      matching.Tokens keyword keyword' → matching.Tokens method method' →
      Expr.Matches (.super id keyword method) (.super id keyword' method')

inductive Expr.MatchesAll : List Expr → List Expr → Prop
  | nil : Expr.MatchesAll [] []
  | cons {first first' rest rest'} : Expr.Matches first first' → Expr.MatchesAll rest rest' →
      Expr.MatchesAll (first :: rest) (first' :: rest')
end

mutual
inductive Stmt.Matches : Stmt → Stmt → Prop
  | expression {value value'} : value.Matches matching value' →
      Stmt.Matches (.expression value) (.expression value')
  | print {keyword keyword' value value'} : matching.Tokens keyword keyword' →
      value.Matches matching value' → Stmt.Matches (.print keyword value) (.print keyword' value')
  | varDecl {name name'} {initializer initializer' : Option Expr} : matching.Tokens name name' →
      Expr.MatchesAll matching initializer.toList initializer'.toList →
      Stmt.Matches (.varDecl name initializer) (.varDecl name' initializer')
  | block {body body'} : Stmt.MatchesAll body body' → Stmt.Matches (.block body) (.block body')
  | ifThen {condition condition' thenBranch thenBranch'} : condition.Matches matching condition' →
      Stmt.Matches thenBranch thenBranch' →
      Stmt.Matches (.ifThen condition thenBranch) (.ifThen condition' thenBranch')
  | ifElse {condition condition' thenBranch thenBranch' elseBranch elseBranch'} :
      condition.Matches matching condition' → Stmt.Matches thenBranch thenBranch' →
      Stmt.Matches elseBranch elseBranch' →
      Stmt.Matches (.ifElse condition thenBranch elseBranch)
        (.ifElse condition' thenBranch' elseBranch')
  | whileLoop {condition condition' body body'} : condition.Matches matching condition' →
      Stmt.Matches body body' → Stmt.Matches (.whileLoop condition body) (.whileLoop condition' body')
  | functionDecl {decl decl'} : FunctionDecl.Matches decl decl' →
      Stmt.Matches (.functionDecl decl) (.functionDecl decl')
  | returnStmt {keyword keyword'} {value value' : Option Expr} : matching.Tokens keyword keyword' →
      Expr.MatchesAll matching value.toList value'.toList →
      Stmt.Matches (.returnStmt keyword value) (.returnStmt keyword' value')
  | classDecl {name name'} {superclass superclass' : Option Expr} {methods methods'} :
      matching.Tokens name name' →
      Expr.MatchesAll matching superclass.toList superclass'.toList →
      FunctionDecl.MatchesAll methods methods' →
      Stmt.Matches (.classDecl name superclass methods) (.classDecl name' superclass' methods')

inductive Stmt.MatchesAll : List Stmt → List Stmt → Prop
  | nil : Stmt.MatchesAll [] []
  | cons {first first' rest rest'} : Stmt.Matches first first' → Stmt.MatchesAll rest rest' →
      Stmt.MatchesAll (first :: rest) (first' :: rest')

inductive FunctionDecl.Matches : FunctionDecl → FunctionDecl → Prop
  | intro {id name name' params params' body body'} : matching.Tokens name name' →
      List.Forall₂ matching.Tokens params params' → Stmt.MatchesAll body body' →
      FunctionDecl.Matches ⟨id, name, params, body⟩ ⟨id, name', params', body'⟩

inductive FunctionDecl.MatchesAll : List FunctionDecl → List FunctionDecl → Prop
  | nil : FunctionDecl.MatchesAll [] []
  | cons {first first' rest rest'} : FunctionDecl.Matches first first' →
      FunctionDecl.MatchesAll rest rest' →
      FunctionDecl.MatchesAll (first :: rest) (first' :: rest')
end

end Trees

/-! Values that are the same but for the tokens of their trees. -/

section Values

variable (matching : Matching)

structure Closure.Matches (closure closure' : Closure) : Prop where
  decl : closure.decl.Matches matching closure'.decl
  env : closure'.env = closure.env
  isInitializer : closure'.isInitializer = closure.isInitializer

structure ClassBody.Matches (body body' : ClassBody) : Prop where
  id : body'.id = body.id
  name : body'.name = body.name
  methods : ∀ name : String,
    Option.Rel (Closure.Matches matching) body.methods[name]? body'.methods[name]?

def ClassObject.Matches (cls cls' : ClassObject) : Prop :=
  List.Forall₂ (ClassBody.Matches matching) cls.chain cls'.chain

structure Instance.Matches (inst inst' : Instance) : Prop where
  index : inst'.index = inst.index
  cls : inst.cls.Matches matching inst'.cls

inductive Callable.Matches : Callable → Callable → Prop
  | native (builtin : Native) : Callable.Matches (.native builtin) (.native builtin)
  | function {closure closure'} : closure.Matches matching closure' →
      Callable.Matches (.function closure) (.function closure')
  | constructor {cls cls'} : cls.Matches matching cls' →
      Callable.Matches (.constructor cls) (.constructor cls')

inductive Value.Matches : Value → Value → Prop
  | nil : Value.Matches .nil .nil
  | bool (value : Bool) : Value.Matches (.bool value) (.bool value)
  | number (value : Number) : Value.Matches (.number value) (.number value)
  | string (value : String) : Value.Matches (.string value) (.string value)
  | callable {callable callable'} : callable.Matches matching callable' →
      Value.Matches (.callable callable) (.callable callable')
  | object {inst inst'} : inst.Matches matching inst' →
      Value.Matches (.object inst) (.object inst')

structure RuntimeError.Matches (error error' : RuntimeError) : Prop where
  fault : error'.fault = error.fault
  place : Option.Rel matching.Tokens error.place error'.place

end Values

/-! Lists of trees that match. -/

section Lists

variable {matching : Matching}

theorem Expr.MatchesAll.forall₂ {exprs exprs' : List Expr}
    (matched : Expr.MatchesAll matching exprs exprs') :
    List.Forall₂ (Expr.Matches matching) exprs exprs' := by
  match exprs, matched with
  | [], .nil => exact .nil
  | _ :: _, .cons first rest => exact .cons first rest.forall₂

theorem Expr.MatchesAll.option {expr expr' : Option Expr}
    (matched : Expr.MatchesAll matching expr.toList expr'.toList) :
    Option.Rel (Expr.Matches matching) expr expr' :=
  relOption matched.forall₂

theorem Stmt.MatchesAll.forall₂ {stmts stmts' : List Stmt}
    (matched : Stmt.MatchesAll matching stmts stmts') :
    List.Forall₂ (Stmt.Matches matching) stmts stmts' := by
  match stmts, matched with
  | [], .nil => exact .nil
  | _ :: _, .cons first rest => exact .cons first rest.forall₂

theorem FunctionDecl.MatchesAll.forall₂ {decls decls' : List FunctionDecl}
    (matched : FunctionDecl.MatchesAll matching decls decls') :
    List.Forall₂ (FunctionDecl.Matches matching) decls decls' := by
  match decls, matched with
  | [], .nil => exact .nil
  | _ :: _, .cons first rest => exact .cons first rest.forall₂

theorem FunctionDecl.Matches.id {decl decl' : FunctionDecl} (matched : decl.Matches matching decl') :
    decl'.id = decl.id := by
  cases matched
  rfl

theorem FunctionDecl.Matches.name {decl decl' : FunctionDecl}
    (matched : decl.Matches matching decl') : matching.Tokens decl.name decl'.name := by
  cases matched with
  | intro name params body => exact name

end Lists

/-! What matches in one way matches in every weaker way. -/

def Matching.Weakens (matching other : Matching) : Prop :=
  ∀ token token', matching.Tokens token token' → other.Tokens token token'

section Weaker

variable {matching other : Matching}

mutual
theorem Expr.Matches.imp {expr expr' : Expr} (matched : expr.Matches matching expr')
    (weaker : matching.Weakens other) (ids : ∀ id ∈ expr.ids, matching.Ids id → other.Ids id) :
    expr.Matches other expr' := by
  match expr, matched with
  | .literal _, .literal value => exact .literal value
  | .grouping _, .grouping inner =>
      rw [Expr.ids] at ids
      exact .grouping (inner.imp weaker ids)
  | .unary _ _, .unary operator operand =>
      rw [Expr.ids] at ids
      exact .unary (weaker _ _ operator) (operand.imp weaker ids)
  | .binary _ _ _, .binary left operator right =>
      rw [Expr.ids, List.forall_mem_append] at ids
      exact .binary (left.imp weaker ids.1) (weaker _ _ operator) (right.imp weaker ids.2)
  | .logical _ _ _, .logical left operator right =>
      rw [Expr.ids, List.forall_mem_append] at ids
      exact .logical (left.imp weaker ids.1) (weaker _ _ operator) (right.imp weaker ids.2)
  | .comma _ _ _, .comma left operator right =>
      rw [Expr.ids, List.forall_mem_append] at ids
      exact .comma (left.imp weaker ids.1) (weaker _ _ operator) (right.imp weaker ids.2)
  | .conditional _ _ _, .conditional condition thenBranch elseBranch =>
      rw [Expr.ids, List.forall_mem_append, List.forall_mem_append] at ids
      exact .conditional (condition.imp weaker ids.1.1) (thenBranch.imp weaker ids.1.2)
        (elseBranch.imp weaker ids.2)
  | .var _ _, .var known name =>
      rw [Expr.ids, List.forall_mem_singleton] at ids
      exact .var (ids known) (weaker _ _ name)
  | .assign _ _ _, .assign known name value =>
      rw [Expr.ids, List.forall_mem_cons] at ids
      exact .assign (ids.1 known) (weaker _ _ name) (value.imp weaker ids.2)
  | .call _ _ _, .call callee paren arguments =>
      rw [Expr.ids, List.forall_mem_append] at ids
      exact .call (callee.imp weaker ids.1) (weaker _ _ paren) (arguments.imp weaker ids.2)
  | .get _ _, .get object name =>
      rw [Expr.ids] at ids
      exact .get (object.imp weaker ids) (weaker _ _ name)
  | .set _ _ _, .set object name value =>
      rw [Expr.ids, List.forall_mem_append] at ids
      exact .set (object.imp weaker ids.1) (weaker _ _ name) (value.imp weaker ids.2)
  | .this _ _, .this known keyword =>
      rw [Expr.ids, List.forall_mem_singleton] at ids
      exact .this (ids known) (weaker _ _ keyword)
  | .super _ _ _, .super known keyword method =>
      rw [Expr.ids, List.forall_mem_singleton] at ids
      exact .super (ids known) (weaker _ _ keyword) (weaker _ _ method)

theorem Expr.MatchesAll.imp {exprs exprs' : List Expr}
    (matched : Expr.MatchesAll matching exprs exprs') (weaker : matching.Weakens other)
    (ids : ∀ id ∈ Expr.idsAll exprs, matching.Ids id → other.Ids id) :
    Expr.MatchesAll other exprs exprs' := by
  match exprs, matched with
  | [], .nil => exact .nil
  | _ :: _, .cons first rest =>
      rw [Expr.idsAll, List.forall_mem_append] at ids
      exact .cons (first.imp weaker ids.1) (rest.imp weaker ids.2)
end

mutual
theorem Stmt.Matches.imp {stmt stmt' : Stmt} (matched : stmt.Matches matching stmt')
    (weaker : matching.Weakens other) (ids : ∀ id ∈ stmt.ids, matching.Ids id → other.Ids id) :
    stmt.Matches other stmt' := by
  match stmt, matched with
  | .expression _, .expression value =>
      rw [Stmt.ids] at ids
      exact .expression (value.imp weaker ids)
  | .print _ _, .print keyword value =>
      rw [Stmt.ids] at ids
      exact .print (weaker _ _ keyword) (value.imp weaker ids)
  | .varDecl _ _, .varDecl name initializer =>
      rw [Stmt.ids] at ids
      exact .varDecl (weaker _ _ name) (initializer.imp weaker ids)
  | .block _, .block body =>
      rw [Stmt.ids] at ids
      exact .block (body.imp weaker ids)
  | .ifThen _ _, .ifThen condition thenBranch =>
      rw [Stmt.ids, List.forall_mem_append] at ids
      exact .ifThen (condition.imp weaker ids.1) (thenBranch.imp weaker ids.2)
  | .ifElse _ _ _, .ifElse condition thenBranch elseBranch =>
      rw [Stmt.ids, List.forall_mem_append, List.forall_mem_append] at ids
      exact .ifElse (condition.imp weaker ids.1.1) (thenBranch.imp weaker ids.1.2)
        (elseBranch.imp weaker ids.2)
  | .whileLoop _ _, .whileLoop condition body =>
      rw [Stmt.ids, List.forall_mem_append] at ids
      exact .whileLoop (condition.imp weaker ids.1) (body.imp weaker ids.2)
  | .functionDecl _, .functionDecl decl =>
      rw [Stmt.ids] at ids
      exact .functionDecl (decl.imp weaker ids)
  | .returnStmt _ _, .returnStmt keyword value =>
      rw [Stmt.ids] at ids
      exact .returnStmt (weaker _ _ keyword) (value.imp weaker ids)
  | .classDecl _ _ _, .classDecl name superclass methods =>
      rw [Stmt.ids, List.forall_mem_append] at ids
      exact .classDecl (weaker _ _ name) (superclass.imp weaker ids.1) (methods.imp weaker ids.2)

theorem Stmt.MatchesAll.imp {stmts stmts' : List Stmt}
    (matched : Stmt.MatchesAll matching stmts stmts') (weaker : matching.Weakens other)
    (ids : ∀ id ∈ Stmt.idsAll stmts, matching.Ids id → other.Ids id) :
    Stmt.MatchesAll other stmts stmts' := by
  match stmts, matched with
  | [], .nil => exact .nil
  | _ :: _, .cons first rest =>
      rw [Stmt.idsAll, List.forall_mem_append] at ids
      exact .cons (first.imp weaker ids.1) (rest.imp weaker ids.2)

theorem FunctionDecl.Matches.imp {decl decl' : FunctionDecl} (matched : decl.Matches matching decl')
    (weaker : matching.Weakens other) (ids : ∀ id ∈ decl.ids, matching.Ids id → other.Ids id) :
    decl.Matches other decl' := by
  match decl, matched with
  | ⟨_, _, _, _⟩, .intro name params body =>
      rw [FunctionDecl.ids] at ids
      exact .intro (weaker _ _ name) (params.imp weaker) (body.imp weaker ids)

theorem FunctionDecl.MatchesAll.imp {decls decls' : List FunctionDecl}
    (matched : FunctionDecl.MatchesAll matching decls decls') (weaker : matching.Weakens other)
    (ids : ∀ id ∈ FunctionDecl.idsAll decls, matching.Ids id → other.Ids id) :
    FunctionDecl.MatchesAll other decls decls' := by
  match decls, matched with
  | [], .nil => exact .nil
  | _ :: _, .cons first rest =>
      rw [FunctionDecl.idsAll, List.forall_mem_append] at ids
      exact .cons (first.imp weaker ids.1) (rest.imp weaker ids.2)
end

end Weaker

/-! Trees that match make a pairing of two runs. -/

section Paired

variable (matching : Matching)

/-- Identities are the same on both sides. Only how often the output was flushed may differ. -/
def Matching.pairing : Pairing where
  Tokens := matching.Tokens
  Ids id id' := id' = id ∧ matching.Ids id
  Exprs := Expr.Matches matching
  Stmts := Stmt.Matches matching
  Decls := FunctionDecl.Matches matching
  Hosts host host' := (∃ flushed, host' = { host with sink.flushed := flushed }) ∧
    host.sink.flushFault = matching.flushFault
  kind := matching.kind
  lexeme := matching.lexeme
  expr matched := by
    cases matched with
    | literal value => exact .literal value
    | grouping inner => exact .grouping inner
    | unary operator operand => exact .unary operator operand
    | binary left operator right => exact .binary left operator right
    | logical left operator right => exact .logical left operator right
    | comma left _ right => exact .comma left right
    | conditional condition thenBranch elseBranch => exact .conditional condition thenBranch elseBranch
    | var known name => exact .var ⟨rfl, known⟩ name
    | assign known name value => exact .assign ⟨rfl, known⟩ name value
    | call callee paren arguments => exact .call callee paren arguments.forall₂
    | get object name => exact .get object name
    | set object name value => exact .set object name value
    | this known keyword => exact .this ⟨rfl, known⟩ keyword
    | super known keyword method => exact .super ⟨rfl, known⟩ keyword method
  stmt matched := by
    cases matched with
    | expression value => exact .expression value
    | print keyword value => exact .print keyword value
    | varDecl name initializer => exact .varDecl trivial name initializer.option
    | block body => exact .block body.forall₂
    | ifThen condition thenBranch => exact .ifThen condition thenBranch
    | ifElse condition thenBranch elseBranch => exact .ifElse condition thenBranch elseBranch
    | whileLoop condition body => exact .whileLoop condition body
    | functionDecl decl => exact .functionDecl trivial decl
    | returnStmt _ value => exact .returnStmt value.option
    | classDecl name superclass methods =>
        exact .classDecl trivial name superclass.option methods.forall₂
  decl matched := by
    cases matched with
    | intro name params body => exact ⟨name, params, body.forall₂⟩
  identity matched matched' := by rw [matched.id, matched'.id]
  files := by
    rintro host host' ⟨⟨flushed, rfl⟩, -⟩
    rfl
  clock := by
    rintro host host' ⟨⟨flushed, rfl⟩, fault⟩
    exact ⟨rfl, ⟨flushed, rfl⟩, fault⟩
  written := by
    rintro host host' files ⟨⟨flushed, rfl⟩, fault⟩
    exact ⟨⟨flushed, rfl⟩, fault⟩
  takeLine := by
    rintro host host' ⟨⟨flushed, rfl⟩, fault⟩
    unfold Host.takeLine
    dsimp only
    split
    · exact ⟨rfl, ⟨flushed, rfl⟩, fault⟩
    · split <;> exact ⟨rfl, ⟨flushed, rfl⟩, fault⟩
  writeLine := by
    rintro host host' text ⟨⟨flushed, rfl⟩, fault⟩
    unfold Sink.writeLine
    dsimp only
    split <;> exact ⟨rfl, ⟨flushed, rfl⟩, fault⟩

variable {matching}

theorem ClassObject.matches_of_alike {cls cls' : ClassObject}
    (alike : cls.Alike matching.pairing.kin cls') : cls.Matches matching cls' := by
  refine List.Forall₂.imp (fun body body' alike => ⟨alike.id, alike.name, fun name => ?_⟩) alike
  exact relImp (fun _ _ method => ⟨method.decl, method.env, method.isInitializer⟩)
    (alike.methods name)

theorem Value.matches_of_alike {value value' : Value}
    (alike : value.Alike matching.pairing.kin value') : value.Matches matching value' := by
  rcases alike with _ | _ | _ | _ | (_ | closure | cls) | inst
  case callable.native => exact .callable (.native _)
  case callable.function =>
    exact .callable (.function ⟨closure.decl, closure.env, closure.isInitializer⟩)
  case callable.constructor => exact .callable (.constructor (ClassObject.matches_of_alike cls))
  case object => exact .object ⟨inst.index, ClassObject.matches_of_alike inst.cls⟩
  all_goals constructor

theorem Machine.Pairs.withDepths {other : Matching} {machine machine' : Machine}
    (paired : machine.Pairs matching.pairing machine') (weaker : matching.Weakens other)
    (ids : ∀ id, matching.Ids id → other.Ids id) (same : other.flushFault = matching.flushFault)
    {depths depths' : Std.TreeMap ExprId Nat}
    (agree : ∀ id, other.Ids id → depths'[id]? = depths[id]?) :
    Machine.Pairs other.pairing { machine with depths } { machine' with depths := depths' } := by
  have functions (closure closure' : Closure) (paired : closure.Pairs matching.pairing closure') :
      closure.Pairs other.pairing closure' :=
    ⟨paired.decl.imp weaker fun id _ => ids id, paired.env, paired.isInitializer⟩
  have related {value value' : Option Value}
      (found : Option.Rel (Value.Alike matching.pairing.kin) value value') :
      Option.Rel (Value.Alike other.pairing.kin) value value' :=
    relImp (fun _ _ value => value.imp ⟨functions, functions⟩) found
  refine { paired with
    scopes := fun ref name => related (paired.scopes ref name)
    fields := ⟨paired.fields.size, fun index name => related (paired.fields.stored index name)⟩
    depths := ?_
    host := ⟨paired.host.1, paired.host.2.trans same.symm⟩ }
  rintro id id' ⟨rfl, known⟩
  exact agree id' known

end Paired

end Lox
