import Lox.Proofs.Parse.Likeness
import Lox.Proofs.Parse.Program
import Lox.Proofs.Run.Matching
import Lox.Proofs.Token.Join

/-!
The same tokens on other lines. What derives a program still derives one further down, and its tree
matches the one it had. Declarations can follow declarations.
-/

namespace Lox

variable {matching : Matching}

theorem matches_forLoop {initializer initializer' : Option Stmt}
    {condition condition' increment increment' : Option Expr} {body body' : Stmt}
    (first : Stmt.MatchesAll matching initializer.toList initializer'.toList)
    (tested : Expr.MatchesAll matching condition.toList condition'.toList)
    (stepped : Expr.MatchesAll matching increment.toList increment'.toList)
    (repeated : body.Matches matching body') :
    (Stmt.forLoop initializer condition increment body).Matches matching
      (Stmt.forLoop initializer' condition' increment' body') := by
  have test : (condition.getD (.literal (.bool true))).Matches matching
      (condition'.getD (.literal (.bool true))) := by
    rcases relCases tested.option with ⟨rfl, rfl⟩ | ⟨_, _, rfl, rfl, matched⟩
    · exact .literal _
    · exact matched
  rcases relCases stepped.option with ⟨rfl, rfl⟩ | ⟨_, _, rfl, rfl, step⟩
  · rcases relCases (relOption first.forall₂) with ⟨rfl, rfl⟩ | ⟨_, _, rfl, rfl, begun⟩
    · exact .whileLoop test repeated
    · exact .block (.cons begun (.cons (.whileLoop test repeated) .nil))
  · have round := Stmt.Matches.block (.cons repeated (.cons (.expression step) .nil))
    rcases relCases (relOption first.forall₂) with ⟨rfl, rfl⟩ | ⟨_, _, rfl, rfl, begun⟩
    · exact .whileLoop test round
    · exact .block (.cons begun (.cons (.whileLoop test round) .nil))

def TreeSort.Matches (matching : Matching) : (sort : TreeSort) → sort.Tree → sort.Tree → Prop
  | expr => Expr.Matches matching
  | exprs => Expr.MatchesAll matching
  | stmt => Stmt.Matches matching
  | stmts => Stmt.MatchesAll matching
  | decl => FunctionDecl.Matches matching
  | decls => FunctionDecl.MatchesAll matching

def Matching.likeness (matching : Matching) : Likeness where
  Tokens token token' := matching.Tokens token token' ∧ token'.literal = token.literal
  offset := {}
  kind := fun related => matching.kind related.1
  literal := And.right

theorem Likeness.Trees.matches (numbered : ∀ id, matching.Ids id) {sort : TreeSort}
    {start after : Standing} {tree tree' : sort.Tree}
    (trees : matching.likeness.Trees sort start after tree tree') :
    sort.Matches matching tree tree' := by
  induction trees with
  | skipped _ _ _ _ ih | unassigned _ _ _ _ ih => exact ih
  | noExpr | noStmt | noDecl => exact .nil
  | moreExprs _ _ ih ih' | moreStmts _ _ ih ih' | moreDecls _ _ ih ih' => exact .cons ih ih'
  | constant | literal => exact .literal _
  | grouping _ ih => exact .grouping ih
  | unary token _ _ ih => exact .unary token.1 ih
  | @combine _ _ _ _ _ _ _ _ _ level _ token _ _ ih ih' =>
      cases level with
      | comma => exact .comma ih token.1 ih'
      | disjunction | conjunction => exact .logical ih token.1 ih'
      | equality | comparison | term | factor => exact .binary ih token.1 ih'
  | conditional _ _ _ ih ih' ih'' => exact .conditional ih ih' ih''
  | var token => exact .var (numbered _) token.1
  | this token => exact .this (numbered _) token.1
  | super token _ method => exact .super (numbered _) token.1 method.1
  | assign _ _ ih ih' =>
      cases ih with
      | var known name => exact .assign known name ih'
  | set _ _ ih ih' =>
      cases ih with
      | get object name => exact .set object name ih'
  | call _ token _ _ ih ih' => exact .call ih token.1 ih'
  | get _ token _ ih => exact .get ih token.1
  | expression _ ih => exact .expression ih
  | print token _ _ ih => exact .print token.1 ih
  | varDecl token _ _ ih => exact .varDecl token.1 ih
  | returnStmt token _ _ ih => exact .returnStmt token.1 ih
  | block _ ih => exact .block ih
  | ifThen _ _ ih ih' => exact .ifThen ih ih'
  | ifElse _ _ _ ih ih' ih'' => exact .ifElse ih ih' ih''
  | whileLoop _ _ ih ih' => exact .whileLoop ih ih'
  | forLoop _ _ _ _ ih ih' ih'' ih''' => exact matches_forLoop ih ih' ih'' ih'''
  | functionDecl _ ih => exact .functionDecl ih
  | classDecl token _ _ _ ih ih' => exact .classDecl token.1 ih ih'
  | function token _ params _ _ ih => exact .intro token.1 (params.imp fun _ _ => And.left) ih

namespace Grammar

variable {start after : Supply} {words : List Token} {lines : Nat}

theorem same_down (moved : ∀ token ∈ words, matching.Tokens token (token.down lines)) :
    matching.likeness.Same words (words.map (Token.down lines)) :=
  List.forall₂_map_right_iff.mpr (List.forall₂_same.mpr fun token member => ⟨moved token member, rfl⟩)

theorem StmtDerives.moved {stmts : List Stmt} (numbered : ∀ id, matching.Ids id)
    (derived : StmtDerives true .declarations start words stmts after)
    (moved : ∀ token ∈ words, matching.Tokens token (token.down lines)) :
    ∃ stmts', StmtDerives true .declarations start (words.map (Token.down lines)) stmts' after ∧
      Stmt.MatchesAll matching stmts stmts' := by
  have whole := @Likeness.declarations _ ⟨start, False⟩ _ _ (same_down moved)
  rw [Standing.before, Parse.declarations_eq_iff.mpr derived] at whole
  obtain ⟨last, rfl, supply', notes, -, trees⟩ := whole
  refine ⟨_, Parse.declarations_eq_iff.mp (Prod.ext rfl ?_), trees.matches numbered⟩
  exact Prod.ext (List.forall₂_nil_left_iff.mp notes) supply'

theorem StmtDerives.matches {last : Supply} {stmts stmts' : List Stmt}
    (derived : StmtDerives true .declarations start words stmts after)
    (derived' : StmtDerives true .declarations start (words.map (Token.down lines)) stmts' last)
    (numbered : ∀ id, matching.Ids id)
    (moved : ∀ token ∈ words, matching.Tokens token (token.down lines)) :
    Stmt.MatchesAll matching stmts stmts' := by
  obtain ⟨found, reread, matched⟩ := derived.moved numbered moved
  have read := Parse.declarations_eq_iff.mpr derived'
  obtain rfl : found = stmts' :=
    congrArg Prod.fst ((Parse.declarations_eq_iff.mpr reread).symm.trans read)
  exact matched

theorem ExprDerives.matches {expr : Expr}
    (derived : ExprDerives .expression start words expr after) (numbered : ∀ id, matching.Ids id)
    (related : ∀ token ∈ words, matching.Tokens token token) : expr.Matches matching expr := by
  have same : matching.likeness.Same words words :=
    List.forall₂_same.mpr fun token member => ⟨related token member, rfl⟩
  obtain ⟨_, -, -, -, -, trees⟩ := @Likeness.lone _ ⟨start, False⟩ _ _ same
  have read : Parse.lone ⟨words, start⟩ = _ := Parse.lone_eq_iff.mpr derived
  have matched := trees.matches numbered
  rw [Standing.before, Likeness.twin, show start.plus matching.likeness.offset = start from rfl,
    read] at matched
  cases matched with
  | cons matched _ => exact matched

theorem StmtDerives.append {nearest : Bool} {start middle after : Supply} {words others : List Token}
    {stmts stmts' : List Stmt}
    (first : StmtDerives nearest .declarations start words stmts middle)
    (second : StmtDerives nearest .declarations middle others stmts' after) :
    StmtDerives nearest .declarations start (words ++ others) (stmts ++ stmts') after := by
  match stmts, first with
  | [], .none => exact second
  | stmt :: stmts, .next derived rest =>
      rw [List.append_assoc]
      exact .next derived (rest.append second)

end Grammar

end Lox
