import Lox.Parse.Program
import Mathlib.Tactic

/-!
Readings of tokens that are alike. A rule looks at the kinds of its tokens and at their literals, never at
the identities that it gives out. So from tokens that are alike it comes to outcomes that are alike: the
same notes, at tokens that are alike, and trees that are put together in the same way. A tree keeps track
of what was given out for it, also where a rule has read something that it left out.
-/

namespace Lox

def Supply.plus (supply offset : Supply) : Supply where
  nextExpr := supply.nextExpr + offset.nextExpr
  nextDecl := supply.nextDecl + offset.nextDecl

theorem Expr.assigned?_eq_none {target value : Expr} (refused : target.assigned? value = none)
    {other : Expr} : target.assigned? other = none := by
  cases target <;> first | rfl | cases refused

theorem Level.assigned?_combine {level : Level} {left right value : Expr} {operator : Token} :
    (level.combine left operator right).assigned? value = none := by
  cases level <;> rfl

/-- What stands in the same place in two readings, the second with later identities. -/
structure Likeness where
  Tokens : Token → Token → Prop
  offset : Supply
  kind {token token' : Token} : Tokens token token' → token'.kind = token.kind
  literal {token token' : Token} : Tokens token token' → token'.literal = token.literal

/-- A point of a reading: the identities that are left, and whether a note was taken before. -/
structure Standing extends Supply where
  noted : Prop

namespace Standing

abbrev before (standing : Standing) (rest : List Token) : Position := ⟨rest, standing.toSupply⟩

def afterExpr (standing : Standing) : Standing :=
  { standing with nextExpr := standing.nextExpr + 1 }

def afterDecl (standing : Standing) : Standing :=
  { standing with nextDecl := standing.nextDecl + 1 }

end Standing

inductive TreeSort
  | expr
  | exprs
  | stmt
  | stmts
  | decl
  | decls

@[reducible] def TreeSort.Tree : TreeSort → Type
  | expr => Expr
  | exprs => List Expr
  | stmt => Stmt
  | stmts => List Stmt
  | decl => FunctionDecl
  | decls => List FunctionDecl

namespace Likeness

abbrev Same (like : Likeness) : List Token → List Token → Prop := List.Forall₂ like.Tokens

/-- Two trees that were put together in the same way between two points of a reading. Where a note was
taken, something may have been read before the tree or behind it that is not in it. -/
inductive Trees (like : Likeness) :
    (sort : TreeSort) → Standing → Standing → sort.Tree → sort.Tree → Prop
  | skipped {sort start middle after tree tree'} : sort ≠ .expr →
      start.nextExpr ≤ middle.nextExpr → middle.noted → Trees like sort middle after tree tree' →
      Trees like sort start after tree tree'
  | unassigned {start middle after value value'} {target target' : Expr} :
      Trees like .expr start middle target target' → target.assigned? value = none →
      target'.assigned? value' = none → Trees like .expr middle after value value' →
      Trees like .expr start ⟨after.toSupply, True⟩ target target'
  | noExpr {start} : Trees like .exprs start start [] []
  | moreExprs {start middle after first first' rest rest'} :
      Trees like .expr start middle first first' → Trees like .exprs middle after rest rest' →
      Trees like .exprs start after (List.cons first rest) (List.cons first' rest')
  | constant {start value} : value ∈ [Constant.nil, .bool false, .bool true] →
      Trees like .expr start start (Expr.literal value) (Expr.literal value)
  | literal {start token token' value} : like.Tokens token token' → token.literal = some value →
      Trees like .expr start start (Expr.literal (.ofLiteral value)) (Expr.literal (.ofLiteral value))
  | grouping {start after inner inner'} : Trees like .expr start after inner inner' →
      Trees like .expr start after (Expr.grouping inner) (Expr.grouping inner')
  | unary {start after operator operator' operand operand'} : like.Tokens operator operator' →
      operator.kind = .bang ∨ operator.kind = .minus →
      Trees like .expr start after operand operand' →
      Trees like .expr start after (Expr.unary operator operand) (Expr.unary operator' operand')
  | combine {start middle after left left' operator operator' right right'} {level : Level} :
      Trees like .expr start middle left left' → like.Tokens operator operator' →
      level.accepts operator.kind = true → Trees like .expr middle after right right' →
      Trees like .expr start after (level.combine left operator right)
        (level.combine left' operator' right')
  | conditional {start atThen atElse after condition condition' thenBranch thenBranch' elseBranch
        elseBranch'} :
      Trees like .expr start atThen condition condition' →
      Trees like .expr atThen atElse thenBranch thenBranch' →
      Trees like .expr atElse after elseBranch elseBranch' →
      Trees like .expr start after (Expr.conditional condition thenBranch elseBranch)
        (Expr.conditional condition' thenBranch' elseBranch')
  | var {start name name'} : like.Tokens name name' → name.kind = .identifier →
      Trees like .expr start start.afterExpr (Expr.var start.nextExpr name)
        (Expr.var (start.nextExpr + like.offset.nextExpr) name')
  | this {start keyword keyword'} : like.Tokens keyword keyword' → keyword.kind = .thisWord →
      Trees like .expr start start.afterExpr (Expr.this start.nextExpr keyword)
        (Expr.this (start.nextExpr + like.offset.nextExpr) keyword')
  | super {start keyword keyword' method method'} : like.Tokens keyword keyword' →
      keyword.kind = .superWord → like.Tokens method method' → method.kind = .identifier →
      Trees like .expr start start.afterExpr (Expr.super start.nextExpr keyword method)
        (Expr.super (start.nextExpr + like.offset.nextExpr) keyword' method')
  | assign {start middle after id id' name name' value value'} :
      Trees like .expr start middle (Expr.var id name) (Expr.var id' name') →
      Trees like .expr middle after value value' →
      Trees like .expr start after (Expr.assign id name value) (Expr.assign id' name' value')
  | set {start middle after object object' name name' value value'} :
      Trees like .expr start middle (Expr.get object name) (Expr.get object' name') →
      Trees like .expr middle after value value' →
      Trees like .expr start after (Expr.set object name value) (Expr.set object' name' value')
  | call {start middle after callee callee' paren paren' arguments arguments'} :
      Trees like .expr start middle callee callee' → like.Tokens paren paren' →
      paren.kind = .rightParen → Trees like .exprs middle after arguments arguments' →
      Trees like .expr start after (Expr.call callee paren arguments)
        (Expr.call callee' paren' arguments')
  | get {start after object object' name name'} : Trees like .expr start after object object' →
      like.Tokens name name' → name.kind = .identifier →
      Trees like .expr start after (Expr.get object name) (Expr.get object' name')
  | noStmt {start} : Trees like .stmts start start [] []
  | moreStmts {start middle after first first' rest rest'} :
      Trees like .stmt start middle first first' → Trees like .stmts middle after rest rest' →
      Trees like .stmts start after (List.cons first rest) (List.cons first' rest')
  | expression {start after value value'} : Trees like .expr start after value value' →
      Trees like .stmt start after (Stmt.expression value) (Stmt.expression value')
  | print {start after keyword keyword' value value'} : like.Tokens keyword keyword' →
      keyword.kind = .printWord → Trees like .expr start after value value' →
      Trees like .stmt start after (Stmt.print keyword value) (Stmt.print keyword' value')
  | varDecl {start after name name'} {initializer initializer' : Option Expr} :
      like.Tokens name name' → name.kind = .identifier →
      Trees like .exprs start after initializer.toList initializer'.toList →
      Trees like .stmt start after (Stmt.varDecl name initializer) (Stmt.varDecl name' initializer')
  | returnStmt {start after keyword keyword'} {value value' : Option Expr} :
      like.Tokens keyword keyword' → keyword.kind = .returnWord →
      Trees like .exprs start after value.toList value'.toList →
      Trees like .stmt start after (Stmt.returnStmt keyword value) (Stmt.returnStmt keyword' value')
  | block {start after body body'} : Trees like .stmts start after body body' →
      Trees like .stmt start after (Stmt.block body) (Stmt.block body')
  | ifThen {start middle after condition condition' body body'} :
      Trees like .expr start middle condition condition' →
      Trees like .stmt middle after body body' →
      Trees like .stmt start after (Stmt.ifThen condition body) (Stmt.ifThen condition' body')
  | ifElse {start atThen atElse after condition condition' thenBranch thenBranch' elseBranch
        elseBranch'} :
      Trees like .expr start atThen condition condition' →
      Trees like .stmt atThen atElse thenBranch thenBranch' →
      Trees like .stmt atElse after elseBranch elseBranch' →
      Trees like .stmt start after (Stmt.ifElse condition thenBranch elseBranch)
        (Stmt.ifElse condition' thenBranch' elseBranch')
  | whileLoop {start middle after condition condition' body body'} :
      Trees like .expr start middle condition condition' →
      Trees like .stmt middle after body body' →
      Trees like .stmt start after (Stmt.whileLoop condition body) (Stmt.whileLoop condition' body')
  | forLoop {start atCondition atIncrement atBody after body body'}
        {initializer initializer' : Option Stmt}
        {condition condition' increment increment' : Option Expr} :
      Trees like .stmts start atCondition initializer.toList initializer'.toList →
      Trees like .exprs atCondition atIncrement condition.toList condition'.toList →
      Trees like .exprs atIncrement atBody increment.toList increment'.toList →
      Trees like .stmt atBody after body body' →
      Trees like .stmt start after (Stmt.forLoop initializer condition increment body)
        (Stmt.forLoop initializer' condition' increment' body')
  | functionDecl {start after decl decl'} : Trees like .decl start after decl decl' →
      Trees like .stmt start after (Stmt.functionDecl decl) (Stmt.functionDecl decl')
  | classDecl {start middle after name name' methods methods'}
        {superclass superclass' : Option Expr} :
      like.Tokens name name' → name.kind = .identifier →
      Trees like .exprs start middle superclass.toList superclass'.toList →
      Trees like .decls middle after methods methods' →
      Trees like .stmt start after (Stmt.classDecl name superclass methods)
        (Stmt.classDecl name' superclass' methods')
  | function {start after name name' params params' body body'} : like.Tokens name name' →
      name.kind = .identifier → like.Same params params' →
      (∀ param ∈ params, param.kind = .identifier) → Trees like .stmts start after body body' →
      Trees like .decl start after.afterDecl (FunctionDecl.mk after.nextDecl name params body)
        (FunctionDecl.mk (after.nextDecl + like.offset.nextDecl) name' params' body')
  | noDecl {start} : Trees like .decls start start [] []
  | moreDecls {start middle after first first' rest rest'} :
      Trees like .decl start middle first first' → Trees like .decls middle after rest rest' →
      Trees like .decls start after (List.cons first rest) (List.cons first' rest')

variable {like : Likeness} {start middle after : Standing} {rest rest' : List Token}

theorem Trees.single {expr expr' : Expr} (trees : like.Trees .expr start after expr expr') :
    like.Trees .exprs start after [expr] [expr'] :=
  .moreExprs trees .noExpr

theorem Trees.noted {sort : TreeSort} {tree tree' : sort.Tree}
    (trees : like.Trees sort start after tree tree') : start.noted → after.noted := by
  induction trees with
  | skipped _ _ noted _ ih => exact fun _ => ih noted
  | unassigned => exact fun _ => trivial
  | noExpr | constant | literal | var | this | super | noStmt | noDecl => exact id
  | grouping _ ih | unary _ _ _ ih | get _ _ _ ih | expression _ ih | print _ _ _ ih
  | varDecl _ _ _ ih | returnStmt _ _ _ ih | block _ ih | functionDecl _ ih
  | function _ _ _ _ _ ih => exact ih
  | moreExprs _ _ ih ih' | combine _ _ _ _ ih ih' | assign _ _ ih ih' | set _ _ ih ih'
  | call _ _ _ _ ih ih' | moreStmts _ _ ih ih' | ifThen _ _ ih ih' | whileLoop _ _ ih ih'
  | classDecl _ _ _ _ ih ih' | moreDecls _ _ ih ih' => exact ih' ∘ ih
  | conditional _ _ _ ih ih' ih'' | ifElse _ _ _ ih ih' ih'' => exact ih'' ∘ ih' ∘ ih
  | forLoop _ _ _ _ ih ih' ih'' ih''' => exact ih''' ∘ ih'' ∘ ih' ∘ ih

theorem Trees.assigned {target target' value value' : Expr}
    (first : like.Trees .expr start middle target target')
    (second : like.Trees .expr middle after value value') :
    (target.assigned? value = none ∧ target'.assigned? value' = none) ∨
      ∃ expr expr', target.assigned? value = some expr ∧ target'.assigned? value' = some expr' ∧
        like.Trees .expr start after expr expr' := by
  have kept := first
  cases first with
  | skipped notExpr => exact absurd rfl notExpr
  | unassigned _ refused refused' =>
      exact .inl ⟨Expr.assigned?_eq_none refused, Expr.assigned?_eq_none refused'⟩
  | combine => exact .inl ⟨Level.assigned?_combine, Level.assigned?_combine⟩
  | var => exact .inr ⟨_, _, rfl, rfl, .assign kept second⟩
  | get => exact .inr ⟨_, _, rfl, rfl, .set kept second⟩
  | _ => exact .inl ⟨rfl, rfl⟩

structure Complaints (like : Likeness) (complaint complaint' : Complaint) : Prop where
  place : Option.Rel like.Tokens complaint.place complaint'.place
  fault : complaint'.fault = complaint.fault

theorem complaint (same : like.Same rest rest') (fault : SyntaxFault) :
    like.Complaints ⟨rest.head?, fault⟩ ⟨rest'.head?, fault⟩ := by
  cases same with
  | nil => exact ⟨.none, rfl⟩
  | cons token _ => exact ⟨.some token, rfl⟩

abbrev twin (like : Likeness) (standing : Standing) (rest : List Token) : Position :=
  ⟨rest, standing.toSupply.plus like.offset⟩

theorem twin_afterExpr (like : Likeness) (rest : List Token) (standing : Standing) :
    (like.twin standing rest).skipExprId = like.twin standing.afterExpr rest := by
  simp [Position.skipExprId, Supply.plus, Standing.afterExpr, Nat.add_right_comm]

theorem twin_afterDecl (like : Likeness) (rest : List Token) (standing : Standing) :
    (like.twin standing rest).skipDeclId = like.twin standing.afterDecl rest := by
  simp [Position.skipDeclId, Supply.plus, Standing.afterDecl, Nat.add_right_comm]

theorem accept (same : like.Same rest rest') (standing : Standing)
    (accepted : TokenKind → Bool) :
    ((standing.before rest).accept? accepted = none ∧
        (like.twin standing rest').accept? accepted = none) ∨
      ∃ token token' others others' shorter shorter',
        (standing.before rest).accept? accepted =
          some (token, ⟨standing.before others, shorter⟩) ∧
        (like.twin standing rest').accept? accepted =
          some (token', ⟨(like.twin standing others'), shorter'⟩) ∧
        like.Tokens token token' ∧ accepted token.kind = true ∧
        like.Same others others' := by
  cases same with
  | nil => exact .inl ⟨rfl, rfl⟩
  | @cons token token' others others' alike same =>
      by_cases holds : accepted token.kind = true
      · have holds' : accepted token'.kind = true := like.kind alike ▸ holds
        exact .inr ⟨token, token', others, others', by simp [Position.size], by simp [Position.size],
          if_pos holds, if_pos holds', alike, holds, same⟩
      · have fails' : ¬ accepted token'.kind = true := like.kind alike ▸ holds
        exact .inl ⟨if_neg holds, if_neg fails'⟩

theorem isAt_eq (same : like.Same rest rest') (standing : Standing)
    (kind : TokenKind) : (like.twin standing rest').isAt kind = (standing.before rest).isAt kind := by
  cases same with
  | nil => rfl
  | cons token _ => simp [Position.isAt, Position.place, like.kind token]

theorem nil_iff (same : like.Same rest rest') : rest' = [] ↔ rest = [] := by
  cases same <;> simp

end Likeness

namespace Parsed

variable {α β : Type} {bound bound' small small' : Nat}

/-- Two outcomes of a rule that began at `start`, with values that are related at the point where they
leave off. -/
inductive Alike (like : Likeness) (start : Standing) (R : Standing → α → α → Prop) :
    Parsed α bound → Parsed α bound' → Prop
  | done {value value' : α} {notes notes' : List Complaint} {rest rest' : List Token}
      {after : Standing} {shorter : (after.before rest).size < bound}
      {shorter' : (like.twin after rest').size < bound'} :
      start.nextExpr ≤ after.nextExpr → List.Forall₂ like.Complaints notes notes' →
      like.Same rest rest' → (after.noted ↔ start.noted ∨ notes ≠ []) →
      R after value value' →
      Alike like start R (.done value notes (after.before rest) shorter)
        (.done value' notes' (like.twin after rest') shorter')
  | stuck {cause cause' : Complaint} {notes notes' : List Complaint} {rest rest' : List Token}
      {after : Standing} {fits : (after.before rest).size ≤ bound}
      {fits' : (like.twin after rest').size ≤ bound'} :
      start.nextExpr ≤ after.nextExpr → List.Forall₂ like.Complaints notes notes' →
      like.Same rest rest' → like.Complaints cause cause' →
      Alike like start R (.stuck cause notes (after.before rest) fits)
        (.stuck cause' notes' (like.twin after rest') fits')

namespace Alike

variable {like : Likeness} {start middle after : Standing} {R : Standing → α → α → Prop}
  {R' : Standing → β → β → Prop} {rest rest' : List Token} {parsed : Parsed α small}
  {parsed' : Parsed α small'}

theorem ended {value value' : α} {shorter : (start.before rest).size < bound}
    {shorter' : (like.twin start rest').size < bound'}
    (same : like.Same rest rest') (related : R start value value') :
    Alike like start R (.done value [] (start.before rest) shorter)
      (.done value' [] (like.twin start rest') shorter') :=
  .done le_rfl .nil same (by simp) related

theorem noted {value value' : α} {cause cause' : Complaint}
    {shorter : (start.before rest).size < bound}
    {shorter' : (like.twin start rest').size < bound'}
    (same : like.Same rest rest') (caused : like.Complaints cause cause')
    (related : R ⟨start.toSupply, True⟩ value value') :
    Alike like start R (.done value [cause] (start.before rest) shorter)
      (.done value' [cause'] (like.twin start rest') shorter') := by
  let after : Standing := ⟨start.toSupply, True⟩
  exact @done α bound bound' like start R value value' [cause] [cause'] rest rest' after shorter
    shorter' le_rfl (.cons caused .nil) same (by simp [after]) related

theorem failed {cause cause' : Complaint} {fits : (start.before rest).size ≤ bound}
    {fits' : (like.twin start rest').size ≤ bound'}
    (same : like.Same rest rest') (caused : like.Complaints cause cause') :
    Alike like start R (.stuck cause [] (start.before rest) fits)
      (.stuck cause' [] (like.twin start rest') fits') :=
  .stuck le_rfl .nil same caused

theorem given (after : Standing) {value value' : α} {position position' : Position} {shorter : position.size < bound}
    {shorter' : position'.size < bound'} (same : like.Same rest rest')
    (le : start.nextExpr ≤ after.nextExpr) (noted : after.noted ↔ start.noted)
    (reached : position = (after.before rest)) (reached' : position' = (like.twin after rest'))
    (related : R after value value') :
    Alike like start R (.done value [] position shorter) (.done value' [] position' shorter') := by
  subst reached reached'
  exact .done le .nil same (by simp [noted]) related

theorem noting (middle : Standing) {first first' : List Complaint} (le : start.nextExpr ≤ middle.nextExpr)
    (noted : middle.noted ↔ start.noted ∨ first ≠ [])
    (earlier : List.Forall₂ like.Complaints first first') (alike : Alike like middle R parsed parsed') :
    Alike like start R (parsed.noting first) (parsed'.noting first') := by
  cases alike with
  | done further notes same ended related =>
      refine .done (le.trans further) (List.rel_append earlier notes) same ?_ related
      rw [ended, noted, or_assoc, Ne, Ne, Ne, List.append_eq_nil_iff, not_and_or]
  | stuck further notes same caused =>
      exact .stuck (le.trans further) (List.rel_append earlier notes) same caused

theorem within {weaker : small ≤ bound} {weaker' : small' ≤ bound'}
    (alike : Alike like start R parsed parsed') :
    Alike like start R (parsed.within weaker) (parsed'.within weaker') := by
  cases alike with
  | done further notes same ended related => exact .done further notes same ended related
  | stuck further notes same caused => exact .stuck further notes same caused

theorem andThen {next : (value : α) → (after : Position) → after.size < small → Parsed β bound}
    {next' : (value : α) → (after : Position) → after.size < small' → Parsed β bound'}
    {weaker : small ≤ bound} {weaker' : small' ≤ bound'} (alike : Alike like start R parsed parsed')
    (continued : ∀ {value value' rest rest' after} shorter shorter',
      like.Same rest rest' → R after value value' →
      Alike like after R' (next value (after.before rest) shorter)
        (next' value' (like.twin after rest') shorter')) :
    Alike like start R' (parsed.andThen next weaker) (parsed'.andThen next' weaker') := by
  cases alike with
  | done further notes same ended related =>
      exact (continued _ _ same related).noting _ further ended notes
  | stuck further notes same caused => exact .stuck further notes same caused

theorem imp {R₁ : Standing → α → α → Prop} (alike : Alike like start R parsed parsed')
    (weaker : ∀ {after value value'}, R after value value' → R₁ after value value') :
    Alike like start R₁ parsed parsed' := by
  cases alike with
  | done further notes same ended related => exact .done further notes same ended (weaker related)
  | stuck further notes same caused => exact .stuck further notes same caused

theorem map {change change' : α → β} {weaker : small ≤ bound} {weaker' : small' ≤ bound'}
    (alike : Alike like start R parsed parsed')
    (related : ∀ {after value value'}, R after value value' →
      R' after (change value) (change' value')) :
    Alike like start R' (parsed.map change weaker) (parsed'.map change' weaker') := by
  cases alike with
  | done further notes same ended found => exact .done further notes same ended (related found)
  | stuck further notes same caused => exact .stuck further notes same caused

variable {kind : TokenKind} {what : Expected}

theorem expect (after : Standing) {position position' : Position}
    (same : like.Same rest rest') (le : start.nextExpr ≤ after.nextExpr)
    (noted : after.noted ↔ start.noted) (reached : position = (after.before rest))
    (reached' : position' = (like.twin after rest')) :
    Alike like start
      (fun last token token' => last = after ∧ like.Tokens token token' ∧ token.kind = kind)
      (position.expect kind what) (position'.expect kind what) := by
  subst reached reached'
  rw [Position.expect, Position.expect]
  rcases like.accept same after (· = kind) with
    ⟨none, none'⟩ | ⟨_, _, _, _, shorter, shorter', some, some', token, holds, others⟩
  · rw [none, none']
    exact .stuck le .nil same (like.complaint same _)
  · rw [some, some']
    exact .done le .nil others (by simp [noted]) ⟨rfl, token, by simpa using holds⟩

theorem expect_andThen (same : like.Same rest rest')
    {next : (token : Token) → (after : Position) → after.size < (start.before rest).size →
      Parsed β bound}
    {next' : (token : Token) → (after : Position) →
      after.size < (like.twin start rest').size → Parsed β bound'}
    {weaker : (start.before rest).size ≤ bound}
    {weaker' : (like.twin start rest').size ≤ bound'}
    (continued : ∀ {token token' others others'} shorter shorter', like.Tokens token token' →
      token.kind = kind → like.Same others others' →
      Alike like start R' (next token (start.before others) shorter)
        (next' token' (like.twin start others') shorter')) :
    Alike like start R' (((start.before rest).expect kind what).andThen next weaker)
      (((like.twin start rest').expect kind what).andThen next' weaker') := by
  refine .andThen (.expect start same le_rfl .rfl rfl rfl) ?_
  rintro _ _ _ _ _ shorter shorter' others ⟨rfl, token, holds⟩
  exact continued shorter shorter' token holds others

theorem expect_map (same : like.Same rest rest') {change change' : Token → β}
    {weaker : (start.before rest).size ≤ bound}
    {weaker' : (like.twin start rest').size ≤ bound'}
    (related : ∀ {token token'}, like.Tokens token token' → token.kind = kind →
      R' start (change token) (change' token')) :
    Alike like start R' (((start.before rest).expect kind what).map change weaker)
      (((like.twin start rest').expect kind what).map change' weaker') := by
  refine .map (.expect start same le_rfl .rfl rfl rfl) ?_
  rintro _ _ _ ⟨rfl, token, holds⟩
  exact related token holds

end Alike

end Parsed

namespace Likeness

open Parsed (Alike)

variable {like : Likeness}

abbrev Reads {α : Type} (like : Likeness) (R : Standing → Standing → α → α → Prop)
    (rule : (start : Position) → Parsed α start.size) (start : Standing) (rest rest' : List Token) :
    Prop :=
  Alike like start (R start) (rule (start.before rest)) (rule (like.twin start rest'))

theorem past {α : Type} {bound bound' : Nat} {parsed : Parsed α bound} {parsed' : Parsed α bound'}
    {R : Standing → Standing → α → α → Prop} {start : Standing} {rest rest' : List Token}
    (same : like.Same rest rest') (count : Nat) (fault : SyntaxFault)
    (skips : ∀ {after value value'}, R ⟨start.toSupply, True⟩ after value value' →
      R start after value value')
    (alike : ∀ noted, Alike like ⟨start.toSupply, noted⟩ (R ⟨start.toSupply, noted⟩) parsed parsed') :
    Alike like start (R start)
      (parsed.noting (if maxArity ≤ count then [⟨rest.head?, fault⟩] else []))
      (parsed'.noting (if maxArity ≤ count then [⟨rest'.head?, fault⟩] else [])) := by
  split
  · refine .noting ⟨start.toSupply, True⟩ le_rfl (by simp)
      (.cons (like.complaint same fault) .nil) ?_
    exact (alike True).imp skips
  · exact .noting _ le_rfl (by simp) .nil (alike start.noted)

def Arguments (like : Likeness) (start after : Standing) (found found' : List Expr × Token) : Prop :=
  like.Trees .exprs start after found.1 found'.1 ∧ like.Tokens found.2 found'.2 ∧
    found.2.kind = .rightParen

mutual
theorem assignment (comma : Bool) {start : Standing} {rest rest' : List Token}
    (same : like.Same rest rest') :
    like.Reads (like.Trees .expr) (Parse.assignment comma) start rest rest' := by
  rw [Reads, Parse.assignment, Parse.assignment]
  refine .andThen (conditional comma same) fun shorter _ same target => ?_
  rcases like.accept same _ (· = .equal) with
    ⟨none, none'⟩ | ⟨_, _, _, _, consumed, _, some, some', equals, -, same⟩
  · rw [none, none']
    exact .ended same target
  · rw [some, some']
    refine .andThen (assignment comma same) fun _ _ same value => ?_
    dsimp only
    rcases target.assigned value with ⟨refused, refused'⟩ | ⟨_, _, found, found', built⟩
    · rw [refused, refused']
      -- the value is read and left out
      exact .noted same ⟨.some equals, rfl⟩ (.unassigned target refused refused' value)
    · rw [found, found']
      exact .ended same built
termination_by 32 * (start.before rest).size + 18
decreasing_by all_goals omega

theorem conditional (comma : Bool) {start : Standing} {rest rest' : List Token}
    (same : like.Same rest rest') :
    like.Reads (like.Trees .expr) (Parse.conditional comma) start rest rest' := by
  have bounded := (Level.loosest comma).rank_le
  rw [Reads, Parse.conditional, Parse.conditional]
  refine .andThen (chain (.loosest comma) same) fun shorter _ same condition => ?_
  rcases like.accept same _ (· = .question) with
    ⟨none, none'⟩ | ⟨_, _, _, _, consumed, _, some, some', -, -, same⟩
  · rw [none, none']
    exact .ended same condition
  · rw [some, some']
    refine .andThen (assignment true same) fun shorter' _ same thenBranch => ?_
    refine .expect_andThen same fun shorter'' _ _ _ same => ?_
    exact .map (conditional comma same) fun elseBranch => .conditional condition thenBranch elseBranch
termination_by 32 * (start.before rest).size + 17
decreasing_by all_goals omega

theorem chain (level : Level) {start : Standing} {rest rest' : List Token}
    (same : like.Same rest rest') :
    like.Reads (like.Trees .expr) (Parse.chain level) start rest rest' := by
  rw [Reads, Parse.chain, Parse.chain]
  refine .andThen (operand level same) fun shorter _ same first => ?_
  exact (chainTail level first same).within
termination_by 32 * (start.before rest).size + 2 * level.rank + 1
decreasing_by all_goals omega

theorem chainTail (level : Level) {origin start : Standing} {left left' : Expr}
    (first : like.Trees .expr origin start left left') {rest rest' : List Token}
    (same : like.Same rest rest') :
    Alike like start (like.Trees .expr origin) (Parse.chainTail level left (start.before rest))
      (Parse.chainTail level left' (like.twin start rest')) := by
  have bounded := level.rank_le
  rw [Parse.chainTail, Parse.chainTail]
  rcases like.accept same _ level.accepts with
    ⟨none, none'⟩ | ⟨_, _, _, _, consumed, _, some, some', operator, accepted, same⟩
  · rw [none, none']
    exact .ended same first
  · rw [some, some']
    refine .andThen (operand level same) fun shorter _ same second => ?_
    exact (chainTail level (.combine first operator accepted second) same).within
termination_by 32 * (start.before rest).size
decreasing_by all_goals omega

theorem operand (level : Level) {start : Standing} {rest rest' : List Token}
    (same : like.Same rest rest') :
    like.Reads (like.Trees .expr) (Parse.operand level) start rest rest' := by
  rw [Reads, Parse.operand, Parse.operand]
  split
  · rename_i next found
    have smaller := Level.rank_tighter found
    exact chain next same
  · have positive := level.rank_pos
    exact unary same
termination_by 32 * (start.before rest).size + 2 * level.rank
decreasing_by all_goals omega

theorem unary {start : Standing} {rest rest' : List Token}
    (same : like.Same rest rest') :
    like.Reads (like.Trees .expr) Parse.unary start rest rest' := by
  rw [Reads, Parse.unary, Parse.unary]
  rcases like.accept same _ (fun kind => kind = .bang || kind = .minus) with
    ⟨none, none'⟩ | ⟨_, _, _, _, consumed, _, some, some', operator, accepted, same⟩
  · rw [none, none']
    refine .andThen (primary same) fun shorter _ same callee => ?_
    exact (callTail callee same).within
  · rw [some, some']
    exact .map (unary same) fun operand => .unary operator (by simpa using accepted) operand
termination_by 32 * (start.before rest).size + 1
decreasing_by all_goals omega

theorem callTail {origin start : Standing} {callee callee' : Expr}
    (called : like.Trees .expr origin start callee callee') {rest rest' : List Token}
    (same : like.Same rest rest') :
    Alike like start (like.Trees .expr origin) (Parse.callTail callee (start.before rest))
      (Parse.callTail callee' (like.twin start rest')) := by
  rw [Parse.callTail, Parse.callTail]
  rcases like.accept same _ (· = .leftParen) with
    ⟨none, none'⟩ | ⟨_, _, _, _, consumed, _, some, some', -, -, same⟩
  · rw [none, none']
    rcases like.accept same _ (· = .dot) with
      ⟨none, none'⟩ | ⟨_, _, _, _, consumed, _, some, some', -, -, same⟩
    · rw [none, none']
      exact .ended same called
    · rw [some, some']
      refine .expect_andThen same fun shorter _ name isName same => ?_
      exact (callTail (.get called name isName) same).within
  · rw [some, some']
    refine .andThen (arguments same) fun shorter _ same found => ?_
    exact (callTail (.call called found.2.1 found.2.2 found.1) same).within
termination_by 32 * (start.before rest).size
decreasing_by all_goals omega

theorem arguments {start : Standing} {rest rest' : List Token}
    (same : like.Same rest rest') :
    like.Reads like.Arguments Parse.arguments start rest rest' := by
  rw [Reads, Parse.arguments, Parse.arguments]
  rcases like.accept same _ (· = .rightParen) with
    ⟨none, none'⟩ | ⟨_, _, _, _, consumed, _, some, some', paren, isParen, same⟩
  · rw [none, none']
    exact argumentList 0 same
  · rw [some, some']
    exact .ended same ⟨.noExpr, paren, by simpa using isParen⟩
termination_by 32 * (start.before rest).size + 20
decreasing_by all_goals omega

theorem argumentList (count : Nat) {start : Standing} {rest rest' : List Token}
    (same : like.Same rest rest') :
    like.Reads like.Arguments (Parse.argumentList count) start rest rest' := by
  rw [Reads, Parse.argumentList, Parse.argumentList]
  refine like.past same count _ (And.imp_left (.skipped nofun le_rfl trivial)) fun noted => ?_
  have unmoved : (Standing.before ⟨start.toSupply, noted⟩ rest).size = (start.before rest).size := rfl
  refine .andThen (assignment false same) fun shorter _ same argument => ?_
  rcases like.accept same _ (· = .comma) with
    ⟨none, none'⟩ | ⟨_, _, _, _, consumed, _, some, some', -, -, same⟩
  · rw [none, none']
    exact .expect_map same fun paren isParen => ⟨argument.single, paren, isParen⟩
  · rw [some, some']
    exact .map (argumentList (count + 1) same) fun others => ⟨.moreExprs argument others.1, others.2⟩
termination_by 32 * (start.before rest).size + 19
decreasing_by all_goals omega

theorem primary {start : Standing} {rest rest' : List Token}
    (same : like.Same rest rest') :
    like.Reads (like.Trees .expr) Parse.primary start rest rest' := by
  rw [Reads, Parse.primary, Parse.primary]
  have unread := like.complaint same (.expected .expression)
  have whole := same
  rcases like.accept same _ (fun _ => true) with
    ⟨none, none'⟩ | ⟨_, _, _, _, shorter, _, some, some', token, -, same⟩
  · rw [none, none']
    exact .failed same unread
  · rw [some, some']
    dsimp only
    rw [like.kind token, like.literal token]
    split
    · exact .ended same (.constant (by simp))
    · exact .ended same (.constant (by simp))
    · exact .ended same (.constant (by simp))
    · split
      · exact .ended same (.literal token ‹_›)
      · exact .failed same ⟨.some token, rfl⟩
    · split
      · exact .ended same (.literal token ‹_›)
      · exact .failed same ⟨.some token, rfl⟩
    · exact .given start.afterExpr same (Nat.le_succ _) .rfl rfl (like.twin_afterExpr _ _) (.this token ‹_›)
    · refine .expect_andThen same fun shorter' _ _ _ same => ?_
      refine .expect_andThen same fun _ _ method isMethod same => ?_
      exact .given start.afterExpr same (Nat.le_succ _) .rfl rfl (like.twin_afterExpr _ _)
        (.super token ‹_› method isMethod)
    · exact .given start.afterExpr same (Nat.le_succ _) .rfl rfl (like.twin_afterExpr _ _) (.var token ‹_›)
    · refine .andThen (assignment true same) fun shorter' _ same inner => ?_
      exact .expect_map same fun _ _ => .grouping inner
    · exact .failed whole unread
termination_by 32 * (start.before rest).size
decreasing_by all_goals omega
end

theorem clause (ending : TokenKind) (what : Expected) {start : Standing} {rest rest' : List Token}
    (same : like.Same rest rest') :
    like.Reads (fun start after value value' => like.Trees .exprs start after value.toList
      value'.toList) (Parse.clause ending what) start rest rest' := by
  rw [Reads, Parse.clause, Parse.clause, like.isAt_eq same]
  split
  · exact .expect_map same fun _ _ => .noExpr
  · refine .andThen (assignment true same) fun _ _ same value => ?_
    exact .expect_map same fun _ _ => value.single

theorem expressionStatement {start : Standing} {rest rest' : List Token}
    (same : like.Same rest rest') :
    like.Reads (like.Trees .stmt) Parse.expressionStatement start rest rest' := by
  refine .andThen (assignment true same) fun _ _ same value => ?_
  exact .expect_map same fun _ _ => .expression value

theorem varDeclaration {start : Standing} {rest rest' : List Token}
    (same : like.Same rest rest') :
    like.Reads (like.Trees .stmt) Parse.varDeclaration start rest rest' := by
  refine .expect_andThen same fun _ _ name isName same => ?_
  rcases like.accept same _ (· = .equal) with
    ⟨none, none'⟩ | ⟨_, _, _, _, _, _, some, some', -, -, same⟩
  · rw [none, none']
    exact .expect_map same fun _ _ => .varDecl name isName .noExpr
  · rw [some, some']
    refine .andThen (assignment true same) fun _ _ same value => ?_
    exact .expect_map same fun _ _ => .varDecl name isName value.single

theorem printStatement {keyword keyword' : Token} (token : like.Tokens keyword keyword')
    (isPrint : keyword.kind = .printWord) {start : Standing} {rest rest' : List Token}
    (same : like.Same rest rest') :
    Alike like start (like.Trees .stmt start) (Parse.printStatement keyword (start.before rest))
      (Parse.printStatement keyword' (like.twin start rest')) := by
  refine .andThen (assignment true same) fun _ _ same value => ?_
  exact .expect_map same fun _ _ => .print token isPrint value

theorem forInitializer {start : Standing} {rest rest' : List Token}
    (same : like.Same rest rest') :
    like.Reads (fun start after stmt stmt' => like.Trees .stmts start after stmt.toList stmt'.toList)
      Parse.forInitializer start rest rest' := by
  rw [Reads, Parse.forInitializer, Parse.forInitializer]
  rcases like.accept same _ (· = .semicolon) with
    ⟨none, none'⟩ | ⟨_, _, _, _, _, _, some, some', -, -, same⟩
  · rw [none, none']
    rcases like.accept same _ (· = .varWord) with
      ⟨none, none'⟩ | ⟨_, _, _, _, _, _, some, some', -, -, same⟩
    · rw [none, none']
      exact .map (expressionStatement same) fun stmt => .moreStmts stmt .noStmt
    · rw [some, some']
      exact .map (varDeclaration same) fun stmt => .moreStmts stmt .noStmt
  · rw [some, some']
    exact .ended same .noStmt

structure Names (like : Likeness) (start after : Standing) (names names' : List Token) : Prop where
  reached : after = start ∨ start.nextExpr ≤ after.nextExpr ∧ after.noted
  same : like.Same names names'
  kind : ∀ name ∈ names, name.kind = .identifier

theorem parameterList (count : Nat) {start : Standing} {rest rest' : List Token}
    (same : like.Same rest rest') :
    like.Reads like.Names (Parse.parameterList count) start rest rest' := by
  rw [Reads, Parse.parameterList, Parse.parameterList]
  refine like.past same count _ ?_ fun noted => ?_
  · rintro after names names' ⟨rfl | further, alike, kind⟩
    · exact ⟨.inr ⟨le_rfl, trivial⟩, alike, kind⟩
    · exact ⟨.inr further, alike, kind⟩
  refine .expect_andThen same fun shorter _ name isName same => ?_
  rcases like.accept same _ (· = .comma) with
    ⟨none, none'⟩ | ⟨_, _, _, _, consumed, _, some, some', -, -, same⟩
  · rw [none, none']
    exact .ended same ⟨.inl rfl, .cons name .nil, by simpa using isName⟩
  · rw [some, some']
    exact .map (parameterList (count + 1) same) fun others =>
      ⟨others.reached, .cons name others.same, List.forall_mem_cons.mpr ⟨isName, others.kind⟩⟩
termination_by rest.length
decreasing_by
  simp only [Position.size] at consumed shorter
  omega

theorem parameters {start : Standing} {rest rest' : List Token}
    (same : like.Same rest rest') :
    like.Reads like.Names Parse.parameters start rest rest' := by
  rw [Reads, Parse.parameters, Parse.parameters, like.isAt_eq same]
  split
  · exact .expect_map same fun _ _ => ⟨.inl rfl, .nil, List.forall_mem_nil _⟩
  · refine .andThen (parameterList 0 same) fun _ _ same names => ?_
    exact .expect_map same fun _ _ => names

theorem boundaryAfter {last last' : Token} (token : like.Tokens last last') {rest rest' : List Token}
    (same : like.Same rest rest') :
    like.Same (Parse.boundaryAfter last rest) (Parse.boundaryAfter last' rest') := by
  induction same generalizing last last' with
  | nil => exact .nil
  | cons first same ih =>
      rw [Parse.boundaryAfter, Parse.boundaryAfter, like.kind token, like.kind first]
      split
      · exact .cons first same
      · exact ih first

theorem recover {bound bound' : Nat} {parsed : Parsed Stmt bound} {parsed' : Parsed Stmt bound'}
    {start : Standing} (alike : Alike like start (like.Trees .stmt start) parsed parsed')
    (positive : 0 < bound) (positive' : 0 < bound') :
    ∃ after rest rest' stmt stmt' notes notes' shorter shorter',
      Parse.recover parsed positive = ⟨stmt, notes, after.before rest, shorter⟩ ∧
      Parse.recover parsed' positive' = ⟨stmt', notes', (like.twin after rest'), shorter'⟩ ∧
      start.nextExpr ≤ after.nextExpr ∧ List.Forall₂ like.Complaints notes notes' ∧
      like.Same rest rest' ∧ (after.noted ↔ start.noted ∨ notes ≠ []) ∧
      ∀ {last others others'}, like.Trees .stmts after last others others' →
        like.Trees .stmts start last (stmt.toList ++ others) (stmt'.toList ++ others') := by
  cases alike with
  | done further notes same noted stmt =>
      exact ⟨_, _, _, _, _, _, _, _, _, rfl, rfl, further, notes, same, noted, .moreStmts stmt⟩
  | @stuck _ _ _ _ rest rest' after _ _ further notes same caused =>
      have same : like.Same (Parse.boundary rest) (Parse.boundary rest') := by
        cases same with
        | nil => exact .nil
        | cons token same => exact boundaryAfter token same
      refine ⟨⟨after.toSupply, True⟩, _, _, _, _, _, _, _, _, rfl, rfl, further,
        List.rel_append notes (.cons caused .nil), same, by simp, fun others => ?_⟩
      exact .skipped nofun (by exact further) trivial others

mutual
theorem declaration {start : Standing} {rest rest' : List Token}
    (same : like.Same rest rest') :
    like.Reads (like.Trees .stmt) Parse.declaration start rest rest' := by
  rw [Reads, Parse.declaration, Parse.declaration]
  rcases like.accept same _ (· = .classWord) with
    ⟨none, none'⟩ | ⟨_, _, _, _, consumed, _, some, some', -, -, same⟩
  · rw [none, none']
    rcases like.accept same _ (· = .funWord) with
      ⟨none, none'⟩ | ⟨_, _, _, _, consumed, _, some, some', -, -, same⟩
    · rw [none, none']
      rcases like.accept same _ (· = .varWord) with
        ⟨none, none'⟩ | ⟨_, _, _, _, consumed, _, some, some', -, -, same⟩
      · rw [none, none']
        exact statement same
      · rw [some, some']
        exact (varDeclaration same).within
    · rw [some, some']
      exact .map (function .function same) .functionDecl
  · rw [some, some']
    exact (classDeclaration same).within
termination_by 8 * (start.before rest).size + 2
decreasing_by all_goals omega

theorem classDeclaration {start : Standing} {rest rest' : List Token}
    (same : like.Same rest rest') :
    like.Reads (like.Trees .stmt) Parse.classDeclaration start rest rest' := by
  rw [Reads, Parse.classDeclaration, Parse.classDeclaration]
  refine .expect_andThen same fun shorter _ name isName same => ?_
  rcases like.accept same _ (· = .less) with
    ⟨none, none'⟩ | ⟨_, _, _, _, consumed, _, some, some', -, -, same⟩
  · rw [none, none']
    refine .expect_andThen same fun opened _ _ _ same => ?_
    exact .map (methods same) fun found => .classDecl name isName .noExpr found
  · rw [some, some']
    refine .expect_andThen same fun {_ _ others _} shorter' _ parent isParent same => ?_
    refine .andThen (.expect start.afterExpr same (Nat.le_succ _) .rfl rfl (like.twin_afterExpr _ _)) ?_
    rintro _ _ _ _ _ opened - same ⟨rfl, -⟩
    have unmoved := Position.size_skipExprId (start.before others)
    exact .map (methods same) fun found =>
      .classDecl name isName (Trees.single (.var parent isParent)) found
termination_by 8 * (start.before rest).size
decreasing_by all_goals omega

theorem methods {start : Standing} {rest rest' : List Token}
    (same : like.Same rest rest') :
    like.Reads (like.Trees .decls) Parse.methods start rest rest' := by
  rw [Reads, Parse.methods, Parse.methods]
  simp only [like.isAt_eq same, like.nil_iff same]
  split
  · exact .expect_map same fun _ _ => .noDecl
  · refine .andThen (function .method same) fun shorter _ same first => ?_
    exact .map (methods same) fun rest => .moreDecls first rest
termination_by 8 * (start.before rest).size + 1
decreasing_by all_goals omega

theorem function (kind : FunctionKind) {start : Standing} {rest rest' : List Token}
    (same : like.Same rest rest') :
    like.Reads (like.Trees .decl) (Parse.function kind) start rest rest' := by
  rw [Reads, Parse.function, Parse.function]
  refine .expect_andThen same fun shorter _ name isName same => ?_
  refine .expect_andThen same fun opened _ _ _ same => ?_
  refine .andThen (parameters same) fun closed _ same params => ?_
  refine .expect_andThen same fun entered _ _ _ same => ?_
  refine .andThen (block same) fun ended _ same body => ?_
  refine .given (.afterDecl _) same le_rfl .rfl rfl (like.twin_afterDecl _ _)
    (.function name isName params.same params.kind ?_)
  rcases params.reached with rfl | ⟨le, noted⟩
  · exact body
  · exact .skipped nofun le noted body
termination_by 8 * (start.before rest).size
decreasing_by all_goals omega

theorem block {start : Standing} {rest rest' : List Token}
    (same : like.Same rest rest') :
    like.Reads (like.Trees .stmts) Parse.block start rest rest' := by
  rw [Reads, Parse.block, Parse.block]
  have ends := or_congr (iff_of_eq (congrArg (· = true) (like.isAt_eq same start .rightBrace))) (like.nil_iff same)
  by_cases ended : (start.before rest).isAt .rightBrace ∨ rest = []
  · rw [dif_pos ended, dif_pos (ends.mpr ended)]
    exact .expect_map same fun _ _ => .noStmt
  · rw [dif_neg ended, dif_neg (mt ends.mp ended)]
    obtain ⟨after, _, _, _, _, _, _, shorter, _, first, first', le, notes, same, noted, stmts⟩ :=
      recover (declaration same) (List.length_pos_iff.mpr (mt Or.inr ended))
        (List.length_pos_iff.mpr (mt (ends.mp ∘ Or.inr) ended))
    rw [first, first']
    exact .noting after le noted notes (.map (block same) stmts)
termination_by 8 * (start.before rest).size + 3
decreasing_by all_goals omega

theorem statement {start : Standing} {rest rest' : List Token}
    (same : like.Same rest rest') :
    like.Reads (like.Trees .stmt) Parse.statement start rest rest' := by
  rw [Reads, Parse.statement, Parse.statement]
  have whole := same
  rcases like.accept same _ (fun _ => true) with
    ⟨none, none'⟩ | ⟨_, _, _, _, consumed, _, some, some', token, -, same⟩
  · rw [none, none']
    exact (expressionStatement same).within
  · rw [some, some']
    dsimp only
    rw [like.kind token]
    split
    · exact (forStatement same).within
    · exact (ifStatement same).within
    · exact (printStatement token ‹_› same).within
    · refine .within (.map (clause _ _ same) fun value => .returnStmt token ‹_› value)
    · exact (whileStatement same).within
    · exact .map (block same) .block
    · exact expressionStatement whole
termination_by 8 * (start.before rest).size + 1
decreasing_by all_goals omega

theorem forStatement {start : Standing} {rest rest' : List Token}
    (same : like.Same rest rest') :
    like.Reads (like.Trees .stmt) Parse.forStatement start rest rest' := by
  rw [Reads, Parse.forStatement, Parse.forStatement]
  refine .expect_andThen same fun opened _ _ _ same => ?_
  refine .andThen (forInitializer same) fun shorter _ same initializer => ?_
  refine .andThen (clause _ _ same) fun shorter' _ same condition => ?_
  refine .andThen (clause _ _ same) fun closed _ same increment => ?_
  exact .map (statement same) fun body => .forLoop initializer condition increment body
termination_by 8 * (start.before rest).size
decreasing_by all_goals omega

theorem ifStatement {start : Standing} {rest rest' : List Token}
    (same : like.Same rest rest') :
    like.Reads (like.Trees .stmt) Parse.ifStatement start rest rest' := by
  rw [Reads, Parse.ifStatement, Parse.ifStatement]
  refine .expect_andThen same fun opened _ _ _ same => ?_
  refine .andThen (assignment true same) fun shorter _ same condition => ?_
  refine .expect_andThen same fun closed _ _ _ same => ?_
  refine .andThen (statement same) fun shorter' _ same thenBranch => ?_
  rcases like.accept same _ (· = .elseWord) with
    ⟨none, none'⟩ | ⟨_, _, _, _, consumed, _, some, some', -, -, same⟩
  · rw [none, none']
    exact .ended same (.ifThen condition thenBranch)
  · rw [some, some']
    exact .map (statement same) fun elseBranch => .ifElse condition thenBranch elseBranch
termination_by 8 * (start.before rest).size
decreasing_by all_goals omega

theorem whileStatement {start : Standing} {rest rest' : List Token}
    (same : like.Same rest rest') :
    like.Reads (like.Trees .stmt) Parse.whileStatement start rest rest' := by
  rw [Reads, Parse.whileStatement, Parse.whileStatement]
  refine .expect_andThen same fun opened _ _ _ same => ?_
  refine .andThen (assignment true same) fun shorter _ same condition => ?_
  refine .expect_andThen same fun closed _ _ _ same => ?_
  exact .map (statement same) fun body => .whileLoop condition body
termination_by 8 * (start.before rest).size
decreasing_by all_goals omega
end

def Completes (like : Likeness) (sort : TreeSort) (start : Standing) (tree tree' : sort.Tree)
    (found found' : List Complaint × Supply) : Prop :=
  ∃ after : Standing, found.2 = after.toSupply ∧ found'.2 = after.toSupply.plus like.offset ∧
    List.Forall₂ like.Complaints found.1 found'.1 ∧ (after.noted ↔ start.noted ∨ found.1 ≠ []) ∧
    like.Trees sort start after tree tree'

theorem declarations {start : Standing} {rest rest' : List Token} (same : like.Same rest rest') :
    like.Completes .stmts start (Parse.declarations (start.before rest)).1
      (Parse.declarations (like.twin start rest')).1 (Parse.declarations (start.before rest)).2
      (Parse.declarations (like.twin start rest')).2 := by
  rw [Parse.declarations, Parse.declarations]
  by_cases ended : rest = []
  · rw [dif_pos ended, dif_pos ((like.nil_iff same).mpr ended)]
    exact ⟨start, rfl, rfl, .nil, by simp, .noStmt⟩
  · rw [dif_neg ended, dif_neg (mt (like.nil_iff same).mp ended)]
    obtain ⟨middle, _, _, _, _, _, _, shorter, _, first, first', le, notes, same, noted, stmts⟩ :=
      recover (declaration same) (List.length_pos_iff.mpr ended)
        (List.length_pos_iff.mpr (mt (like.nil_iff same).mp ended))
    rw [first, first']
    obtain ⟨after, supply, supply', later, noted', others⟩ := declarations same
    refine ⟨after, supply, supply', List.rel_append notes later, ?_, stmts others⟩
    rw [noted', noted, or_assoc]
    exact or_congr_right (not_and_or.symm.trans (not_congr List.append_eq_nil_iff.symm))
termination_by (start.before rest).size

theorem lone {start : Standing} {rest rest' : List Token} (same : like.Same rest rest') :
    like.Completes .exprs start (Parse.lone (start.before rest)).1.toList
      (Parse.lone (like.twin start rest')).1.toList (Parse.lone (start.before rest)).2
      (Parse.lone (like.twin start rest')).2 := by
  have alike : like.Reads (like.Trees .expr) (Parse.assignment true) start rest rest' :=
    assignment true same
  rw [Reads] at alike
  rw [Parse.lone, Parse.lone]
  generalize Parse.assignment true (start.before rest) = parsed at alike
  generalize Parse.assignment true (like.twin start rest') = parsed' at alike
  have left {after : Standing} (le : start.nextExpr ≤ after.nextExpr) :
      like.Trees .exprs start ⟨after.toSupply, True⟩ [] [] :=
    .skipped nofun (by exact le) trivial .noExpr
  cases alike with
  | stuck le notes same caused =>
      exact ⟨⟨_, True⟩, rfl, rfl, List.rel_append notes (.cons caused .nil), by simp, left le⟩
  | @done _ _ notes notes' rest rest' after _ _ le noting same noted tree =>
      dsimp only
      rw [if_congr (like.nil_iff same) rfl rfl]
      split
      · cases noting with
        | nil => exact ⟨after, rfl, rfl, .nil, noted, tree.single⟩
        | cons first others =>
            exact ⟨⟨_, True⟩, rfl, rfl, .cons first others, by simp, left le⟩
      · exact ⟨⟨_, True⟩, rfl, rfl, List.rel_append noting (.cons (like.complaint same _) .nil),
          by simp, left le⟩

def itself (known : Token → Prop) (offset : Supply) : Likeness where
  Tokens token token' := token' = token ∧ known token
  offset := offset
  kind := fun same => congrArg Token.kind same.1
  literal := fun same => congrArg Token.literal same.1

variable {known : Token → Prop} {offset : Supply}

theorem same_itself {tokens : List Token} (all : ∀ token ∈ tokens, known token) :
    (itself known offset).Same tokens tokens :=
  List.forall₂_same.mpr fun token member => ⟨rfl, all token member⟩

theorem same_offset (offset : Supply) (tokens : List Token) :
    (itself (fun _ => True) offset).Same tokens tokens :=
  same_itself fun _ _ => trivial

theorem eq_of_same {tokens tokens' : List Token} (same : (itself known offset).Same tokens tokens') :
    tokens' = tokens := by
  induction same with
  | nil => rfl
  | cons token _ ih => exact congrArg₂ _ token.1 ih

theorem eq_of_complaints {notes notes' : List Complaint}
    (same : List.Forall₂ (itself known offset).Complaints notes notes') : notes' = notes := by
  induction same with
  | nil => rfl
  | @cons first first' _ _ alike _ ih =>
      obtain ⟨place, fault⟩ := first
      obtain ⟨place', fault'⟩ := first'
      obtain ⟨placed, faulty⟩ := alike
      cases placed with
      | none => exact congrArg₂ _ (congrArg _ faulty) ih
      | some token => exact congrArg₂ _ (congrArg₂ _ (congrArg _ token.1) faulty) ih

end Likeness

end Lox
