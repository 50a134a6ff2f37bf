import Lox.Proofs.Parse.Complete

/-!
A program is accepted exactly when the grammar derives it. The grammar leaves open to which `if` an
`else` belongs; any derivation can be turned into one in which it is the nearest, and the tree of that
one is the tree that is built.
-/

namespace Lox

open Grammar

namespace Grammar

theorem StmtDerives.relax {clause : Clause} {start after : Supply} {words : List Token}
    {tree : clause.Tree} (derived : StmtDerives true clause start words tree after) :
    StmtDerives false clause start words tree after := by
  induction derived with
  | none => exact .none
  | next _ _ ih ih' => exact .next ih ih'
  | classDecl isClass isName isOpening _ isClosing ih =>
      exact .classDecl isClass isName isOpening ih isClosing
  | subclassDecl isClass isName isLess isParent isOpening _ isClosing ih =>
      exact .subclassDecl isClass isName isLess isParent isOpening ih isClosing
  | funDecl isFun _ ih => exact .funDecl isFun ih
  | varDecl declared => exact .varDecl declared
  | statement _ ih => exact .statement ih
  | noMethod => exact .noMethod
  | nextMethod _ _ ih ih' => exact .nextMethod ih ih'
  | function isName isParen listed isClosingParen isOpening _ isClosing ih =>
      exact .function isName isParen listed isClosingParen isOpening ih isClosing
  | exprStmt derived => exact .exprStmt derived
  | forLoop isFor isOpening initialized conditional isSemicolon incremented isClosing _ ih =>
      exact .forLoop isFor isOpening initialized conditional isSemicolon incremented isClosing ih
  | ifThen isIf isOpening conditional isClosing _ ih =>
      exact .ifThen isIf isOpening conditional isClosing ih
  | ifElse isIf isOpening conditional isClosing _ _ isElse _ ih ih' =>
      exact .ifElse isIf isOpening conditional isClosing ih nofun isElse ih'
  | print isPrint derived isSemicolon => exact .print isPrint derived isSemicolon
  | returnStmt isReturn derived isSemicolon => exact .returnStmt isReturn derived isSemicolon
  | whileLoop isWhile isOpening conditional isClosing _ ih =>
      exact .whileLoop isWhile isOpening conditional isClosing ih
  | block isOpening _ isClosing ih => exact .block isOpening ih isClosing

/-- These tokens are a statement in which each `else` belongs to the nearest `if`. -/
def IsStatement (start : Supply) (words : List Token) (after : Supply) : Prop :=
  ∃ isOpen stmt, StmtDerives true (.statement isOpen) start words stmt after

theorem StmtDerives.isStatement {isOpen : Bool} {start after : Supply} {words others : List Token}
    {stmt : Stmt} (derived : StmtDerives true (.statement isOpen) start words stmt after)
    (same : words = others) : IsStatement start others after := by
  subst same
  exact ⟨isOpen, stmt, derived⟩

theorem StmtDerives.takeElse {clause : Clause} {start middle : Supply} {words : List Token}
    {tree : clause.Tree} (derived : StmtDerives true clause start words tree middle)
    (isOpen : clause = .statement true) {elseWord : Token} (isElse : elseWord.kind = .elseWord)
    {elseWords : List Token} {after : Supply} (elseDerived : IsStatement middle elseWords after) :
    IsStatement start (words ++ elseWord :: elseWords) after := by
  induction derived with
  | none | next | classDecl | subclassDecl | funDecl | varDecl | statement | noMethod | nextMethod
  | function | exprStmt | print | returnStmt | block => simp at isOpen
  | @forLoop start keyword opening initWords initializer atCondition conditionWords condition
      atIncrement semicolon incrementWords increment atBody closing words isOpen body after isFor
      isOpening initialized conditional isSemicolon incremented isClosing _ ih =>
      obtain ⟨_, _, derived⟩ := ih isOpen elseDerived
      exact (StmtDerives.forLoop isFor isOpening initialized conditional isSemicolon
        incremented isClosing derived).isStatement
        (by simp)
  | @ifThen start keyword opening conditionWords condition atThen closing words thenOpen thenBranch
      after isIf isOpening conditional isClosing thenDerived ih =>
      cases thenOpen with
      | true =>
          obtain ⟨_, _, derived⟩ := ih rfl elseDerived
          exact (StmtDerives.ifThen isIf isOpening conditional isClosing derived).isStatement
            (by simp)
      | false =>
          obtain ⟨_, _, derived⟩ := elseDerived
          exact (StmtDerives.ifElse isIf isOpening conditional isClosing thenDerived
            (fun _ => rfl) isElse derived).isStatement
            (by simp)
  | ifElse isIf isOpening conditional isClosing thenDerived closed isElse' _ _ ih =>
      obtain ⟨_, _, derived⟩ := ih isOpen elseDerived
      exact (StmtDerives.ifElse isIf isOpening conditional isClosing thenDerived closed isElse'
        derived).isStatement
        (by simp)
  | whileLoop isWhile isOpening conditional isClosing _ ih =>
      obtain ⟨_, _, derived⟩ := ih isOpen elseDerived
      exact (StmtDerives.whileLoop isWhile isOpening conditional isClosing derived).isStatement
        (by simp)

def Balanced : Clause → Supply → List Token → Supply → Prop
  | .declarations, start, words, after =>
      ∃ stmts, StmtDerives true .declarations start words stmts after
  | .declaration _, start, words, after =>
      ∃ isOpen stmt, StmtDerives true (.declaration isOpen) start words stmt after
  | .statement _, start, words, after => IsStatement start words after
  | .function, start, words, after => ∃ decl, StmtDerives true .function start words decl after
  | .functions, start, words, after =>
      ∃ decls, StmtDerives true .functions start words decls after

theorem StmtDerives.balanced {nearest : Bool} {clause : Clause} {start after : Supply}
    {words : List Token} {tree : clause.Tree}
    (derived : StmtDerives nearest clause start words tree after) :
    Balanced clause start words after := by
  induction derived with
  | none => exact ⟨_, .none⟩
  | next _ _ ih ih' =>
      obtain ⟨_, _, first⟩ := ih
      obtain ⟨_, others⟩ := ih'
      exact ⟨_, .next first others⟩
  | classDecl isClass isName isOpening _ isClosing ih =>
      obtain ⟨_, methods⟩ := ih
      exact ⟨_, _, .classDecl isClass isName isOpening methods isClosing⟩
  | subclassDecl isClass isName isLess isParent isOpening _ isClosing ih =>
      obtain ⟨_, methods⟩ := ih
      exact ⟨_, _, .subclassDecl isClass isName isLess isParent isOpening methods isClosing⟩
  | funDecl isFun _ ih =>
      obtain ⟨_, decl⟩ := ih
      exact ⟨_, _, .funDecl isFun decl⟩
  | varDecl declared => exact ⟨_, _, .varDecl declared⟩
  | statement _ ih =>
      obtain ⟨_, _, stmt⟩ := ih
      exact ⟨_, _, .statement stmt⟩
  | noMethod => exact ⟨_, .noMethod⟩
  | nextMethod _ _ ih ih' =>
      obtain ⟨_, first⟩ := ih
      obtain ⟨_, others⟩ := ih'
      exact ⟨_, .nextMethod first others⟩
  | function isName isParen listed isClosingParen isOpening _ isClosing ih =>
      obtain ⟨_, body⟩ := ih
      exact ⟨_, .function isName isParen listed isClosingParen isOpening body isClosing⟩
  | exprStmt derived => exact ⟨_, _, .exprStmt derived⟩
  | forLoop isFor isOpening initialized conditional isSemicolon incremented isClosing _ ih =>
      obtain ⟨_, _, body⟩ := ih
      exact ⟨_, _, .forLoop isFor isOpening initialized conditional isSemicolon incremented
        isClosing body⟩
  | ifThen isIf isOpening conditional isClosing _ ih =>
      obtain ⟨_, _, thenBranch⟩ := ih
      exact ⟨_, _, .ifThen isIf isOpening conditional isClosing thenBranch⟩
  | @ifElse start keyword opening conditionWords condition atThen closing thenWords thenOpen
      thenBranch atElse elseWord elseWords isOpen elseBranch after isIf isOpening conditional isClosing
      _ _ isElse _ ih ih' =>
      obtain ⟨thenOpen, _, thenBranch⟩ := ih
      cases thenOpen with
      | true =>
          obtain ⟨_, _, taken⟩ := thenBranch.takeElse rfl isElse ih'
          exact ⟨_, _, .ifThen isIf isOpening conditional isClosing taken⟩
      | false =>
          obtain ⟨_, _, elseBranch⟩ := ih'
          exact ⟨_, _, .ifElse isIf isOpening conditional isClosing thenBranch (fun _ => rfl)
            isElse elseBranch⟩
  | print isPrint derived isSemicolon => exact ⟨_, _, .print isPrint derived isSemicolon⟩
  | returnStmt isReturn derived isSemicolon =>
      exact ⟨_, _, .returnStmt isReturn derived isSemicolon⟩
  | whileLoop isWhile isOpening conditional isClosing _ ih =>
      obtain ⟨_, _, body⟩ := ih
      exact ⟨_, _, .whileLoop isWhile isOpening conditional isClosing body⟩
  | block isOpening _ isClosing ih =>
      obtain ⟨_, body⟩ := ih
      exact ⟨_, _, .block isOpening body isClosing⟩

end Grammar

namespace Parse

theorem declarations_sound {start : Position} {stmts : List Stmt} {after : Supply}
    (read : declarations start = (stmts, [], after)) :
    StmtDerives true .declarations start.supply start.rest stmts after := by
  rw [declarations] at read
  split at read
  · rename_i ended
    simp only [Prod.mk.injEq, true_and] at read
    obtain ⟨rfl, rfl⟩ := read
    rw [ended]
    exact .none
  · split at read
    rename_i found notes middle shorter recovered
    simp only [Prod.mk.injEq, List.append_eq_nil_iff] at read
    obtain ⟨rfl, ⟨rfl, unnoted⟩, rfl⟩ := read
    obtain ⟨stmt, rfl, first⟩ := recover_unnoted recovered
    obtain ⟨words, rest, isOpen, derived⟩ := declaration_sound start stmt middle first
    rw [rest]
    have others : declarations middle =
        ((declarations middle).1, [], (declarations middle).2.2) := by rw [← unnoted]
    exact .next derived (declarations_sound others)
termination_by start.size

theorem declarations_eq_iff {words : List Token} {start after : Supply} {stmts : List Stmt} :
    declarations ⟨words, start⟩ = (stmts, [], after) ↔
      StmtDerives true .declarations start words stmts after :=
  ⟨declarations_sound, fun derived => (complete_of_stmtDerives derived).2⟩

theorem program_eq_iff {tokens : List Token} {start after : Supply} {stmts : List Stmt} :
    program tokens start = ⟨stmts, [], after⟩ ↔
      StmtDerives true .declarations start (words tokens) stmts after := by
  rw [← declarations_eq_iff, program]
  generalize declarations ⟨words tokens, start⟩ = read
  obtain ⟨found, complaints, last⟩ := read
  simp

theorem lone_eq_some {start : Position} {expr : Expr} (found : (lone start).1 = some expr) :
    ∃ after, (assignment true start).Yields expr ⟨[], after⟩ ∧
      lone start = (some expr, [], after) := by
  rw [lone] at found ⊢
  split at found
  · rename_i read notes last shorter parsed
    rw [parsed]
    obtain ⟨rest, after⟩ := last
    split at found
    · rename_i ended
      obtain rfl : rest = [] := ended
      cases notes with
      | nil =>
          obtain rfl : read = expr := by simpa using found
          exact ⟨after, Parsed.yields_done.mpr ⟨rfl, rfl, rfl⟩, rfl⟩
      | cons first rest => simp at found
    · simp at found
  · simp at found

theorem lone_of_yields {start : Position} {expr : Expr} {after : Supply}
    (yields : (assignment true start).Yields expr ⟨[], after⟩) :
    lone start = (some expr, [], after) := by
  obtain ⟨shorter, parsed⟩ := yields
  rw [lone, parsed]
  rfl

theorem lone_eq_iff {words : List Token} {start after : Supply} {expr : Expr} :
    lone ⟨words, start⟩ = (some expr, [], after) ↔
      ExprDerives .expression start words expr after := by
  constructor
  · intro read
    obtain ⟨last, yields, read'⟩ := lone_eq_some (by rw [read])
    obtain rfl : last = after := by simpa [read] using read'.symm
    obtain ⟨taken, rest, derived⟩ := assignment_sound true _ _ _ yields
    obtain rfl : words = taken := by simpa using rest
    exact derived
  · intro derived
    have yields := complete_of_exprDerives derived [] (by simp [Stops])
    rw [List.append_nil] at yields
    exact lone_of_yields yields

/-- A program is accepted exactly when the grammar derives its tokens, and the statements that are
built are then those of the derivation in which each `else` belongs to the nearest `if`. -/
theorem program_accepts_iff_derives (tokens : List Token) (start : Supply) :
    ((program tokens start).errors = [] ↔
      ∃ stmts after, StmtDerives false .declarations start (words tokens) stmts after) ∧
    ∀ stmts after, program tokens start = ⟨stmts, [], after⟩ ↔
      StmtDerives true .declarations start (words tokens) stmts after := by
  refine ⟨⟨fun accepted => ?_, ?_⟩, fun stmts after => program_eq_iff⟩
  · have read : program tokens start =
        ⟨(program tokens start).tree, [], (program tokens start).supply⟩ := by rw [← accepted]
    exact ⟨_, _, (program_eq_iff.mp read).relax⟩
  · rintro ⟨stmts, after, derived⟩
    obtain ⟨balanced, derived⟩ := derived.balanced
    rw [program_eq_iff.mpr derived]

end Parse

end Lox
