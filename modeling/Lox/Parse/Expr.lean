import Lox.Parse.Rule

/-!
The rules for expressions, from the loosest to the tightest:

    assignment   conditional ( "=" assignment )?
    conditional  chain ( "?" assignment ":" conditional )?
    chain        operand ( operator operand )*       one level per group of operators
    unary        ( "!" | "-" ) unary | call
    call         primary ( "(" arguments ")" | "." name )*

The comma is an operator except directly inside the arguments of a call; parentheses and the middle
of a conditional allow it again. After them come the rules for what holds expressions and names but
no statement: clauses, the statements that end with a semicolon, and parameters.
-/

namespace Lox

/-- The groups of operators that associate to the left. -/
inductive Level
  | comma
  | disjunction
  | conjunction
  | equality
  | comparison
  | term
  | factor
deriving DecidableEq

namespace Level

def accepts : Level → TokenKind → Bool
  | comma, kind => kind = .comma
  | disjunction, kind => kind = .orWord
  | conjunction, kind => kind = .andWord
  | equality, kind => kind = .bangEqual || kind = .equalEqual
  | comparison, kind =>
      kind = .greater || kind = .greaterEqual || kind = .less || kind = .lessEqual
  | term, kind => kind = .minus || kind = .plus
  | factor, kind => kind = .slash || kind = .star

def combine : Level → Expr → Token → Expr → Expr
  | comma => .comma
  | disjunction | conjunction => .logical
  | equality | comparison | term | factor => .binary

def tighter : Level → Option Level
  | comma => some disjunction
  | disjunction => some conjunction
  | conjunction => some equality
  | equality => some comparison
  | comparison => some term
  | term => some factor
  | factor => none

def rank : Level → Nat
  | comma => 7
  | disjunction => 6
  | conjunction => 5
  | equality => 4
  | comparison => 3
  | term => 2
  | factor => 1

def loosest (comma : Bool) : Level := if comma then .comma else .disjunction

theorem rank_pos (level : Level) : 0 < level.rank := by cases level <;> decide

theorem rank_le (level : Level) : level.rank ≤ 7 := by cases level <;> decide

theorem rank_tighter {level next : Level} (found : level.tighter = some next) :
    next.rank < level.rank := by
  cases level <;> simp only [tighter, Option.some.injEq, reduceCtorEq] at found <;> subst found <;>
    decide

end Level

def Expr.assigned? (target value : Expr) : Option Expr :=
  match target with
  | var id name => some (assign id name value)
  | get object name => some (set object name value)
  | _ => none

def Position.expect (position : Position) (kind : TokenKind) (what : Expected) :
    Parsed Token position.size :=
  match position.accept? (· = kind) with
  | some (token, ⟨after, shorter⟩) => .done token [] after shorter
  | none => .stuck (position.complain what) [] position (Nat.le_refl _)

namespace Parse

mutual
/-- An assignment groups to the right. A target that cannot be assigned is noted and kept. -/
def assignment (comma : Bool) (start : Position) : Parsed Expr start.size :=
  (conditional comma start).andThen fun target after shorter =>
    match after.accept? (· = .equal) with
    | none => .done target [] after shorter
    | some (equals, ⟨next, consumed⟩) =>
        (assignment comma next).andThen fun value last ended =>
          have ended := Nat.lt_trans ended (Nat.lt_trans consumed shorter)
          match target.assigned? value with
          | some expr => .done expr [] last ended
          | none => .done target [⟨some equals, .invalidAssignmentTarget⟩] last ended
termination_by 32 * start.size + 18

def conditional (comma : Bool) (start : Position) : Parsed Expr start.size :=
  have := (Level.loosest comma).rank_le
  (chain (.loosest comma) start).andThen fun condition after shorter =>
    match after.accept? (· = .question) with
    | none => .done condition [] after shorter
    | some (_, ⟨next, consumed⟩) =>
        (assignment true next).andThen fun thenBranch atColon shorter' =>
          (atColon.expect .colon .colon).andThen fun _ afterColon shorter'' =>
            (conditional comma afterColon).map fun elseBranch =>
              .conditional condition thenBranch elseBranch
termination_by 32 * start.size + 17

def chain (level : Level) (start : Position) : Parsed Expr start.size :=
  (operand level start).andThen fun first after shorter =>
    (chainTail level first after).within shorter
termination_by 32 * start.size + 2 * level.rank + 1

def chainTail (level : Level) (left : Expr) (start : Position) : Parsed Expr (start.size + 1) :=
  have := level.rank_le
  match start.accept? level.accepts with
  | none => .done left [] start (Nat.lt_succ_self _)
  | some (operator, ⟨next, consumed⟩) =>
      (operand level next).andThen fun right after shorter =>
        (chainTail level (level.combine left operator right) after).within
          (Nat.le_succ_of_le (Nat.lt_trans shorter consumed))
termination_by 32 * start.size

def operand (level : Level) (start : Position) : Parsed Expr start.size :=
  match found : level.tighter with
  | some next =>
      have := Level.rank_tighter found
      chain next start
  | none =>
      have := level.rank_pos
      unary start
termination_by 32 * start.size + 2 * level.rank

def unary (start : Position) : Parsed Expr start.size :=
  match start.accept? fun kind => kind = .bang || kind = .minus with
  | some (operator, ⟨next, consumed⟩) => (unary next).map fun inner => .unary operator inner
  | none =>
      (primary start).andThen fun callee after shorter => (callTail callee after).within shorter
termination_by 32 * start.size + 1

/-- Calls and property reads, each applied to what stands before it. -/
def callTail (callee : Expr) (start : Position) : Parsed Expr (start.size + 1) :=
  match start.accept? (· = .leftParen) with
  | some (_, ⟨next, consumed⟩) =>
      (arguments next).andThen fun (found, paren) after shorter =>
        (callTail (.call callee paren found) after).within
          (Nat.le_succ_of_le (Nat.lt_trans shorter consumed))
  | none =>
      match start.accept? (· = .dot) with
      | some (_, ⟨next, consumed⟩) =>
          (next.expect .identifier .propertyName).andThen fun name after shorter =>
            (callTail (.get callee name) after).within
              (Nat.le_succ_of_le (Nat.lt_trans shorter consumed))
      | none => .done callee [] start (Nat.lt_succ_self _)
termination_by 32 * start.size

def arguments (start : Position) : Parsed (List Expr × Token) start.size :=
  match start.accept? (· = .rightParen) with
  | some (paren, ⟨after, shorter⟩) => .done ([], paren) [] after shorter
  | none => argumentList 0 start
termination_by 32 * start.size + 20

/-- One or more arguments after the first `count`; each past the limit is noted. -/
def argumentList (count : Nat) (start : Position) : Parsed (List Expr × Token) start.size :=
  .noting (if maxArity ≤ count then [⟨start.place, .tooManyArguments⟩] else []) <|
    (assignment false start).andThen fun argument after shorter =>
      match after.accept? (· = .comma) with
      | some (_, ⟨next, consumed⟩) =>
          (argumentList (count + 1) next).map fun (others, paren) =>
            (argument :: others, paren)
      | none =>
          (after.expect .rightParen .argumentsEnd).map fun paren => ([argument], paren)
termination_by 32 * start.size + 19

def primary (start : Position) : Parsed Expr start.size :=
  match start.accept? fun _ => true with
  | none => .stuck (start.complain .expression) [] start (Nat.le_refl _)
  | some (token, ⟨after, shorter⟩) =>
      match token.kind with
      | .falseWord => .done (.literal (.bool false)) [] after shorter
      | .trueWord => .done (.literal (.bool true)) [] after shorter
      | .nilWord => .done (.literal .nil) [] after shorter
      | .number | .string =>
          match token.literal with
          | some value => .done (.literal (.ofLiteral value)) [] after shorter
          | none => .stuck ⟨some token, .expected .expression⟩ [] after (Nat.le_of_lt shorter)
      | .thisWord => .done (.this after.supply.nextExpr token) [] after.skipExprId shorter
      | .superWord =>
          (after.expect .dot .superDot).andThen fun _ afterDot shorter' =>
            (afterDot.expect .identifier .superMethod).andThen fun method last ended =>
              .done (.super last.supply.nextExpr token method) [] last.skipExprId
                (Nat.lt_trans ended (Nat.lt_trans shorter' shorter))
      | .identifier => .done (.var after.supply.nextExpr token) [] after.skipExprId shorter
      | .leftParen =>
          (assignment true after).andThen fun inner last shorter' =>
            (last.expect .rightParen .groupingEnd).map fun _ => .grouping inner
      | _ => .stuck (start.complain .expression) [] start (Nat.le_refl _)
termination_by 32 * start.size
end

def clause (ending : TokenKind) (what : Expected) (start : Position) :
    Parsed (Option Expr) start.size :=
  if start.isAt ending then (start.expect ending what).map fun _ => none
  else
    (assignment true start).andThen fun value after _ =>
      (after.expect ending what).map fun _ => some value

def expressionStatement (start : Position) : Parsed Stmt start.size :=
  (assignment true start).andThen fun value after _ =>
    (after.expect .semicolon .expressionEnd).map fun _ => .expression value

def varDeclaration (start : Position) : Parsed Stmt start.size :=
  (start.expect .identifier .variableName).andThen fun name after shorter =>
    match after.accept? (· = .equal) with
    | some (_, ⟨next, consumed⟩) =>
        (assignment true next).andThen fun value last shorter' =>
          (last.expect .semicolon .variableEnd).map fun _ => .varDecl name (some value)
    | none => (after.expect .semicolon .variableEnd).map fun _ => .varDecl name none

def printStatement (keyword : Token) (start : Position) : Parsed Stmt start.size :=
  (assignment true start).andThen fun value after _ =>
    (after.expect .semicolon .printEnd).map fun _ => .print keyword value

def returnStatement (keyword : Token) (start : Position) : Parsed Stmt start.size :=
  (clause .semicolon .returnEnd start).map fun value => .returnStmt keyword value

def forInitializer (start : Position) : Parsed (Option Stmt) start.size :=
  match start.accept? (· = .semicolon) with
  | some (_, ⟨after, shorter⟩) => .done none [] after shorter
  | none =>
      match start.accept? (· = .varWord) with
      | some (_, ⟨next, consumed⟩) => (varDeclaration next).map some
      | none => (expressionStatement start).map some

def parameterList (count : Nat) (start : Position) : Parsed (List Token) start.size :=
  .noting (if maxArity ≤ count then [⟨start.place, .tooManyParameters⟩] else []) <|
    (start.expect .identifier .parameterName).andThen fun name after shorter =>
      match after.accept? (· = .comma) with
      | some (_, ⟨next, consumed⟩) => (parameterList (count + 1) next).map (name :: ·)
      | none => .done [name] [] after shorter
termination_by start.size

def parameters (start : Position) : Parsed (List Token) start.size :=
  if start.isAt .rightParen then
    (start.expect .rightParen .parametersEnd).map fun _ => []
  else
    (parameterList 0 start).andThen fun names after _ =>
      (after.expect .rightParen .parametersEnd).map fun _ => names

end Parse

end Lox
