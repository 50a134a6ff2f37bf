import Lox.Parse.Expr

/-!
The rules for declarations and statements. A fault stops the declaration in which it stands; reading
goes on at the next place where a statement may begin, so that later faults are found too. A `for`
loop has no tree of its own: it is a `while` loop in a block.
-/

namespace Lox

/-- The kinds that begin a declaration or statement and end the search for one. -/
def TokenKind.beginsStatement (kind : TokenKind) : Bool :=
  kind = .classWord || kind = .funWord || kind = .varWord || kind = .forWord || kind = .ifWord ||
    kind = .whileWord || kind = .printWord || kind = .returnWord

namespace Stmt

def forLoop (initializer : Option Stmt) (condition increment : Option Expr) (body : Stmt) : Stmt :=
  let round :=
    match increment with
    | some step => block [body, expression step]
    | none => body
  let loop := whileLoop (condition.getD (.literal (.bool true))) round
  match initializer with
  | some first => block [first, loop]
  | none => loop

end Stmt

namespace Parse

/-- Drops tokens up to a statement boundary, given that `last` is the token just dropped. -/
def boundaryAfter (last : Token) : List Token → List Token
  | [] => []
  | token :: rest =>
      if last.kind = .semicolon ∨ token.kind.beginsStatement then token :: rest
      else boundaryAfter token rest

def boundary : List Token → List Token
  | [] => []
  | token :: rest => boundaryAfter token rest

theorem length_boundaryAfter_le (last : Token) (tokens : List Token) :
    (boundaryAfter last tokens).length ≤ tokens.length := by
  induction tokens generalizing last with
  | nil => simp [boundaryAfter]
  | cons token rest ih =>
      simp only [boundaryAfter]
      split
      · exact Nat.le_refl _
      · exact Nat.le_trans (ih token) (Nat.le_succ _)

theorem length_boundary_lt {tokens : List Token} {bound : Nat} (fits : tokens.length ≤ bound)
    (positive : 0 < bound) : (boundary tokens).length < bound := by
  cases tokens with
  | nil => simpa [boundary] using positive
  | cons token rest =>
      have := length_boundaryAfter_le token rest
      simp only [boundary, List.length_cons] at fits ⊢
      omega

/-- A declaration that was read, or left out with its fault noted. -/
structure Recovered (bound : Nat) where
  stmt : Option Stmt
  notes : List Complaint
  after : Position
  shorter : after.size < bound

def recover {bound : Nat} (parsed : Parsed Stmt bound) (positive : 0 < bound) :
    Recovered bound :=
  match parsed with
  | .done stmt notes after shorter => ⟨some stmt, notes, after, shorter⟩
  | .stuck cause notes after fits =>
      ⟨none, notes ++ [cause], ⟨boundary after.rest, after.supply⟩,
        length_boundary_lt fits positive⟩

mutual
def declaration (start : Position) : Parsed Stmt start.size :=
  match start.accept? (· = .classWord) with
  | some (_, ⟨next, consumed⟩) => (classDeclaration next).within
  | none =>
      match start.accept? (· = .funWord) with
      | some (_, ⟨next, consumed⟩) => (function .function next).map .functionDecl
      | none =>
          match start.accept? (· = .varWord) with
          | some (_, ⟨next, consumed⟩) => (varDeclaration next).within
          | none => statement start
termination_by 8 * start.size + 2

def classDeclaration (start : Position) : Parsed Stmt start.size :=
  (start.expect .identifier .className).andThen fun name afterName shorter =>
    match afterName.accept? (· = .less) with
    | some (_, ⟨next, consumed⟩) =>
        (next.expect .identifier .superclassName).andThen fun parent after shorter' =>
          have : after.skipExprId.size = after.size := rfl
          let superclass := .var after.supply.nextExpr parent
          (after.skipExprId.expect .leftBrace .classStart).andThen fun _ inside opened =>
            (methods inside).map fun found => .classDecl name (some superclass) found
    | none =>
        (afterName.expect .leftBrace .classStart).andThen fun _ inside opened =>
          (methods inside).map fun found => .classDecl name none found
termination_by 8 * start.size

def methods (start : Position) : Parsed (List FunctionDecl) start.size :=
  if start.isAt .rightBrace ∨ start.rest = [] then
    (start.expect .rightBrace .classEnd).map fun _ => []
  else
    (function .method start).andThen fun first after shorter =>
      (methods after).map (first :: ·)
termination_by 8 * start.size + 1

/-- Name, parameters and body. The identity is given out when the whole function is read. -/
def function (kind : FunctionKind) (start : Position) : Parsed FunctionDecl start.size :=
  (start.expect .identifier (.functionName kind)).andThen fun name afterName shorter =>
    (afterName.expect .leftParen (.parametersStart kind)).andThen fun _ inParens opened =>
      (parameters inParens).andThen fun params afterParams closed =>
        (afterParams.expect .leftBrace (.bodyStart kind)).andThen fun _ inside entered =>
          (block inside).andThen fun body after ended =>
            have opened := Nat.lt_trans opened shorter
            have entered := Nat.lt_trans entered (Nat.lt_trans closed opened)
            .done ⟨after.supply.nextDecl, name, params, body⟩ [] after.skipDeclId
              (Nat.lt_trans ended entered)
termination_by 8 * start.size

def block (start : Position) : Parsed (List Stmt) start.size :=
  if ended : start.isAt .rightBrace ∨ start.rest = [] then
    (start.expect .rightBrace .blockEnd).map fun _ => []
  else
    match recover (declaration start) (List.length_pos_iff.mpr (mt Or.inr ended)) with
    | ⟨stmt, notes, after, shorter⟩ =>
        .noting notes ((block after).map (stmt.toList ++ ·))
termination_by 8 * start.size + 3

def statement (start : Position) : Parsed Stmt start.size :=
  match start.accept? fun _ => true with
  | none => (expressionStatement start).within
  | some (token, ⟨next, consumed⟩) =>
      match token.kind with
      | .forWord => (forStatement next).within
      | .ifWord => (ifStatement next).within
      | .printWord => (printStatement token next).within
      | .returnWord => (returnStatement token next).within
      | .whileWord => (whileStatement next).within
      | .leftBrace => (block next).map .block
      | _ => expressionStatement start
termination_by 8 * start.size + 1

def forStatement (start : Position) : Parsed Stmt start.size :=
  (start.expect .leftParen .forStart).andThen fun _ inParens opened =>
    (forInitializer inParens).andThen fun initializer atCondition shorter =>
      (clause .semicolon .forConditionEnd atCondition).andThen fun condition atIncrement shorter' =>
        (clause .rightParen .forEnd atIncrement).andThen fun increment atBody closed =>
          (statement atBody).map fun body => .forLoop initializer condition increment body
termination_by 8 * start.size

def ifStatement (start : Position) : Parsed Stmt start.size :=
  (start.expect .leftParen .ifStart).andThen fun _ inParens opened =>
    (assignment true inParens).andThen fun condition afterCondition shorter =>
      (afterCondition.expect .rightParen .ifEnd).andThen fun _ atThen closed =>
        (statement atThen).andThen fun thenBranch after shorter' =>
          match after.accept? (· = .elseWord) with
          | some (_, ⟨next, consumed⟩) =>
              (statement next).map fun elseBranch => .ifElse condition thenBranch elseBranch
          | none =>
              have closed := Nat.lt_trans closed (Nat.lt_trans shorter opened)
              .done (.ifThen condition thenBranch) [] after (Nat.lt_trans shorter' closed)
termination_by 8 * start.size

def whileStatement (start : Position) : Parsed Stmt start.size :=
  (start.expect .leftParen .whileStart).andThen fun _ inParens opened =>
    (assignment true inParens).andThen fun condition afterCondition shorter =>
      (afterCondition.expect .rightParen .whileEnd).andThen fun _ atBody closed =>
        (statement atBody).map fun body => .whileLoop condition body
termination_by 8 * start.size
end

end Parse

end Lox
