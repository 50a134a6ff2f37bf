import Lox.Proofs.Parse.Sound

/-!
The calls of the parser. A rule stands at a position, calls other rules one after the other and leaves
off at a position; the loops of the parser are rules that call themselves for the next round. Each call
begins where the one before it has left off, or behind a token that was read there, and each has less to
go than the rule that calls it.
-/

namespace Lox

namespace Parsed

variable {α β : Type} {bound small : Nat}

def after : Parsed α bound → Position
  | done _ _ after _ | stuck _ _ after _ => after

def following {γ : Type} (parsed : Parsed α bound) (next : α → Position → List γ) : List γ :=
  match parsed with
  | done value _ after _ => next value after
  | stuck _ _ _ _ => []

@[simp] theorem after_noting (parsed : Parsed α bound) (earlier : List Complaint) :
    (parsed.noting earlier).after = parsed.after := by cases parsed <;> rfl

@[simp] theorem after_within (parsed : Parsed α small) (weaker : small ≤ bound) :
    (parsed.within weaker).after = parsed.after := by cases parsed <;> rfl

@[simp] theorem after_map (parsed : Parsed α small) (change : α → β) (weaker : small ≤ bound) :
    (parsed.map change weaker).after = parsed.after := by cases parsed <;> rfl

end Parsed

namespace Parse

inductive Rule
  | expect (kind : TokenKind) (what : Expected)
  | assignment (comma : Bool)
  | conditional (comma : Bool)
  | chain (level : Level)
  | chainTail (level : Level) (left : Expr)
  | operand (level : Level)
  | unary
  | callTail (callee : Expr)
  | arguments
  | argumentList (count : Nat)
  | primary
  | clause (ending : TokenKind) (what : Expected)
  | expressionStatement
  | varDeclaration
  | printStatement (keyword : Token)
  | returnStatement (keyword : Token)
  | forInitializer
  | parameterList (count : Nat)
  | parameters
  | declaration
  | classDeclaration
  | methods
  | function (kind : FunctionKind)
  | block
  | statement
  | forStatement
  | ifStatement
  | whileStatement
  | recovered
  | boundary
  | boundaryAfter (last : Token)
  | declarations
  | lone

/-- Orders the rules that call each other before any token is read. -/
def Rule.rank : Rule → Nat
  | .expect _ _ | .boundary | .boundaryAfter _ => 0
  | .primary | .chainTail _ _ | .callTail _ | .varDeclaration | .parameterList _ | .function _
  | .classDeclaration | .forStatement | .ifStatement | .whileStatement => 1
  | .unary | .parameters | .methods => 2
  | .operand level => 2 * level.rank + 2
  | .chain level => 2 * level.rank + 3
  | .conditional _ => 18
  | .assignment _ => 19
  | .argumentList _ | .clause _ _ | .expressionStatement | .printStatement _ | .lone => 20
  | .arguments | .returnStatement _ | .forInitializer => 21
  | .statement => 22
  | .declaration => 23
  | .recovered => 24
  | .block | .declarations => 25

structure Call where
  rule : Rule
  start : Position

namespace Call

def after : Call → Position
  | ⟨.expect kind what, start⟩ => (start.expect kind what).after
  | ⟨.assignment comma, start⟩ => (assignment comma start).after
  | ⟨.conditional comma, start⟩ => (conditional comma start).after
  | ⟨.chain level, start⟩ => (chain level start).after
  | ⟨.chainTail level left, start⟩ => (chainTail level left start).after
  | ⟨.operand level, start⟩ => (operand level start).after
  | ⟨.unary, start⟩ => (unary start).after
  | ⟨.callTail callee, start⟩ => (callTail callee start).after
  | ⟨.arguments, start⟩ => (arguments start).after
  | ⟨.argumentList count, start⟩ => (argumentList count start).after
  | ⟨.primary, start⟩ => (primary start).after
  | ⟨.clause ending what, start⟩ => (clause ending what start).after
  | ⟨.expressionStatement, start⟩ => (expressionStatement start).after
  | ⟨.varDeclaration, start⟩ => (varDeclaration start).after
  | ⟨.printStatement keyword, start⟩ => (printStatement keyword start).after
  | ⟨.returnStatement keyword, start⟩ => (returnStatement keyword start).after
  | ⟨.forInitializer, start⟩ => (forInitializer start).after
  | ⟨.parameterList count, start⟩ => (parameterList count start).after
  | ⟨.parameters, start⟩ => (parameters start).after
  | ⟨.declaration, start⟩ => (declaration start).after
  | ⟨.classDeclaration, start⟩ => (classDeclaration start).after
  | ⟨.methods, start⟩ => (methods start).after
  | ⟨.function kind, start⟩ => (function kind start).after
  | ⟨.block, start⟩ => (block start).after
  | ⟨.statement, start⟩ => (statement start).after
  | ⟨.forStatement, start⟩ => (forStatement start).after
  | ⟨.ifStatement, start⟩ => (ifStatement start).after
  | ⟨.whileStatement, start⟩ => (whileStatement start).after
  | ⟨.recovered, start⟩ =>
      match declaration start with
      | .done _ _ after _ => after
      | .stuck _ _ after _ => ⟨Parse.boundary after.rest, after.supply⟩
  | ⟨.boundary, start⟩ => ⟨Parse.boundary start.rest, start.supply⟩
  | ⟨.boundaryAfter last, start⟩ => ⟨Parse.boundaryAfter last start.rest, start.supply⟩
  | ⟨.declarations, start⟩ => ⟨[], (declarations start).2.2⟩
  | ⟨.lone, start⟩ => (assignment true start).after

@[simp] def calls : Call → List Call
  | ⟨.expect _ _, _⟩ => []
  | ⟨.assignment comma, start⟩ =>
      ⟨.conditional comma, start⟩ :: (conditional comma start).following fun _ after =>
        match after.accept? (· = .equal) with
        | none => []
        | some (_, ⟨next, _⟩) => [⟨.assignment comma, next⟩]
  | ⟨.conditional comma, start⟩ =>
      ⟨.chain (.loosest comma), start⟩ ::
        (chain (.loosest comma) start).following fun _ after =>
          match after.accept? (· = .question) with
          | none => []
          | some (_, ⟨next, _⟩) =>
              ⟨.assignment true, next⟩ :: (assignment true next).following fun _ atColon =>
                ⟨.expect .colon .colon, atColon⟩ ::
                  (atColon.expect .colon .colon).following fun _ afterColon =>
                    [⟨.conditional comma, afterColon⟩]
  | ⟨.chain level, start⟩ =>
      ⟨.operand level, start⟩ :: (operand level start).following fun first after =>
        [⟨.chainTail level first, after⟩]
  | ⟨.chainTail level left, start⟩ =>
      match start.accept? level.accepts with
      | none => []
      | some (operator, ⟨next, _⟩) =>
          ⟨.operand level, next⟩ :: (operand level next).following fun right after =>
            [⟨.chainTail level (level.combine left operator right), after⟩]
  | ⟨.operand level, start⟩ =>
      match level.tighter with
      | some next => [⟨.chain next, start⟩]
      | none => [⟨.unary, start⟩]
  | ⟨.unary, start⟩ =>
      match start.accept? fun kind => kind = .bang || kind = .minus with
      | some (_, ⟨next, _⟩) => [⟨.unary, next⟩]
      | none =>
          ⟨.primary, start⟩ :: (primary start).following fun callee after =>
            [⟨.callTail callee, after⟩]
  | ⟨.callTail callee, start⟩ =>
      match start.accept? (· = .leftParen) with
      | some (_, ⟨next, _⟩) =>
          ⟨.arguments, next⟩ :: (arguments next).following fun (found, paren) after =>
            [⟨.callTail (.call callee paren found), after⟩]
      | none =>
          match start.accept? (· = .dot) with
          | some (_, ⟨next, _⟩) =>
              ⟨.expect .identifier .propertyName, next⟩ ::
                (next.expect .identifier .propertyName).following fun name after =>
                  [⟨.callTail (.get callee name), after⟩]
          | none => []
  | ⟨.arguments, start⟩ =>
      match start.accept? (· = .rightParen) with
      | some _ => []
      | none => [⟨.argumentList 0, start⟩]
  | ⟨.argumentList count, start⟩ =>
      ⟨.assignment false, start⟩ :: (assignment false start).following fun _ after =>
        match after.accept? (· = .comma) with
        | some (_, ⟨next, _⟩) => [⟨.argumentList (count + 1), next⟩]
        | none => [⟨.expect .rightParen .argumentsEnd, after⟩]
  | ⟨.primary, start⟩ =>
      match start.accept? fun _ => true with
      | none => []
      | some (token, ⟨after, _⟩) =>
          match token.kind with
          | .superWord =>
              ⟨.expect .dot .superDot, after⟩ ::
                (after.expect .dot .superDot).following fun _ afterDot =>
                  [⟨.expect .identifier .superMethod, afterDot⟩]
          | .leftParen =>
              ⟨.assignment true, after⟩ :: (assignment true after).following fun _ last =>
                [⟨.expect .rightParen .groupingEnd, last⟩]
          | _ => []
  | ⟨.clause ending what, start⟩ =>
      if start.isAt ending then [⟨.expect ending what, start⟩]
      else
        ⟨.assignment true, start⟩ :: (assignment true start).following fun _ after =>
          [⟨.expect ending what, after⟩]
  | ⟨.expressionStatement, start⟩ =>
      ⟨.assignment true, start⟩ :: (assignment true start).following fun _ after =>
        [⟨.expect .semicolon .expressionEnd, after⟩]
  | ⟨.varDeclaration, start⟩ =>
      ⟨.expect .identifier .variableName, start⟩ ::
        (start.expect .identifier .variableName).following fun _ after =>
          match after.accept? (· = .equal) with
          | some (_, ⟨next, _⟩) =>
              ⟨.assignment true, next⟩ :: (assignment true next).following fun _ last =>
                [⟨.expect .semicolon .variableEnd, last⟩]
          | none => [⟨.expect .semicolon .variableEnd, after⟩]
  | ⟨.printStatement _, start⟩ =>
      ⟨.assignment true, start⟩ :: (assignment true start).following fun _ after =>
        [⟨.expect .semicolon .printEnd, after⟩]
  | ⟨.returnStatement _, start⟩ => [⟨.clause .semicolon .returnEnd, start⟩]
  | ⟨.forInitializer, start⟩ =>
      match start.accept? (· = .semicolon) with
      | some _ => []
      | none =>
          match start.accept? (· = .varWord) with
          | some (_, ⟨next, _⟩) => [⟨.varDeclaration, next⟩]
          | none => [⟨.expressionStatement, start⟩]
  | ⟨.parameterList count, start⟩ =>
      ⟨.expect .identifier .parameterName, start⟩ ::
        (start.expect .identifier .parameterName).following fun _ after =>
          match after.accept? (· = .comma) with
          | some (_, ⟨next, _⟩) => [⟨.parameterList (count + 1), next⟩]
          | none => []
  | ⟨.parameters, start⟩ =>
      if start.isAt .rightParen then [⟨.expect .rightParen .parametersEnd, start⟩]
      else
        ⟨.parameterList 0, start⟩ :: (parameterList 0 start).following fun _ after =>
          [⟨.expect .rightParen .parametersEnd, after⟩]
  | ⟨.declaration, start⟩ =>
      match start.accept? (· = .classWord) with
      | some (_, ⟨next, _⟩) => [⟨.classDeclaration, next⟩]
      | none =>
          match start.accept? (· = .funWord) with
          | some (_, ⟨next, _⟩) => [⟨.function .function, next⟩]
          | none =>
              match start.accept? (· = .varWord) with
              | some (_, ⟨next, _⟩) => [⟨.varDeclaration, next⟩]
              | none => [⟨.statement, start⟩]
  | ⟨.classDeclaration, start⟩ =>
      ⟨.expect .identifier .className, start⟩ ::
        (start.expect .identifier .className).following fun _ afterName =>
          match afterName.accept? (· = .less) with
          | some (_, ⟨next, _⟩) =>
              ⟨.expect .identifier .superclassName, next⟩ ::
                (next.expect .identifier .superclassName).following fun _ after =>
                  ⟨.expect .leftBrace .classStart, after.skipExprId⟩ ::
                    (after.skipExprId.expect .leftBrace .classStart).following fun _ inside =>
                      [⟨.methods, inside⟩]
          | none =>
              ⟨.expect .leftBrace .classStart, afterName⟩ ::
                (afterName.expect .leftBrace .classStart).following fun _ inside =>
                  [⟨.methods, inside⟩]
  | ⟨.methods, start⟩ =>
      if start.isAt .rightBrace ∨ start.rest = [] then [⟨.expect .rightBrace .classEnd, start⟩]
      else
        ⟨.function .method, start⟩ :: (function .method start).following fun _ after =>
          [⟨.methods, after⟩]
  | ⟨.function kind, start⟩ =>
      ⟨.expect .identifier (.functionName kind), start⟩ ::
        (start.expect .identifier (.functionName kind)).following fun _ afterName =>
          ⟨.expect .leftParen (.parametersStart kind), afterName⟩ ::
            (afterName.expect .leftParen (.parametersStart kind)).following fun _ inParens =>
              ⟨.parameters, inParens⟩ :: (parameters inParens).following fun _ afterParams =>
                ⟨.expect .leftBrace (.bodyStart kind), afterParams⟩ ::
                  (afterParams.expect .leftBrace (.bodyStart kind)).following fun _ inside =>
                    [⟨.block, inside⟩]
  | ⟨.block, start⟩ =>
      if start.isAt .rightBrace ∨ start.rest = [] then [⟨.expect .rightBrace .blockEnd, start⟩]
      else [⟨.recovered, start⟩, ⟨.block, after ⟨.recovered, start⟩⟩]
  | ⟨.statement, start⟩ =>
      match start.accept? fun _ => true with
      | none => [⟨.expressionStatement, start⟩]
      | some (token, ⟨next, _⟩) =>
          match token.kind with
          | .forWord => [⟨.forStatement, next⟩]
          | .ifWord => [⟨.ifStatement, next⟩]
          | .printWord => [⟨.printStatement token, next⟩]
          | .returnWord => [⟨.returnStatement token, next⟩]
          | .whileWord => [⟨.whileStatement, next⟩]
          | .leftBrace => [⟨.block, next⟩]
          | _ => [⟨.expressionStatement, start⟩]
  | ⟨.forStatement, start⟩ =>
      ⟨.expect .leftParen .forStart, start⟩ ::
        (start.expect .leftParen .forStart).following fun _ inParens =>
          ⟨.forInitializer, inParens⟩ :: (forInitializer inParens).following fun _ atCondition =>
            ⟨.clause .semicolon .forConditionEnd, atCondition⟩ ::
              (clause .semicolon .forConditionEnd atCondition).following fun _ atIncrement =>
                ⟨.clause .rightParen .forEnd, atIncrement⟩ ::
                  (clause .rightParen .forEnd atIncrement).following fun _ atBody =>
                    [⟨.statement, atBody⟩]
  | ⟨.ifStatement, start⟩ =>
      ⟨.expect .leftParen .ifStart, start⟩ ::
        (start.expect .leftParen .ifStart).following fun _ inParens =>
          ⟨.assignment true, inParens⟩ ::
            (assignment true inParens).following fun _ afterCondition =>
              ⟨.expect .rightParen .ifEnd, afterCondition⟩ ::
                (afterCondition.expect .rightParen .ifEnd).following fun _ atThen =>
                  ⟨.statement, atThen⟩ :: (statement atThen).following fun _ after =>
                    match after.accept? (· = .elseWord) with
                    | some (_, ⟨next, _⟩) => [⟨.statement, next⟩]
                    | none => []
  | ⟨.whileStatement, start⟩ =>
      ⟨.expect .leftParen .whileStart, start⟩ ::
        (start.expect .leftParen .whileStart).following fun _ inParens =>
          ⟨.assignment true, inParens⟩ ::
            (assignment true inParens).following fun _ afterCondition =>
              ⟨.expect .rightParen .whileEnd, afterCondition⟩ ::
                (afterCondition.expect .rightParen .whileEnd).following fun _ atBody =>
                  [⟨.statement, atBody⟩]
  | ⟨.recovered, start⟩ =>
      ⟨.declaration, start⟩ ::
        match declaration start with
        | .done _ _ _ _ => []
        | .stuck _ _ after _ => [⟨.boundary, after⟩]
  | ⟨.boundary, ⟨[], _⟩⟩ => []
  | ⟨.boundary, ⟨token :: rest, supply⟩⟩ => [⟨.boundaryAfter token, ⟨rest, supply⟩⟩]
  | ⟨.boundaryAfter _, ⟨[], _⟩⟩ => []
  | ⟨.boundaryAfter last, ⟨token :: rest, supply⟩⟩ =>
      if last.kind = .semicolon ∨ token.kind.beginsStatement then []
      else [⟨.boundaryAfter token, ⟨rest, supply⟩⟩]
  | ⟨.declarations, start⟩ =>
      if start.rest = [] then []
      else [⟨.recovered, start⟩, ⟨.declarations, after ⟨.recovered, start⟩⟩]
  | ⟨.lone, start⟩ => [⟨.assignment true, start⟩]

def weight (call : Call) : Nat := 32 * call.start.size + call.rule.rank

def Orderly (bound : Nat) (last : Position) : Position → List Call → Prop
  | present, [] => last.rest <:+ present.rest
  | present, call :: later =>
      call.start.rest <:+ present.rest ∧ call.weight < bound ∧ Orderly bound last call.after later

theorem rank_lt (rule : Rule) : rule.rank < 32 := by
  cases rule with
  | operand level | chain level =>
      have bounded := level.rank_le
      simp only [Rule.rank]
      omega
  | _ => simp [Rule.rank]

theorem weight_of_shorter {call other : Call} (shorter : call.start.size < other.start.size) :
    call.weight < other.weight := by
  have bounded := rank_lt call.rule
  unfold weight
  omega

theorem weight_of_rank {rule other : Rule} {start : Position} (lower : rule.rank < other.rank) :
    weight ⟨rule, start⟩ < weight ⟨other, start⟩ := Nat.add_lt_add_left lower _

end Call

end Parse

theorem Position.suffix_of_accept? {position after : Position} {accepted : TokenKind → Bool}
    {token : Token} {shorter : after.size < position.size}
    (found : position.accept? accepted = some (token, ⟨after, shorter⟩)) :
    after.rest <:+ position.rest := by
  rw [(accept?_eq_some found).1]
  exact List.suffix_cons token after.rest

namespace Parse.Call.Orderly

variable {α β : Type} {bound small size : Nat} {present : Position} {parsed : Parsed α small}
  {next : (value : α) → (after : Position) → after.size < small → Parsed β size}
  {weaker : small ≤ size}

theorem single (call : Call) (ahead : call.start.rest <:+ present.rest)
    (lighter : call.weight < bound) : Orderly bound call.after present [call] :=
  ⟨ahead, lighter, List.suffix_refl _⟩

theorem andThen (call : Call) (same : parsed.after = call.after)
    (ahead : call.start.rest <:+ present.rest) (lighter : call.weight < bound)
    {calls : α → Position → List Call}
    (continued : ∀ value after shorter,
      Orderly bound (next value after shorter).after after (calls value after)) :
    Orderly bound (parsed.andThen next weaker).after present
      (call :: parsed.following calls) := by
  refine ⟨ahead, lighter, ?_⟩
  rw [← same]
  cases parsed with
  | done value notes after shorter =>
      simp only [Parsed.andThen, Parsed.after_noting]
      exact continued value after shorter
  | stuck cause notes after fits => exact List.suffix_refl _

theorem andDone (call : Call) (same : parsed.after = call.after)
    (ahead : call.start.rest <:+ present.rest) (lighter : call.weight < bound)
    (ended : ∀ value after shorter, (next value after shorter).after.rest = after.rest) :
    Orderly bound (parsed.andThen next weaker).after present [call] := by
  refine ⟨ahead, lighter, ?_⟩
  rw [← same]
  cases parsed with
  | done value notes after shorter =>
      simp only [Parsed.andThen, Parsed.after_noting]
      rw [Orderly, ended]
      exact List.suffix_rfl
  | stuck cause notes after fits => exact List.suffix_refl _

end Parse.Call.Orderly

namespace Parse

open Call

section Expressions

variable (start : Position)

theorem orderly_assignment (comma : Bool) :
    Orderly (weight ⟨.assignment comma, start⟩) (assignment comma start).after start
      (calls ⟨.assignment comma, start⟩) := by
  rw [assignment, calls]
  refine .andThen ⟨.conditional comma, start⟩ rfl List.suffix_rfl
    (weight_of_rank (by simp [Rule.rank])) fun target after shorter => ?_
  cases found : after.accept? (· = .equal) with
  | none => exact List.suffix_rfl
  | some read =>
      obtain ⟨equals, next, consumed⟩ := read
      refine .andDone ⟨.assignment comma, next⟩ rfl (Position.suffix_of_accept? found)
        (weight_of_shorter (consumed.trans shorter)) fun value last ended => ?_
      cases target.assigned? value <;> rfl

theorem orderly_conditional (comma : Bool) :
    Orderly (weight ⟨.conditional comma, start⟩) (conditional comma start).after start
      (calls ⟨.conditional comma, start⟩) := by
  rw [conditional, calls]
  have lower : (Rule.chain (.loosest comma)).rank < (Rule.conditional comma).rank := by
    cases comma <;> decide
  refine .andThen ⟨.chain (.loosest comma), start⟩ rfl List.suffix_rfl (weight_of_rank lower)
    fun condition after shorter => ?_
  cases found : after.accept? (· = .question) with
  | none => exact List.suffix_rfl
  | some read =>
      obtain ⟨question, next, consumed⟩ := read
      have behind := consumed.trans shorter
      refine .andThen ⟨.assignment true, next⟩ rfl (Position.suffix_of_accept? found)
        (weight_of_shorter behind) fun thenBranch atColon shorter' => ?_
      have behind := shorter'.trans behind
      refine .andThen ⟨.expect .colon .colon, atColon⟩ rfl List.suffix_rfl
        (weight_of_shorter behind) fun _ afterColon shorter'' => ?_
      rw [Parsed.after_map]
      exact .single ⟨.conditional comma, afterColon⟩ List.suffix_rfl
        (weight_of_shorter (shorter''.trans behind))

theorem orderly_chain (level : Level) :
    Orderly (weight ⟨.chain level, start⟩) (chain level start).after start
      (calls ⟨.chain level, start⟩) := by
  rw [chain, calls]
  refine .andThen ⟨.operand level, start⟩ rfl List.suffix_rfl
    (weight_of_rank (by simp [Rule.rank])) fun first after shorter => ?_
  rw [Parsed.after_within]
  exact .single ⟨.chainTail level first, after⟩ List.suffix_rfl (weight_of_shorter shorter)

theorem orderly_chainTail (level : Level) (left : Expr) :
    Orderly (weight ⟨.chainTail level left, start⟩) (chainTail level left start).after start
      (calls ⟨.chainTail level left, start⟩) := by
  rw [chainTail, calls]
  cases found : start.accept? level.accepts with
  | none => exact List.suffix_rfl
  | some read =>
      obtain ⟨operator, next, consumed⟩ := read
      refine .andThen ⟨.operand level, next⟩ rfl (Position.suffix_of_accept? found)
        (weight_of_shorter consumed) fun right after shorter => ?_
      rw [Parsed.after_within]
      exact .single ⟨.chainTail level _, after⟩ List.suffix_rfl
        (weight_of_shorter (shorter.trans consumed))

theorem orderly_operand (level : Level) :
    Orderly (weight ⟨.operand level, start⟩) (operand level start).after start
      (calls ⟨.operand level, start⟩) := by
  rw [operand]
  split
  · rename_i next found
    have tighter := Level.rank_tighter found
    simp only [calls, found]
    refine .single ⟨.chain next, start⟩ List.suffix_rfl (weight_of_rank ?_)
    simp only [Rule.rank]
    omega
  · rename_i found
    have positive := level.rank_pos
    simp only [calls, found]
    refine .single ⟨.unary, start⟩ List.suffix_rfl (weight_of_rank ?_)
    simp only [Rule.rank]
    omega

theorem orderly_unary :
    Orderly (weight ⟨.unary, start⟩) (unary start).after start (calls ⟨.unary, start⟩) := by
  rw [unary, calls]
  cases found : start.accept? fun kind => kind = .bang || kind = .minus with
  | none =>
      refine .andThen ⟨.primary, start⟩ rfl List.suffix_rfl (weight_of_rank (by decide))
        fun callee after shorter => ?_
      rw [Parsed.after_within]
      exact .single ⟨.callTail callee, after⟩ List.suffix_rfl (weight_of_shorter shorter)
  | some read =>
      obtain ⟨operator, next, consumed⟩ := read
      dsimp only
      rw [Parsed.after_map]
      exact .single ⟨.unary, next⟩ (Position.suffix_of_accept? found) (weight_of_shorter consumed)

theorem orderly_callTail (callee : Expr) :
    Orderly (weight ⟨.callTail callee, start⟩) (callTail callee start).after start
      (calls ⟨.callTail callee, start⟩) := by
  rw [callTail, calls]
  cases found : start.accept? (· = .leftParen) with
  | some read =>
      obtain ⟨opening, next, consumed⟩ := read
      refine .andThen ⟨.arguments, next⟩ rfl (Position.suffix_of_accept? found)
        (weight_of_shorter consumed) fun (exprs, paren) after shorter => ?_
      rw [Parsed.after_within]
      exact .single ⟨.callTail _, after⟩ List.suffix_rfl
        (weight_of_shorter (shorter.trans consumed))
  | none =>
      dsimp only
      cases found : start.accept? (· = .dot) with
      | some read =>
          obtain ⟨dot, next, consumed⟩ := read
          refine .andThen ⟨.expect .identifier .propertyName, next⟩ rfl
            (Position.suffix_of_accept? found) (weight_of_shorter consumed)
            fun name after shorter => ?_
          rw [Parsed.after_within]
          exact .single ⟨.callTail _, after⟩ List.suffix_rfl
            (weight_of_shorter (shorter.trans consumed))
      | none => exact List.suffix_rfl

theorem orderly_arguments :
    Orderly (weight ⟨.arguments, start⟩) (arguments start).after start
      (calls ⟨.arguments, start⟩) := by
  rw [arguments, calls]
  cases found : start.accept? (· = .rightParen) with
  | some read => exact Position.suffix_of_accept? found
  | none => exact .single ⟨.argumentList 0, start⟩ List.suffix_rfl (weight_of_rank (by decide))

theorem orderly_argumentList (count : Nat) :
    Orderly (weight ⟨.argumentList count, start⟩) (argumentList count start).after start
      (calls ⟨.argumentList count, start⟩) := by
  rw [argumentList, calls, Parsed.after_noting]
  refine .andThen ⟨.assignment false, start⟩ rfl List.suffix_rfl
    (weight_of_rank (by simp [Rule.rank])) fun argument after shorter => ?_
  cases found : after.accept? (· = .comma) with
  | some read =>
      obtain ⟨comma, next, consumed⟩ := read
      dsimp only
      rw [Parsed.after_map]
      exact .single ⟨.argumentList (count + 1), next⟩ (Position.suffix_of_accept? found)
        (weight_of_shorter (consumed.trans shorter))
  | none =>
      dsimp only
      rw [Parsed.after_map]
      exact .single ⟨.expect .rightParen .argumentsEnd, after⟩ List.suffix_rfl
        (weight_of_shorter shorter)

theorem orderly_primary :
    Orderly (weight ⟨.primary, start⟩) (primary start).after start (calls ⟨.primary, start⟩) := by
  rw [primary, calls]
  cases found : start.accept? fun _ => true with
  | none => exact List.suffix_rfl
  | some read =>
      obtain ⟨token, after, shorter⟩ := read
      have ahead := Position.suffix_of_accept? found
      dsimp only
      cases token.kind with
      | superWord =>
          refine .andThen ⟨.expect .dot .superDot, after⟩ rfl ahead (weight_of_shorter shorter)
            fun _ afterDot shorter' => ?_
          refine .andDone ⟨.expect .identifier .superMethod, afterDot⟩ rfl List.suffix_rfl
            (weight_of_shorter (shorter'.trans shorter)) fun _ _ _ => rfl
      | leftParen =>
          refine .andThen ⟨.assignment true, after⟩ rfl ahead (weight_of_shorter shorter)
            fun inner last shorter' => ?_
          rw [Parsed.after_map]
          exact .single ⟨.expect .rightParen .groupingEnd, last⟩ List.suffix_rfl
            (weight_of_shorter (shorter'.trans shorter))
      | number | string =>
          cases token.literal <;> exact ahead
      | falseWord | trueWord | nilWord | thisWord | identifier => exact ahead
      | _ => exact List.suffix_rfl

end Expressions

section Statements

variable (start : Position)

theorem orderly_clause (ending : TokenKind) (what : Expected) :
    Orderly (weight ⟨.clause ending what, start⟩) (clause ending what start).after start
      (calls ⟨.clause ending what, start⟩) := by
  rw [clause, calls]
  split
  · rw [Parsed.after_map]
    exact .single ⟨.expect ending what, start⟩ List.suffix_rfl
      (weight_of_rank (by simp [Rule.rank]))
  · refine .andThen ⟨.assignment true, start⟩ rfl List.suffix_rfl
      (weight_of_rank (by simp [Rule.rank])) fun value after shorter => ?_
    rw [Parsed.after_map]
    exact .single ⟨.expect ending what, after⟩ List.suffix_rfl (weight_of_shorter shorter)

theorem orderly_expressionStatement :
    Orderly (weight ⟨.expressionStatement, start⟩) (expressionStatement start).after start
      (calls ⟨.expressionStatement, start⟩) := by
  rw [expressionStatement, calls]
  refine .andThen ⟨.assignment true, start⟩ rfl List.suffix_rfl (weight_of_rank (by decide))
    fun value after shorter => ?_
  rw [Parsed.after_map]
  exact .single ⟨.expect .semicolon .expressionEnd, after⟩ List.suffix_rfl
    (weight_of_shorter shorter)

theorem orderly_varDeclaration :
    Orderly (weight ⟨.varDeclaration, start⟩) (varDeclaration start).after start
      (calls ⟨.varDeclaration, start⟩) := by
  rw [varDeclaration, calls]
  refine .andThen ⟨.expect .identifier .variableName, start⟩ rfl List.suffix_rfl
    (weight_of_rank (by decide)) fun name after shorter => ?_
  cases found : after.accept? (· = .equal) with
  | some read =>
      obtain ⟨equals, next, consumed⟩ := read
      have behind := consumed.trans shorter
      refine .andThen ⟨.assignment true, next⟩ rfl (Position.suffix_of_accept? found)
        (weight_of_shorter behind) fun value last shorter' => ?_
      rw [Parsed.after_map]
      exact .single ⟨.expect .semicolon .variableEnd, last⟩ List.suffix_rfl
        (weight_of_shorter (shorter'.trans behind))
  | none =>
      dsimp only
      rw [Parsed.after_map]
      exact .single ⟨.expect .semicolon .variableEnd, after⟩ List.suffix_rfl
        (weight_of_shorter shorter)

theorem orderly_printStatement (keyword : Token) :
    Orderly (weight ⟨.printStatement keyword, start⟩) (printStatement keyword start).after start
      (calls ⟨.printStatement keyword, start⟩) := by
  rw [printStatement, calls]
  refine .andThen ⟨.assignment true, start⟩ rfl List.suffix_rfl
    (weight_of_rank (by simp [Rule.rank])) fun value after shorter => ?_
  rw [Parsed.after_map]
  exact .single ⟨.expect .semicolon .printEnd, after⟩ List.suffix_rfl (weight_of_shorter shorter)

theorem orderly_forInitializer :
    Orderly (weight ⟨.forInitializer, start⟩) (forInitializer start).after start
      (calls ⟨.forInitializer, start⟩) := by
  rw [forInitializer, calls]
  cases found : start.accept? (· = .semicolon) with
  | some read => exact Position.suffix_of_accept? found
  | none =>
      dsimp only
      cases found : start.accept? (· = .varWord) with
      | some read =>
          obtain ⟨keyword, next, consumed⟩ := read
          dsimp only
          rw [Parsed.after_map]
          exact .single ⟨.varDeclaration, next⟩ (Position.suffix_of_accept? found)
            (weight_of_shorter consumed)
      | none =>
          dsimp only
          rw [Parsed.after_map]
          exact .single ⟨.expressionStatement, start⟩ List.suffix_rfl
            (weight_of_rank (by decide))

theorem orderly_parameterList (count : Nat) :
    Orderly (weight ⟨.parameterList count, start⟩) (parameterList count start).after start
      (calls ⟨.parameterList count, start⟩) := by
  rw [parameterList, calls, Parsed.after_noting]
  refine .andThen ⟨.expect .identifier .parameterName, start⟩ rfl List.suffix_rfl
    (weight_of_rank (by simp [Rule.rank])) fun name after shorter => ?_
  cases found : after.accept? (· = .comma) with
  | some read =>
      obtain ⟨comma, next, consumed⟩ := read
      dsimp only
      rw [Parsed.after_map]
      exact .single ⟨.parameterList (count + 1), next⟩ (Position.suffix_of_accept? found)
        (weight_of_shorter (consumed.trans shorter))
  | none => exact List.suffix_rfl

theorem orderly_parameters :
    Orderly (weight ⟨.parameters, start⟩) (parameters start).after start
      (calls ⟨.parameters, start⟩) := by
  rw [parameters, calls]
  split
  · rw [Parsed.after_map]
    exact .single ⟨.expect .rightParen .parametersEnd, start⟩ List.suffix_rfl
      (weight_of_rank (by decide))
  · refine .andThen ⟨.parameterList 0, start⟩ rfl List.suffix_rfl (weight_of_rank (by decide))
      fun names after shorter => ?_
    rw [Parsed.after_map]
    exact .single ⟨.expect .rightParen .parametersEnd, after⟩ List.suffix_rfl
      (weight_of_shorter shorter)

theorem orderly_declaration :
    Orderly (weight ⟨.declaration, start⟩) (declaration start).after start
      (calls ⟨.declaration, start⟩) := by
  rw [declaration, calls]
  cases found : start.accept? (· = .classWord) with
  | some read =>
      obtain ⟨keyword, next, consumed⟩ := read
      dsimp only
      rw [Parsed.after_within]
      exact .single ⟨.classDeclaration, next⟩ (Position.suffix_of_accept? found)
        (weight_of_shorter consumed)
  | none =>
      dsimp only
      cases found : start.accept? (· = .funWord) with
      | some read =>
          obtain ⟨keyword, next, consumed⟩ := read
          dsimp only
          rw [Parsed.after_map]
          exact .single ⟨.function .function, next⟩ (Position.suffix_of_accept? found)
            (weight_of_shorter consumed)
      | none =>
          dsimp only
          cases found : start.accept? (· = .varWord) with
          | some read =>
              obtain ⟨keyword, next, consumed⟩ := read
              dsimp only
              rw [Parsed.after_within]
              exact .single ⟨.varDeclaration, next⟩ (Position.suffix_of_accept? found)
                (weight_of_shorter consumed)
          | none =>
              exact .single ⟨.statement, start⟩ List.suffix_rfl (weight_of_rank (by decide))

theorem orderly_classDeclaration :
    Orderly (weight ⟨.classDeclaration, start⟩) (classDeclaration start).after start
      (calls ⟨.classDeclaration, start⟩) := by
  rw [classDeclaration, calls]
  refine .andThen ⟨.expect .identifier .className, start⟩ rfl List.suffix_rfl
    (weight_of_rank (by decide)) fun name afterName shorter => ?_
  cases found : afterName.accept? (· = .less) with
  | some read =>
      obtain ⟨less, next, consumed⟩ := read
      have behind := consumed.trans shorter
      refine .andThen ⟨.expect .identifier .superclassName, next⟩ rfl
        (Position.suffix_of_accept? found) (weight_of_shorter behind) fun parent after shorter' => ?_
      have behind : after.skipExprId.size < start.size := shorter'.trans behind
      refine .andThen ⟨.expect .leftBrace .classStart, after.skipExprId⟩ rfl List.suffix_rfl
        (weight_of_shorter behind) fun _ inside opened => ?_
      rw [Parsed.after_map]
      exact .single ⟨.methods, inside⟩ List.suffix_rfl (weight_of_shorter (opened.trans behind))
  | none =>
      refine .andThen ⟨.expect .leftBrace .classStart, afterName⟩ rfl List.suffix_rfl
        (weight_of_shorter shorter) fun _ inside opened => ?_
      rw [Parsed.after_map]
      exact .single ⟨.methods, inside⟩ List.suffix_rfl (weight_of_shorter (opened.trans shorter))

theorem orderly_methods :
    Orderly (weight ⟨.methods, start⟩) (methods start).after start (calls ⟨.methods, start⟩) := by
  rw [methods, calls]
  split
  · rw [Parsed.after_map]
    exact .single ⟨.expect .rightBrace .classEnd, start⟩ List.suffix_rfl
      (weight_of_rank (by decide))
  · refine .andThen ⟨.function .method, start⟩ rfl List.suffix_rfl (weight_of_rank (by decide))
      fun first after shorter => ?_
    rw [Parsed.after_map]
    exact .single ⟨.methods, after⟩ List.suffix_rfl (weight_of_shorter shorter)

theorem orderly_function (kind : FunctionKind) :
    Orderly (weight ⟨.function kind, start⟩) (function kind start).after start
      (calls ⟨.function kind, start⟩) := by
  rw [function, calls]
  refine .andThen ⟨.expect .identifier (.functionName kind), start⟩ rfl List.suffix_rfl
    (weight_of_rank (by simp [Rule.rank])) fun name afterName behind => ?_
  refine .andThen ⟨.expect .leftParen (.parametersStart kind), afterName⟩ rfl List.suffix_rfl
    (weight_of_shorter behind) fun _ inParens opened => ?_
  have behind := opened.trans behind
  refine .andThen ⟨.parameters, inParens⟩ rfl List.suffix_rfl (weight_of_shorter behind)
    fun params afterParams closed => ?_
  have behind := closed.trans behind
  refine .andThen ⟨.expect .leftBrace (.bodyStart kind), afterParams⟩ rfl List.suffix_rfl
    (weight_of_shorter behind) fun _ inside entered => ?_
  exact .andDone ⟨.block, inside⟩ rfl List.suffix_rfl (weight_of_shorter (entered.trans behind))
    fun _ _ _ => rfl

theorem orderly_recovered :
    Orderly (weight ⟨.recovered, start⟩) (Call.after ⟨.recovered, start⟩) start
      (calls ⟨.recovered, start⟩) := by
  rw [calls, Call.after]
  refine ⟨List.suffix_rfl, weight_of_rank (by decide), ?_⟩
  rw [Call.after]
  cases declaration start with
  | done stmt notes after shorter => exact List.suffix_rfl
  | stuck cause notes after fits =>
      refine .single ⟨.boundary, after⟩ List.suffix_rfl ?_
      simp only [weight, Rule.rank]
      omega

theorem recovered_after (positive : 0 < start.size) :
    (recover (declaration start) positive).after = Call.after ⟨.recovered, start⟩ := by
  simp only [Call.after, recover]
  cases declaration start <;> rfl

theorem size_recovered (positive : 0 < start.size) :
    (Call.after ⟨.recovered, start⟩).size < start.size := by
  rw [← recovered_after start positive]
  exact (recover (declaration start) positive).shorter

theorem orderly_block :
    Orderly (weight ⟨.block, start⟩) (block start).after start (calls ⟨.block, start⟩) := by
  rw [block, calls]
  split
  · rw [Parsed.after_map]
    exact .single ⟨.expect .rightBrace .blockEnd, start⟩ List.suffix_rfl
      (weight_of_rank (by decide))
  · rename_i more
    have positive : 0 < start.size := List.length_pos_iff.mpr (mt Or.inr more)
    have same := recovered_after start positive
    split
    rename_i stmt notes after shorter recovered
    rw [recovered] at same
    rw [Parsed.after_noting, Parsed.after_map, ← same]
    refine ⟨List.suffix_rfl, weight_of_rank (by decide), same ▸ List.suffix_rfl, ?_, List.suffix_rfl⟩
    exact weight_of_shorter shorter

theorem orderly_statement :
    Orderly (weight ⟨.statement, start⟩) (statement start).after start
      (calls ⟨.statement, start⟩) := by
  rw [statement, calls]
  cases found : start.accept? fun _ => true with
  | none =>
      dsimp only
      rw [Parsed.after_within]
      exact .single ⟨.expressionStatement, start⟩ List.suffix_rfl (weight_of_rank (by decide))
  | some read =>
      obtain ⟨token, next, consumed⟩ := read
      have ahead := Position.suffix_of_accept? found
      have single (rule : Rule) : Orderly (weight ⟨.statement, start⟩) (Call.after ⟨rule, next⟩)
          start [⟨rule, next⟩] := .single ⟨rule, next⟩ ahead (weight_of_shorter consumed)
      dsimp only
      cases token.kind with
      | forWord | ifWord | printWord | returnWord | whileWord =>
          rw [Parsed.after_within]
          exact single _
      | leftBrace =>
          rw [Parsed.after_map]
          exact single _
      | _ => exact .single ⟨.expressionStatement, start⟩ List.suffix_rfl (weight_of_rank (by decide))

theorem orderly_forStatement :
    Orderly (weight ⟨.forStatement, start⟩) (forStatement start).after start
      (calls ⟨.forStatement, start⟩) := by
  rw [forStatement, calls]
  refine .andThen ⟨.expect .leftParen .forStart, start⟩ rfl List.suffix_rfl
    (weight_of_rank (by decide)) fun _ inParens behind => ?_
  refine .andThen ⟨.forInitializer, inParens⟩ rfl List.suffix_rfl (weight_of_shorter behind)
    fun initializer atCondition shorter => ?_
  have behind := shorter.trans behind
  refine .andThen ⟨.clause .semicolon .forConditionEnd, atCondition⟩ rfl List.suffix_rfl
    (weight_of_shorter behind) fun condition atIncrement shorter => ?_
  have behind := shorter.trans behind
  refine .andThen ⟨.clause .rightParen .forEnd, atIncrement⟩ rfl List.suffix_rfl
    (weight_of_shorter behind) fun increment atBody closed => ?_
  rw [Parsed.after_map]
  exact .single ⟨.statement, atBody⟩ List.suffix_rfl (weight_of_shorter (closed.trans behind))

theorem orderly_ifStatement :
    Orderly (weight ⟨.ifStatement, start⟩) (ifStatement start).after start
      (calls ⟨.ifStatement, start⟩) := by
  rw [ifStatement, calls]
  refine .andThen ⟨.expect .leftParen .ifStart, start⟩ rfl List.suffix_rfl
    (weight_of_rank (by decide)) fun _ inParens behind => ?_
  refine .andThen ⟨.assignment true, inParens⟩ rfl List.suffix_rfl (weight_of_shorter behind)
    fun condition afterCondition shorter => ?_
  have behind := shorter.trans behind
  refine .andThen ⟨.expect .rightParen .ifEnd, afterCondition⟩ rfl List.suffix_rfl
    (weight_of_shorter behind) fun _ atThen closed => ?_
  have behind := closed.trans behind
  refine .andThen ⟨.statement, atThen⟩ rfl List.suffix_rfl (weight_of_shorter behind)
    fun thenBranch after shorter => ?_
  cases found : after.accept? (· = .elseWord) with
  | some read =>
      obtain ⟨elseWord, next, consumed⟩ := read
      dsimp only
      rw [Parsed.after_map]
      exact .single ⟨.statement, next⟩ (Position.suffix_of_accept? found)
        (weight_of_shorter (consumed.trans (shorter.trans behind)))
  | none => exact List.suffix_rfl

theorem orderly_whileStatement :
    Orderly (weight ⟨.whileStatement, start⟩) (whileStatement start).after start
      (calls ⟨.whileStatement, start⟩) := by
  rw [whileStatement, calls]
  refine .andThen ⟨.expect .leftParen .whileStart, start⟩ rfl List.suffix_rfl
    (weight_of_rank (by decide)) fun _ inParens behind => ?_
  refine .andThen ⟨.assignment true, inParens⟩ rfl List.suffix_rfl (weight_of_shorter behind)
    fun condition afterCondition shorter => ?_
  have behind := shorter.trans behind
  refine .andThen ⟨.expect .rightParen .whileEnd, afterCondition⟩ rfl List.suffix_rfl
    (weight_of_shorter behind) fun _ atBody closed => ?_
  rw [Parsed.after_map]
  exact .single ⟨.statement, atBody⟩ List.suffix_rfl (weight_of_shorter (closed.trans behind))

end Statements

theorem orderly_boundaryAfter (last : Token) (start : Position) :
    Orderly (weight ⟨.boundaryAfter last, start⟩) (Call.after ⟨.boundaryAfter last, start⟩) start
      (calls ⟨.boundaryAfter last, start⟩) := by
  obtain ⟨tokens, supply⟩ := start
  cases tokens with
  | nil => exact List.suffix_rfl
  | cons token rest =>
      simp only [Call.after, boundaryAfter, calls]
      split
      · exact List.suffix_rfl
      · refine .single ⟨.boundaryAfter token, ⟨rest, supply⟩⟩ (List.suffix_cons token rest) ?_
        exact weight_of_shorter (Nat.lt_succ_self _)

theorem orderly_boundary (start : Position) :
    Orderly (weight ⟨.boundary, start⟩) (Call.after ⟨.boundary, start⟩) start
      (calls ⟨.boundary, start⟩) := by
  obtain ⟨tokens, supply⟩ := start
  cases tokens with
  | nil => exact List.suffix_rfl
  | cons token rest =>
      refine .single ⟨.boundaryAfter token, ⟨rest, supply⟩⟩ (List.suffix_cons token rest) ?_
      exact weight_of_shorter (Nat.lt_succ_self _)

theorem orderly_declarations (start : Position) :
    Orderly (weight ⟨.declarations, start⟩) (Call.after ⟨.declarations, start⟩) start
      (calls ⟨.declarations, start⟩) := by
  rw [calls]
  split
  · exact List.nil_suffix
  · rename_i more
    have positive : 0 < start.size := List.length_pos_iff.mpr more
    refine ⟨List.suffix_rfl, weight_of_rank (by decide), List.suffix_rfl, ?_, List.nil_suffix⟩
    exact weight_of_shorter (size_recovered start positive)

theorem Call.orderly (call : Call) : Orderly call.weight call.after call.start call.calls := by
  obtain ⟨rule, start⟩ := call
  cases rule with
  | expect kind what =>
      rw [calls, Call.after, Position.expect]
      cases found : start.accept? (· = kind) with
      | none => exact List.suffix_rfl
      | some read => exact Position.suffix_of_accept? found
  | assignment comma => exact orderly_assignment start comma
  | conditional comma => exact orderly_conditional start comma
  | chain level => exact orderly_chain start level
  | chainTail level left => exact orderly_chainTail start level left
  | operand level => exact orderly_operand start level
  | unary => exact orderly_unary start
  | callTail callee => exact orderly_callTail start callee
  | arguments => exact orderly_arguments start
  | argumentList count => exact orderly_argumentList start count
  | primary => exact orderly_primary start
  | clause ending what => exact orderly_clause start ending what
  | expressionStatement => exact orderly_expressionStatement start
  | varDeclaration => exact orderly_varDeclaration start
  | printStatement keyword => exact orderly_printStatement start keyword
  | returnStatement keyword =>
      rw [calls, Call.after, returnStatement, Parsed.after_map]
      exact .single ⟨.clause .semicolon .returnEnd, start⟩ List.suffix_rfl
        (weight_of_rank (by simp [Rule.rank]))
  | forInitializer => exact orderly_forInitializer start
  | parameterList count => exact orderly_parameterList start count
  | parameters => exact orderly_parameters start
  | declaration => exact orderly_declaration start
  | classDeclaration => exact orderly_classDeclaration start
  | methods => exact orderly_methods start
  | function kind => exact orderly_function start kind
  | block => exact orderly_block start
  | statement => exact orderly_statement start
  | forStatement => exact orderly_forStatement start
  | ifStatement => exact orderly_ifStatement start
  | whileStatement => exact orderly_whileStatement start
  | recovered => exact orderly_recovered start
  | boundary => exact orderly_boundary start
  | boundaryAfter last => exact orderly_boundaryAfter last start
  | declarations => exact orderly_declarations start
  | lone => exact .single ⟨.assignment true, start⟩ List.suffix_rfl (weight_of_rank (by decide))

end Parse

end Lox
