import Lox.Proofs.Parse.Program

/-!
Flattening an expression gives its tokens back in order. A tree keeps some of its tokens as they were
read; of the others it fixes the kind, and of numbers and strings the value.

Flattening undoes the reading of an expression, and a tree whose parts stand on the ladder

    assignment, conditional, comma, or, and, equality, comparison, term, factor, unary, call

where the grammar puts them is read back from its tokens. Only the identities of its uses of variables
are given out anew, in the order of reading.
-/

namespace Lox

open Grammar Parse

inductive Leaf
  | stored (token : Token)
  | made (kind : TokenKind) (literal : Option Literal)

def Leaf.Matches : Leaf → Token → Prop
  | stored kept, token => token = kept
  | made kind literal, token => token.kind = kind ∧ ∀ value ∈ literal, token.literal = some value

def Constant.leaf : Constant → Leaf
  | nil => .made .nilWord none
  | bool true => .made .trueWord none
  | bool false => .made .falseWord none
  | number value => .made .number (some (.number value))
  | string value => .made .string (some (.string value))

namespace Expr

mutual
def flatten : Expr → List Leaf
  | literal value => [value.leaf]
  | grouping inner => .made .leftParen none :: (flatten inner ++ [.made .rightParen none])
  | unary operator operand => .stored operator :: flatten operand
  | binary left operator right | logical left operator right | comma left operator right =>
      flatten left ++ .stored operator :: flatten right
  | conditional condition thenBranch elseBranch =>
      flatten condition ++ .made .question none ::
        (flatten thenBranch ++ .made .colon none :: flatten elseBranch)
  | var _ name => [.stored name]
  | assign _ name value => .stored name :: .made .equal none :: flatten value
  | call callee paren arguments =>
      flatten callee ++ .made .leftParen none :: (flattenAll arguments ++ [.stored paren])
  | get object name => flatten object ++ [.made .dot none, .stored name]
  | set object name value =>
      flatten object ++ .made .dot none :: .stored name :: .made .equal none :: flatten value
  | this _ keyword => [.stored keyword]
  | super _ keyword method => [.stored keyword, .made .dot none, .stored method]

def flattenAll : List Expr → List Leaf
  | [] => []
  | [last] => flatten last
  | first :: second :: rest =>
      flatten first ++ .made .comma none :: flattenAll (second :: rest)
end

/-- The place of a tree on the ladder, from the tightest at zero to the loosest. -/
def looseness : Expr → Nat
  | literal _ | grouping _ | var _ _ | this _ _ | super _ _ _ | call _ _ _ | get _ _ => 0
  | unary _ _ => 1
  | binary _ operator _ | logical _ operator _ | comma _ operator _ =>
      ((operatorLevel? operator.kind).elim 0 Level.rank) + 1
  | conditional _ _ _ => 9
  | assign _ _ _ | set _ _ _ => 10

def Joined (comma : Bool) (tree left : Expr) (operator : Token) (right : Expr) : Prop :=
  ∃ level, operatorLevel? operator.kind = some level ∧ tree = joined level left operator right ∧
    left.looseness ≤ level.rank + 1 ∧ right.looseness < level.rank + 1 ∧
    (level = .comma → comma = true)

mutual
/-- Each part of the tree stands on the ladder where the grammar puts it, and each token that is kept
has its kind. The flag says whether the comma operator is allowed. -/
def Graded (allowed : Bool) : Expr → Prop
  | literal _ => True
  | grouping inner => Graded true inner
  | unary operator operand =>
      (operator.kind = .bang ∨ operator.kind = .minus) ∧ operand.looseness ≤ 1 ∧
        Graded allowed operand
  | binary left operator right =>
      Joined allowed (binary left operator right) left operator right ∧
        Graded allowed left ∧ Graded allowed right
  | logical left operator right =>
      Joined allowed (logical left operator right) left operator right ∧
        Graded allowed left ∧ Graded allowed right
  | comma left operator right =>
      Joined allowed (comma left operator right) left operator right ∧
        Graded allowed left ∧ Graded allowed right
  | conditional condition thenBranch elseBranch =>
      condition.looseness ≤ 8 ∧ elseBranch.looseness ≤ 9 ∧
        Graded allowed condition ∧ Graded true thenBranch ∧ Graded allowed elseBranch
  | var _ name => name.kind = .identifier
  | assign _ name value => name.kind = .identifier ∧ Graded allowed value
  | call callee paren arguments =>
      callee.looseness = 0 ∧ Graded allowed callee ∧ paren.kind = .rightParen ∧
        arguments.length ≤ 255 ∧ GradedAll arguments
  | get object name => object.looseness = 0 ∧ Graded allowed object ∧ name.kind = .identifier
  | set object name value =>
      object.looseness = 0 ∧ Graded allowed object ∧ name.kind = .identifier ∧
        Graded allowed value
  | this _ keyword => keyword.kind = .thisWord
  | super _ keyword method => keyword.kind = .superWord ∧ method.kind = .identifier

def GradedAll : List Expr → Prop
  | [] => True
  | first :: rest => Graded false first ∧ GradedAll rest
end

mutual
/-- The tree with identities from the supply, in the order in which they are given out. -/
def renumber (supply : Supply) : Expr → Expr × Supply
  | literal value => (literal value, supply)
  | grouping inner =>
      let (inner, supply) := renumber supply inner
      (grouping inner, supply)
  | unary operator operand =>
      let (operand, supply) := renumber supply operand
      (unary operator operand, supply)
  | binary left operator right =>
      let (left, supply) := renumber supply left
      let (right, supply) := renumber supply right
      (binary left operator right, supply)
  | logical left operator right =>
      let (left, supply) := renumber supply left
      let (right, supply) := renumber supply right
      (logical left operator right, supply)
  | comma left operator right =>
      let (left, supply) := renumber supply left
      let (right, supply) := renumber supply right
      (comma left operator right, supply)
  | conditional condition thenBranch elseBranch =>
      let (condition, supply) := renumber supply condition
      let (thenBranch, supply) := renumber supply thenBranch
      let (elseBranch, supply) := renumber supply elseBranch
      (conditional condition thenBranch elseBranch, supply)
  | var _ name => (var supply.nextExpr name, supply.afterExpr)
  | assign _ name value =>
      let (value, after) := renumber supply.afterExpr value
      (assign supply.nextExpr name value, after)
  | call callee paren arguments =>
      let (callee, supply) := renumber supply callee
      let (arguments, supply) := renumberAll supply arguments
      (call callee paren arguments, supply)
  | get object name =>
      let (object, supply) := renumber supply object
      (get object name, supply)
  | set object name value =>
      let (object, supply) := renumber supply object
      let (value, supply) := renumber supply value
      (set object name value, supply)
  | this _ keyword => (this supply.nextExpr keyword, supply.afterExpr)
  | super _ keyword method => (super supply.nextExpr keyword method, supply.afterExpr)

def renumberAll (supply : Supply) : List Expr → List Expr × Supply
  | [] => ([], supply)
  | first :: rest =>
      let (first, supply) := renumber supply first
      let (rest, supply) := renumberAll supply rest
      (first :: rest, supply)
end

theorem length_renumberAll (supply : Supply) (exprs : List Expr) :
    (renumberAll supply exprs).1.length = exprs.length := by
  induction exprs generalizing supply with
  | nil => rfl
  | cons first rest ih => simp [renumberAll, ih]

end Expr

def Token.Valued (token : Token) : Prop :=
  (token.kind = .number → ∃ value, token.literal = some (.number value)) ∧
    (token.kind = .string → ∃ value, token.literal = some (.string value))

abbrev Spells (leaves : List Leaf) (words : List Token) : Prop :=
  List.Forall₂ Leaf.Matches leaves words

theorem Spells.append {leaves leaves' : List Leaf} {words words' : List Token}
    (first : Spells leaves words) (second : Spells leaves' words') :
    Spells (leaves ++ leaves') (words ++ words') := List.rel_append first second

theorem Spells.split {leaves leaves' : List Leaf} {words : List Token}
    (spells : Spells (leaves ++ leaves') words) :
    ∃ first second, words = first ++ second ∧ Spells leaves first ∧ Spells leaves' second := by
  refine ⟨words.take leaves.length, words.drop leaves.length, by simp, ?_, ?_⟩
  · simpa using List.forall₂_take leaves.length spells
  · simpa using List.forall₂_drop leaves.length spells

theorem Spells.first {leaf : Leaf} {leaves : List Leaf} {words : List Token}
    (spells : Spells (leaf :: leaves) words) :
    ∃ token others, words = token :: others ∧ leaf.Matches token ∧ Spells leaves others := by
  cases spells with
  | cons fits more => exact ⟨_, _, rfl, fits, more⟩

theorem Spells.only {leaf : Leaf} {words : List Token} (spells : Spells [leaf] words) :
    ∃ token, words = [token] ∧ leaf.Matches token := by
  obtain ⟨token, others, rfl, fits, ended⟩ := spells.first
  obtain rfl := List.forall₂_nil_left_iff.mp ended
  exact ⟨token, rfl, fits⟩

theorem Leaf.matches_made {kind : TokenKind} {token : Token} :
    Leaf.Matches (.made kind none) token ↔ token.kind = kind := by
  simp [Leaf.Matches]

namespace Grammar

def Phrase.flatten : (phrase : Phrase) → phrase.Tree → List Leaf
  | arguments, exprs => Expr.flattenAll exprs
  | assignment _, expr | conditional _, expr | chain _, expr | call, expr | primary, expr =>
      Expr.flatten expr

theorem flatten_joined (level : Level) (left : Expr) (operator : Token) (right : Expr) :
    (joined level left operator right).flatten =
      left.flatten ++ .stored operator :: right.flatten := by
  cases level <;> simp [joined, Expr.flatten]

theorem matches_ofLiteral {token : Token} {value : Literal}
    (isLiteral : token.kind = .number ∨ token.kind = .string) (found : token.literal = some value)
    (valued : token.Valued) : (Constant.ofLiteral value).leaf.Matches token := by
  rcases isLiteral with isNumber | isString
  · obtain ⟨number, carried⟩ := valued.1 isNumber
    obtain rfl : value = .number number := by simpa [found] using carried
    simp [Constant.ofLiteral, Constant.leaf, Leaf.Matches, isNumber, found]
  · obtain ⟨text, carried⟩ := valued.2 isString
    obtain rfl : value = .string text := by simpa [found] using carried
    simp [Constant.ofLiteral, Constant.leaf, Leaf.Matches, isString, found]

theorem ExprDerives.spells {phrase : Phrase} {start after : Supply} {words : List Token}
    {tree : phrase.Tree} (derived : ExprDerives phrase start words tree after)
    (valued : ∀ token ∈ words, token.Valued) : Spells (phrase.flatten tree) words := by
  induction derived with
  | plain _ ih | unconditional _ ih | single _ ih | unsigned _ ih | uncalled _ ih | argument _ ih =>
      exact ih valued
  | assign _ isEqual _ ih ih' =>
      simp only [List.forall_mem_append, List.forall_mem_cons] at valued
      exact (ih valued.1).append (.cons (Leaf.matches_made.mpr isEqual) (ih' valued.2.2))
  | set _ isEqual _ ih ih' =>
      simp only [List.forall_mem_append, List.forall_mem_cons] at valued
      have spelled := (ih valued.1).append (.cons (Leaf.matches_made.mpr isEqual) (ih' valued.2.2))
      simpa [Phrase.flatten, Expr.flatten] using spelled
  | choice _ isQuestion _ isColon _ ih ih' ih'' =>
      simp only [List.forall_mem_append, List.forall_mem_cons] at valued
      exact (ih valued.1).append (.cons (Leaf.matches_made.mpr isQuestion)
        ((ih' valued.2.2.1).append (.cons (Leaf.matches_made.mpr isColon) (ih'' valued.2.2.2.2))))
  | operation _ _ _ ih ih' =>
      simp only [List.forall_mem_append, List.forall_mem_cons] at valued
      rw [Phrase.flatten, flatten_joined]
      exact (ih valued.1).append (.cons rfl (ih' valued.2.2))
  | negation _ _ ih =>
      simp only [List.forall_mem_cons] at valued
      exact .cons rfl (ih valued.2)
  | callEmpty _ isOpening _ ih =>
      simp only [List.forall_mem_append] at valued
      exact (ih valued.1).append (.cons (Leaf.matches_made.mpr isOpening) (.cons rfl .nil))
  | call _ isOpening _ _ _ ih ih' =>
      simp only [List.forall_mem_append, List.forall_mem_cons] at valued
      exact (ih valued.1).append (.cons (Leaf.matches_made.mpr isOpening)
        ((ih' valued.2.2.1).append (.cons rfl .nil)))
  | get _ isDot _ ih =>
      simp only [List.forall_mem_append] at valued
      exact (ih valued.1).append (.cons (Leaf.matches_made.mpr isDot) (.cons rfl .nil))
  | nextArgument _ isComma others ih ih' =>
      simp only [List.forall_mem_append, List.forall_mem_cons] at valued
      have spelled := (ih valued.1).append (.cons (Leaf.matches_made.mpr isComma) (ih' valued.2.2))
      cases others <;> exact spelled
  | falseWord kind | trueWord kind | nilWord kind =>
      exact .cons (Leaf.matches_made.mpr kind) .nil
  | literal kind found => exact .cons (matches_ofLiteral kind found (valued _ (by simp))) .nil
  | this _ | var _ => exact .cons rfl .nil
  | super _ isDot _ => exact .cons rfl (.cons (Leaf.matches_made.mpr isDot) (.cons rfl .nil))
  | grouping isOpening _ isClosing ih =>
      simp only [List.forall_mem_cons, List.forall_mem_append] at valued
      exact .cons (Leaf.matches_made.mpr isOpening)
        ((ih valued.2.1).append (.cons (Leaf.matches_made.mpr isClosing) .nil))

theorem ExprDerives.looser {tighter looser : Option Level} {start after : Supply}
    {words : List Token} {expr : Expr} (derived : ExprDerives (.chain tighter) start words expr after)
    (bound : strength tighter ≤ strength looser) :
    ExprDerives (.chain looser) start words expr after := by
  by_cases same : tighter = looser
  · rwa [← same]
  · cases looser with
    | none => cases tighter <;> simp_all [strength, Level.rank_pos, Nat.ne_of_gt]
    | some level =>
        have smaller := strength_operandLevel level
        have below : strength tighter ≤ strength (operandLevel? level) := by
          revert bound same
          rcases tighter with _ | tighter
          · simp [strength]
          · cases level <;> cases tighter <;> decide
        exact .single (derived.looser below)
termination_by strength looser

theorem strength_le (level : Option Level) : strength level ≤ 7 := by
  cases level with
  | none => exact Nat.zero_le _
  | some level => exact level.rank_le

structure Placed (allowed : Bool) (looseness : Nat) (start : Supply) (words : List Token)
    (tree : Expr) (after : Supply) : Prop where
  call : looseness = 0 → ExprDerives .call start words tree after
  chain : ∀ level, looseness ≤ strength level + 1 → ExprDerives (.chain level) start words tree after
  conditional : looseness ≤ 9 → ExprDerives (.conditional allowed) start words tree after
  assignment : ExprDerives (.assignment allowed) start words tree after

section Placing

variable {allowed : Bool} {looseness : Nat} {start after : Supply} {words : List Token} {tree : Expr}

theorem Placed.ofAssignment (derived : ExprDerives (.assignment allowed) start words tree after) :
    Placed allowed 10 start words tree after where
  call := by omega
  chain := by
    intro level bound
    have := strength_le level
    omega
  conditional := by omega
  assignment := derived

theorem Placed.ofConditional (derived : ExprDerives (.conditional allowed) start words tree after) :
    Placed allowed 9 start words tree after where
  call := by omega
  chain := by
    intro level bound
    have := strength_le level
    omega
  conditional := fun _ => derived
  assignment := .plain derived

theorem Placed.ofChain {level : Option Level}
    (derived : ExprDerives (.chain level) start words tree after)
    (bound : strength level ≤ (conditionLevel allowed).rank) :
    Placed allowed (strength level + 1) start words tree after where
  call := by omega
  chain := fun _ fits => derived.looser (by omega)
  conditional := fun _ => .unconditional (derived.looser bound)
  assignment := .plain (.unconditional (derived.looser bound))

theorem Placed.ofCall (derived : ExprDerives .call start words tree after) :
    Placed allowed 0 start words tree after where
  call := fun _ => derived
  chain := fun _ _ => .looser (.unsigned derived) (by simp [strength])
  conditional := fun _ => .unconditional (.looser (.unsigned derived) (by simp [strength]))
  assignment := .plain (.unconditional (.looser (.unsigned derived) (by simp [strength])))

end Placing

theorem rank_le_conditionLevel {level : Level} {allowed : Bool}
    (comma : level = .comma → allowed = true) : level.rank ≤ (conditionLevel allowed).rank := by
  cases allowed with
  | true => exact level.rank_le
  | false => cases level <;> simp_all [conditionLevel, Level.rank]

theorem looseness_joined {level : Level} {operator : Token} (left right : Expr)
    (found : operatorLevel? operator.kind = some level) :
    (joined level left operator right).looseness = level.rank + 1 := by
  cases level <;> simp [joined, Expr.looseness, found]

theorem looseness_condition {allowed : Bool} {expr : Expr} (graded : expr.Graded allowed)
    (bound : expr.looseness ≤ 8) : expr.looseness ≤ (conditionLevel allowed).rank + 1 := by
  have joins {left right operator} (fits : Expr.Joined allowed expr left operator right) :
      expr.looseness ≤ (conditionLevel allowed).rank + 1 := by
    obtain ⟨level, found, rfl, _, _, comma⟩ := fits
    have := rank_le_conditionLevel comma
    rw [looseness_joined left right found]
    omega
  cases expr with
  | binary left operator right | logical left operator right | comma left operator right =>
      rw [Expr.Graded] at graded
      exact joins graded.1
  | _ => simp_all [Expr.looseness]

theorem placed_joined {allowed : Bool} {tree left right : Expr} {operator : Token}
    {start middle after : Supply} {leftWords rightWords : List Token} {left' right' : Expr}
    (fits : Expr.Joined allowed tree left operator right)
    (placedLeft : Placed allowed left.looseness start leftWords left' middle)
    (placedRight : Placed allowed right.looseness middle rightWords right' after) :
    ∃ level, tree = joined level left operator right ∧ Placed allowed tree.looseness start
      (leftWords ++ operator :: rightWords) (joined level left' operator right') after := by
  obtain ⟨level, found, rfl, leftFits, rightFits, comma⟩ := fits
  refine ⟨level, rfl, ?_⟩
  have derivedLeft := placedLeft.chain (some level) leftFits
  have fitsOperand : right.looseness ≤ strength (operandLevel? level) + 1 := by
    cases level <;> simp_all [operandLevel?, strength, Level.rank] <;> omega
  have derived := ExprDerives.operation derivedLeft found (placedRight.chain _ fitsOperand)
  rw [looseness_joined left right found]
  exact .ofChain derived (rank_le_conditionLevel comma)

mutual
theorem placed_of_graded {allowed : Bool} (expr : Expr) (graded : expr.Graded allowed)
    (start : Supply) {words : List Token} (spells : Spells expr.flatten words) :
    Placed allowed expr.looseness start words (expr.renumber start).1 (expr.renumber start).2 := by
  match expr with
  | .literal value =>
      obtain ⟨token, rfl, fits⟩ := spells.only
      refine .ofCall (.uncalled ?_)
      cases value with
      | nil => exact .nilWord fits.1
      | bool value =>
          cases value with
          | true => exact .trueWord fits.1
          | false => exact .falseWord fits.1
      | number value => exact .literal (.inl fits.1) (fits.2 _ rfl)
      | string value => exact .literal (.inr fits.1) (fits.2 _ rfl)
  | .grouping inner =>
      obtain ⟨opening, _, rfl, isOpening, inside⟩ := spells.first
      obtain ⟨words, _, rfl, spelled, ended⟩ := inside.split
      obtain ⟨closing, rfl, isClosing⟩ := ended.only
      have placed := placed_of_graded inner graded start spelled
      exact .ofCall (.uncalled (.grouping isOpening.1 placed.assignment isClosing.1))
  | .unary operator operand =>
      obtain ⟨isOperator, bound, graded⟩ := graded
      obtain ⟨operator, words, rfl, rfl, spelled⟩ := spells.first
      have placed := placed_of_graded operand graded start spelled
      have derived : ExprDerives .unary start (operator :: words)
          (.unary operator (operand.renumber start).1) (operand.renumber start).2 :=
        .negation isOperator (placed.chain none bound)
      exact .ofChain derived (Nat.zero_le _)
  | .binary left operator right | .logical left operator right | .comma left operator right =>
      obtain ⟨fits, gradedLeft, gradedRight⟩ := graded
      obtain ⟨leftWords, _, rfl, spelledLeft, spelled⟩ := spells.split
      obtain ⟨_, rightWords, rfl, rfl, spelledRight⟩ := spelled.first
      obtain ⟨level, same, placed⟩ := placed_joined fits
        (placed_of_graded left gradedLeft start spelledLeft)
        (placed_of_graded right gradedRight _ spelledRight)
      cases level <;> first | exact placed | cases same
  | .conditional condition thenBranch elseBranch =>
      obtain ⟨fits, elseFits, gradedCondition, gradedThen, gradedElse⟩ := graded
      obtain ⟨words, _, rfl, spelledCondition, atQuestion⟩ := spells.split
      obtain ⟨question, _, rfl, isQuestion, branches⟩ := atQuestion.first
      obtain ⟨thenWords, _, rfl, spelledThen, atColon⟩ := branches.split
      obtain ⟨colon, elseWords, rfl, isColon, spelledElse⟩ := atColon.first
      have placed := placed_of_graded condition gradedCondition start spelledCondition
      have placedThen := placed_of_graded thenBranch gradedThen (condition.renumber start).2
        spelledThen
      have placedElse := placed_of_graded elseBranch gradedElse
        (thenBranch.renumber (condition.renumber start).2).2 spelledElse
      exact .ofConditional (.choice
        (placed.chain (some (conditionLevel allowed)) (looseness_condition gradedCondition fits))
        isQuestion.1 placedThen.assignment isColon.1 (placedElse.conditional elseFits))
  | .var id name =>
      obtain ⟨_, rfl, rfl⟩ := spells.only
      exact .ofCall (.uncalled (.var graded))
  | .assign id name value =>
      obtain ⟨isName, graded⟩ := graded
      obtain ⟨name, _, rfl, rfl, atEquals⟩ := spells.first
      obtain ⟨equals, words, rfl, isEqual, spelled⟩ := atEquals.first
      have target : Placed allowed 0 start [name] (.var start.nextExpr name) start.afterExpr :=
        .ofCall (.uncalled (.var isName))
      have placed := placed_of_graded value graded start.afterExpr spelled
      exact .ofAssignment (.assign (target.conditional (by omega)) isEqual.1 placed.assignment)
  | .call callee paren arguments =>
      obtain ⟨fits, gradedCallee, isClosing, bound, gradedAll⟩ := graded
      obtain ⟨words, _, rfl, spelledCallee, atOpening⟩ := spells.split
      obtain ⟨opening, _, rfl, isOpening, inside⟩ := atOpening.first
      obtain ⟨others, _, rfl, spelledAll, ended⟩ := inside.split
      obtain ⟨_, rfl, rfl⟩ := ended.only
      have placed := placed_of_graded callee gradedCallee start spelledCallee
      by_cases empty : arguments = []
      · subst empty
        obtain rfl := List.forall₂_nil_left_iff.mp spelledAll
        exact .ofCall (.callEmpty (placed.call fits) isOpening.1 isClosing)
      · have derived := derives_of_gradedAll arguments empty gradedAll (callee.renumber start).2
          spelledAll
        rw [← Expr.length_renumberAll (callee.renumber start).2] at bound
        exact .ofCall (.call (placed.call fits) isOpening.1 derived bound isClosing)
  | .get object name =>
      obtain ⟨fits, graded, isName⟩ := graded
      obtain ⟨words, _, rfl, spelled, atDot⟩ := spells.split
      obtain ⟨dot, _, rfl, isDot, atName⟩ := atDot.first
      obtain ⟨_, rfl, rfl⟩ := atName.only
      have placed := placed_of_graded object graded start spelled
      exact .ofCall (.get (placed.call fits) isDot.1 isName)
  | .set object name value =>
      obtain ⟨fits, gradedObject, isName, gradedValue⟩ := graded
      obtain ⟨words, _, rfl, spelledObject, atDot⟩ := spells.split
      obtain ⟨dot, _, rfl, isDot, atName⟩ := atDot.first
      obtain ⟨name, _, rfl, rfl, atEquals⟩ := atName.first
      obtain ⟨equals, others, rfl, isEqual, spelledValue⟩ := atEquals.first
      have placedObject := placed_of_graded object gradedObject start spelledObject
      have placedValue := placed_of_graded value gradedValue (object.renumber start).2 spelledValue
      have target : Placed allowed 0 start (words ++ [dot, name])
          (.get (object.renumber start).1 name) (object.renumber start).2 :=
        .ofCall (.get (placedObject.call fits) isDot.1 isName)
      have derived := ExprDerives.set (target.conditional (by omega)) isEqual.1 placedValue.assignment
      rw [List.append_assoc] at derived
      exact .ofAssignment derived
  | .this id keyword =>
      obtain ⟨_, rfl, rfl⟩ := spells.only
      exact .ofCall (.uncalled (.this graded))
  | .super id keyword method =>
      obtain ⟨_, _, rfl, rfl, atDot⟩ := spells.first
      obtain ⟨dot, _, rfl, isDot, atName⟩ := atDot.first
      obtain ⟨_, rfl, rfl⟩ := atName.only
      exact .ofCall (.uncalled (.super graded.1 isDot.1 graded.2))

theorem derives_of_gradedAll (exprs : List Expr) (nonempty : exprs ≠ [])
    (graded : Expr.GradedAll exprs) (start : Supply) {words : List Token}
    (spells : Spells (Expr.flattenAll exprs) words) :
    ExprDerives .arguments start words (Expr.renumberAll start exprs).1
      (Expr.renumberAll start exprs).2 := by
  match exprs with
  | [last] => exact .argument (placed_of_graded last graded.1 start spells).assignment
  | first :: second :: rest =>
      obtain ⟨words, _, rfl, spelled, atComma⟩ := spells.split
      obtain ⟨comma, others, rfl, isComma, spelledRest⟩ := atComma.first
      have placed := placed_of_graded first graded.1 start spelled
      have derived := derives_of_gradedAll (second :: rest) (by simp) graded.2
        (first.renumber start).2 spelledRest
      exact .nextArgument placed.assignment isComma.1 derived
end

end Grammar

namespace Parse

/-- Flattening and reading are inverse to each other: a tree that was read has the tokens it was read
from, and a graded tree is read back from its tokens with new identities. -/
theorem expression_flatten_inverse (start : Supply) :
    (∀ (tokens : List Token) (expr : Expr), (∀ token ∈ words tokens, token.Valued) →
      (expression tokens start).tree = some expr → Spells expr.flatten (words tokens)) ∧
    ∀ (tokens : List Token) (expr : Expr), expr.Graded true → Spells expr.flatten (words tokens) →
      expression tokens start = ⟨some (expr.renumber start).1, [], (expr.renumber start).2⟩ := by
  constructor
  · intro tokens expr valued found
    obtain ⟨after, _, read⟩ := lone_eq_some found
    exact (lone_eq_iff.mp read).spells valued
  · intro tokens expr graded spells
    have derived := (placed_of_graded expr graded start spells).assignment
    simp [expression, lone_eq_iff.mpr derived]

/-- The expression `p.q = f(0, (x, y)) or !z ? "s" : this` on one line. -/
theorem expression_flatten_inverse_property :
    let word (kind : TokenKind) (lexeme : String) : Token := ⟨kind, lexeme, none, 1⟩
    let name := word .identifier
    let tokens := [name "p", word .dot ".", name "q", word .equal "=", name "f",
      word .leftParen "(", ⟨.number, "0", some (.number .zero), 1⟩, word .comma ",",
      word .leftParen "(", name "x", word .comma ",", name "y", word .rightParen ")",
      word .rightParen ")", word .orWord "or", word .bang "!", name "z", word .question "?",
      ⟨.string, "\"s\"", some (.string "s"), 1⟩, word .colon ":", word .thisWord "this",
      Token.ending 1]
    let group := Expr.grouping (.comma (.var 0 (name "x")) (word .comma ",") (.var 0 (name "y")))
    let called := Expr.call (.var 0 (name "f")) (word .rightParen ")")
      [.literal (.number .zero), group]
    let expr := Expr.set (.var 0 (name "p")) (name "q") (.conditional
      (.logical called (word .orWord "or") (.unary (word .bang "!") (.var 0 (name "z"))))
      (.literal (.string "s")) (.this 0 (word .thisWord "this")))
    expr.Graded true ∧ Spells expr.flatten (words tokens) ∧
      (∀ token ∈ words tokens, token.Valued) ∧
      expression tokens ⟨0, 0⟩ = ⟨some (expr.renumber ⟨0, 0⟩).1, [], ⟨6, 0⟩⟩ ∧
      Spells (expr.renumber ⟨0, 0⟩).1.flatten (words tokens) := by
  intro word name tokens group called expr
  have graded : expr.Graded true := by
    simp [expr, group, called, word, name, Expr.Graded, Expr.GradedAll, Expr.Joined,
      Expr.looseness, operatorLevel?, joined, Level.rank]
  have spells : Spells expr.flatten (words tokens) := by
    simp [expr, group, called, tokens, word, name, words, Token.isEnding, Token.ending,
      Expr.flatten, Expr.flattenAll, Constant.leaf, Leaf.Matches]
  have valued : ∀ token ∈ words tokens, token.Valued := by
    simp [tokens, word, name, words, Token.isEnding, Token.ending, Token.Valued]
  have read := (expression_flatten_inverse ⟨0, 0⟩).2 tokens expr graded spells
  exact ⟨graded, spells, valued, read,
    (expression_flatten_inverse ⟨0, 0⟩).1 tokens _ valued (by rw [read])⟩

end Parse

end Lox
