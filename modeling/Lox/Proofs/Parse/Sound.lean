import Lox.Proofs.Grammar
import Lox.Proofs.Parse.Outcome

/-!
What a rule reads without a note is derived by the grammar. The proofs are recursive as the rules are,
one theorem for each rule, and each is put together as its rule is.
-/

namespace Lox

open Grammar

namespace Level

theorem accepts_iff (level : Level) (kind : TokenKind) :
    level.accepts kind = true ↔ operatorLevel? kind = some level := by
  cases level <;> cases kind <;> simp [accepts, operatorLevel?]

theorem tighter_eq (level : Level) : level.tighter = operandLevel? level := by
  cases level <;> rfl

theorem combine_eq (level : Level) : level.combine = joined level := by
  cases level <;> rfl

end Level

theorem Position.eq_of_accept? {position after : Position} {accepted : TokenKind → Bool}
    {token : Token} {shorter : after.size < position.size}
    (found : position.accept? accepted = some (token, ⟨after, shorter⟩)) :
    position = ⟨token :: after.rest, after.supply⟩ ∧ accepted token.kind = true := by
  obtain ⟨rest, supply, holds⟩ := accept?_eq_some found
  exact ⟨by rw [← rest, supply], holds⟩

namespace Parsed

variable {α β : Type} {bound small : Nat}

/-- If the rule succeeds without a note, it has taken words off `rest` for which this holds. -/
def Spells (parsed : Parsed α bound) (rest : List Token)
    (reads : List Token → α → Position → Prop) : Prop :=
  ∀ value after, parsed.Yields value after →
    ∃ words, rest = words ++ after.rest ∧ reads words value after

namespace Spells

variable {parsed : Parsed α small} {rest : List Token} {reads : List Token → α → Position → Prop}
  {found : List Token → β → Position → Prop} {position : Position} {kind : TokenKind}
  {what : Expected}

theorem ended {value : α} {notes : List Complaint} {shorter : position.size < bound}
    (same : position.rest = rest) (holds : reads [] value position) :
    (done value notes position shorter).Spells rest reads := by
  intro _ _ yields
  obtain ⟨rfl, -, rfl⟩ := yields_done.mp yields
  exact ⟨[], same.symm, holds⟩

theorem failed {cause : Complaint} {notes : List Complaint} {fits : position.size ≤ bound} :
    (stuck cause notes position fits : Parsed α bound).Spells rest reads :=
  fun _ _ yields => absurd yields not_yields_stuck

theorem behind {token : Token} (spells : parsed.Spells rest fun words => reads (token :: words)) :
    parsed.Spells (token :: rest) reads := by
  intro value after yields
  obtain ⟨words, rfl, holds⟩ := spells value after yields
  exact ⟨token :: words, rfl, holds⟩

theorem noting {notes : List Complaint} (spells : notes = [] → parsed.Spells rest reads) :
    (parsed.noting notes).Spells rest reads := by
  intro value after yields
  obtain ⟨unnoted, yields⟩ := yields_noting.mp yields
  exact spells unnoted value after yields

theorem within {weaker : small ≤ bound} (spells : parsed.Spells rest reads) :
    (parsed.within weaker).Spells rest reads :=
  fun value after yields => spells value after (yields_within.mp yields)

theorem imp {found : List Token → α → Position → Prop} (spells : parsed.Spells rest reads)
    (holds : ∀ {words value after}, reads words value after → found words value after) :
    parsed.Spells rest found := by
  intro value after yields
  obtain ⟨words, same, read⟩ := spells value after yields
  exact ⟨words, same, holds read⟩

theorem map {change : α → β} {weaker : small ≤ bound} (spells : parsed.Spells rest reads)
    (holds : ∀ {words value after}, reads words value after → found words (change value) after) :
    (parsed.map change weaker).Spells rest found := by
  intro _ after yields
  obtain ⟨value, first, rfl⟩ := yields_map.mp yields
  obtain ⟨words, same, read⟩ := spells value after first
  exact ⟨words, same, holds read⟩

theorem andThen {next : (value : α) → (after : Position) → after.size < small → Parsed β bound}
    {weaker : small ≤ bound} (spells : parsed.Spells rest reads)
    (continued : ∀ {words value after} shorter, reads words value after →
      (next value after shorter).Spells after.rest fun others => found (words ++ others)) :
    (parsed.andThen next weaker).Spells rest found := by
  intro last final yields
  obtain ⟨value, after, first, second⟩ := yields_andThen.mp yields
  obtain ⟨words, rfl, read⟩ := spells value after first
  obtain ⟨others, same, holds⟩ := continued first.size_lt read last final second
  exact ⟨words ++ others, by rw [same, List.append_assoc], holds⟩

theorem expect : (position.expect kind what).Spells position.rest fun words token after =>
    words = [token] ∧ after.supply = position.supply ∧ token.kind = kind := by
  intro token after yields
  obtain ⟨same, supply, isKind⟩ := Position.yields_expect.mp yields
  exact ⟨[token], same, rfl, supply, isKind⟩

theorem expect_andThen
    {next : (token : Token) → (after : Position) → after.size < position.size → Parsed β bound}
    {weaker : position.size ≤ bound}
    (continued : ∀ {token others} shorter, token.kind = kind →
      (next token ⟨others, position.supply⟩ shorter).Spells others fun words =>
        found (token :: words)) :
    ((position.expect kind what).andThen next weaker).Spells position.rest found := by
  refine .andThen .expect ?_
  rintro _ token ⟨others, _⟩ shorter ⟨rfl, rfl, isKind⟩
  exact continued shorter isKind

theorem expect_map {change : Token → β} {weaker : position.size ≤ bound}
    (holds : ∀ {token others}, token.kind = kind →
      found [token] (change token) ⟨others, position.supply⟩) :
    ((position.expect kind what).map change weaker).Spells position.rest found := by
  refine .map .expect ?_
  rintro _ token ⟨others, _⟩ ⟨rfl, rfl, isKind⟩
  exact holds isKind

end Spells

end Parsed

namespace Parse

open Parsed (Spells)

abbrev Reads (phrase : Phrase) (start : Supply) (words : List Token) (tree : phrase.Tree)
    (after : Position) : Prop :=
  ExprDerives phrase start words tree after.supply

def ReadsArguments (count : Nat) (start : Supply) (words : List Token) (read : List Expr × Token)
    (after : Position) : Prop :=
  ∃ others, words = others ++ [read.2] ∧ read.2.kind = .rightParen ∧
    count + read.1.length ≤ maxArity ∧ ExprDerives .arguments start others read.1 after.supply

mutual
theorem assignment_sound (comma : Bool) (start : Position) :
    (assignment comma start).Spells start.rest (Reads (.assignment comma) start.supply) := by
  rw [assignment]
  refine .andThen (conditional_sound comma start) fun {words target after} shorter derived => ?_
  split
  · exact .ended rfl (by simpa using .plain derived)
  · rename_i equals next consumed accepted
    obtain ⟨rfl, isEqual⟩ := Position.eq_of_accept? accepted
    have kind : equals.kind = .equal := by simpa using isEqual
    refine .behind (.andThen (assignment_sound comma next) fun {others value last} _ derived' => ?_)
    dsimp only
    split
    · rename_i built
      refine .ended rfl ?_
      rw [List.append_nil]
      cases target <;> simp only [Expr.assigned?, Option.some.injEq, reduceCtorEq] at built
      · exact built ▸ .assign derived kind derived'
      · exact built ▸ .set derived kind derived'
    · intro _ _ yields
      simp at yields
termination_by 32 * start.size + 18
decreasing_by all_goals omega

theorem conditional_sound (comma : Bool) (start : Position) :
    (conditional comma start).Spells start.rest (Reads (.conditional comma) start.supply) := by
  have bounded := (Level.loosest comma).rank_le
  rw [conditional]
  refine .andThen (chain_sound (.loosest comma) start) fun shorter derived => ?_
  split
  · exact .ended rfl (by simpa using .unconditional derived)
  · rename_i question next consumed accepted
    obtain ⟨rfl, isQuestion⟩ := Position.eq_of_accept? accepted
    refine .behind (.andThen (assignment_sound true next) fun shorter' thenDerived => ?_)
    refine .expect_andThen fun shorter'' isColon => ?_
    refine .map (conditional_sound comma _) fun elseDerived => ?_
    exact .choice derived (by simpa using isQuestion) thenDerived isColon elseDerived
termination_by 32 * start.size + 17
decreasing_by all_goals omega

theorem chain_sound (level : Level) (start : Position) :
    (chain level start).Spells start.rest (Reads (.level level) start.supply) := by
  rw [chain]
  exact .andThen (operand_sound level start) fun shorter derived =>
    .within (chainTail_sound _ (.single derived))
termination_by 32 * start.size + 2 * level.rank + 1
decreasing_by all_goals omega

theorem chainTail_sound {level : Level} {left : Expr} (start : Position) {first : Supply}
    {words : List Token} (derived : ExprDerives (.level level) first words left start.supply) :
    (chainTail level left start).Spells start.rest fun others =>
      Reads (.level level) first (words ++ others) := by
  have bounded := level.rank_le
  rw [chainTail]
  split
  · exact .ended rfl (by simpa using derived)
  · rename_i operator next consumed accepted
    obtain ⟨rfl, isOperator⟩ := Position.eq_of_accept? accepted
    refine .behind (.andThen (operand_sound level next) fun shorter derived' => .within ?_)
    rw [Level.combine_eq]
    simpa using chainTail_sound _ (.operation derived ((level.accepts_iff _).mp isOperator) derived')
termination_by 32 * start.size
decreasing_by all_goals omega

theorem operand_sound (level : Level) (start : Position) :
    (operand level start).Spells start.rest
      (Reads (.chain (operandLevel? level)) start.supply) := by
  rw [operand]
  split
  · rename_i next found
    have smaller := Level.rank_tighter found
    rw [Level.tighter_eq] at found
    rw [found]
    exact chain_sound next start
  · rename_i found
    have positive := level.rank_pos
    rw [Level.tighter_eq] at found
    rw [found]
    exact unary_sound start
termination_by 32 * start.size + 2 * level.rank
decreasing_by all_goals omega

theorem unary_sound (start : Position) :
    (unary start).Spells start.rest (Reads .unary start.supply) := by
  rw [unary]
  split
  · rename_i operator next consumed accepted
    obtain ⟨rfl, isOperator⟩ := Position.eq_of_accept? accepted
    exact .behind (.map (unary_sound next) fun derived => .negation (by simpa using isOperator) derived)
  · refine .andThen (primary_sound start) fun shorter derived => .within ?_
    exact .imp (callTail_sound _ (.uncalled derived)) .unsigned
termination_by 32 * start.size + 1
decreasing_by all_goals omega

theorem callTail_sound {callee : Expr} (start : Position) {first : Supply} {words : List Token}
    (derived : ExprDerives .call first words callee start.supply) :
    (callTail callee start).Spells start.rest fun others => Reads .call first (words ++ others) := by
  rw [callTail]
  split
  · rename_i opening next consumed accepted
    obtain ⟨rfl, isOpening⟩ := Position.eq_of_accept? accepted
    have kind : opening.kind = .leftParen := by simpa using isOpening
    refine .behind (.andThen (arguments_sound next) ?_)
    rintro _ ⟨exprs, closing⟩ after shorter ⟨others, rfl, called⟩
    simpa using Spells.within (callTail_sound _ (called derived kind))
  · split
    · rename_i dot next consumed accepted
      obtain ⟨rfl, isDot⟩ := Position.eq_of_accept? accepted
      refine .behind (.expect_andThen fun {name others} shorter isName => .within ?_)
      simpa using callTail_sound ⟨others, next.supply⟩ (.get derived (by simpa using isDot) isName)
    · exact .ended rfl (by simpa using derived)
termination_by 32 * start.size
decreasing_by all_goals omega

theorem arguments_sound (start : Position) :
    (arguments start).Spells start.rest fun words read after =>
      ∃ others, words = others ++ [read.2] ∧
        ∀ {first before callee opening}, ExprDerives .call first before callee start.supply →
          opening.kind = .leftParen →
          ExprDerives .call first (before ++ opening :: (others ++ [read.2]))
            (Expr.call callee read.2 read.1) after.supply := by
  rw [arguments]
  split
  · rename_i paren next consumed accepted
    obtain ⟨rfl, isParen⟩ := Position.eq_of_accept? accepted
    refine .behind (.ended rfl ⟨[], rfl, fun derived isOpening => ?_⟩)
    exact .callEmpty derived isOpening (by simpa using isParen)
  · intro read after yields
    obtain ⟨_, same, others, rfl, isClosing, bounded, derived⟩ :=
      argumentList_sound 0 start read after yields
    refine ⟨_, same, others, rfl, fun called isOpening => ?_⟩
    exact .call called isOpening derived (by simpa [maxArity] using bounded) isClosing
termination_by 32 * start.size + 20
decreasing_by all_goals omega

theorem argumentList_sound (count : Nat) (start : Position) :
    (argumentList count start).Spells start.rest (ReadsArguments count start.supply) := by
  rw [argumentList]
  refine .noting fun unnoted => ?_
  have room : count < maxArity := by
    by_contra full
    simp [Nat.le_of_not_lt full] at unnoted
  refine .andThen (assignment_sound false start) fun shorter derived => ?_
  split
  · rename_i comma next consumed accepted
    obtain ⟨rfl, isComma⟩ := Position.eq_of_accept? accepted
    refine .behind (.map (argumentList_sound (count + 1) next) ?_)
    rintro _ ⟨exprs, closing⟩ last ⟨others, rfl, isClosing, bounded, derived'⟩
    refine ⟨_ ++ comma :: others, by simp, isClosing, ?_,
      .nextArgument derived (by simpa using isComma) derived'⟩
    simp only [List.length_cons] at bounded ⊢
    omega
  · exact .expect_map fun isParen => ⟨_, rfl, isParen, room, .argument derived⟩
termination_by 32 * start.size + 19
decreasing_by all_goals omega

theorem primary_sound (start : Position) :
    (primary start).Spells start.rest (Reads .primary start.supply) := by
  rw [primary]
  split
  · exact .failed
  · rename_i token next consumed accepted
    obtain ⟨rfl, -⟩ := Position.eq_of_accept? accepted
    split
    case h_1 kind => exact .behind (.ended rfl (.falseWord kind))
    case h_2 kind => exact .behind (.ended rfl (.trueWord kind))
    case h_3 kind => exact .behind (.ended rfl (.nilWord kind))
    case h_4 kind =>
      split
      · rename_i given
        exact .behind (.ended rfl (.literal (.inl kind) given))
      · exact .failed
    case h_5 kind =>
      split
      · rename_i given
        exact .behind (.ended rfl (.literal (.inr kind) given))
      · exact .failed
    case h_6 kind => exact .behind (.ended rfl (.this kind))
    case h_7 kind =>
      exact .behind (.expect_andThen fun _ isDot => .expect_andThen fun _ isMethod =>
        .ended rfl (.super kind isDot isMethod))
    case h_8 kind => exact .behind (.ended rfl (.var kind))
    case h_9 kind =>
      exact .behind (.andThen (assignment_sound true next) fun _ derived => .expect_map fun isClosing =>
        .grouping kind derived isClosing)
    case h_10 => exact .failed
termination_by 32 * start.size
decreasing_by all_goals omega
end

/-! Declarations and statements. -/

theorem clause_sound (ending : TokenKind) (what : Expected) (start : Position) :
    (clause ending what start).Spells start.rest fun words expr after =>
      ∃ others last, words = others ++ [last] ∧ last.kind = ending ∧
        OptionalExpr start.supply others expr after.supply := by
  rw [clause]
  split
  · exact .expect_map fun isLast => ⟨[], _, rfl, isLast, .absent⟩
  · exact .andThen (assignment_sound true start) fun _ derived => .expect_map fun isLast =>
      ⟨_, _, rfl, isLast, .present derived⟩

theorem expressionStatement_sound (start : Position) :
    (expressionStatement start).Spells start.rest fun words stmt after =>
      ExprStmt start.supply words stmt after.supply := by
  rw [expressionStatement]
  exact .andThen (assignment_sound true start) fun _ derived => .expect_map fun isLast =>
    .intro derived isLast

theorem varDeclaration_sound {keyword : Token} (isVar : keyword.kind = .varWord)
    (start : Position) :
    (varDeclaration start).Spells start.rest fun words stmt after =>
      VarDecl start.supply (keyword :: words) stmt after.supply := by
  rw [varDeclaration]
  refine .expect_andThen fun {name others} _ isName => ?_
  split
  · rename_i equals next consumed accepted
    obtain ⟨same, isEqual⟩ := Position.eq_of_accept? accepted
    obtain ⟨rfl, supply⟩ := Position.mk.inj same
    rw [supply]
    exact .behind (.andThen (assignment_sound true next) fun _ derived => .expect_map fun isLast =>
      .initialized isVar isName (by simpa using isEqual) derived isLast)
  · exact .expect_map fun isLast => .bare isVar isName isLast

theorem forInitializer_sound (start : Position) :
    (forInitializer start).Spells start.rest fun words stmt after =>
      ForInitializer start.supply words stmt after.supply := by
  rw [forInitializer]
  split
  · rename_i semicolon next consumed accepted
    obtain ⟨rfl, isSemicolon⟩ := Position.eq_of_accept? accepted
    exact .behind (.ended rfl (.absent (by simpa using isSemicolon)))
  split
  · rename_i keyword next consumed accepted
    obtain ⟨rfl, isVar⟩ := Position.eq_of_accept? accepted
    exact .behind (.map (varDeclaration_sound (by simpa using isVar) next) .declared)
  · exact .map (expressionStatement_sound start) .expression

theorem parameterList_sound (count : Nat) (start : Position) :
    (parameterList count start).Spells start.rest fun words names after =>
      after.supply = start.supply ∧ count + names.length ≤ maxArity ∧ Names words names := by
  rw [parameterList]
  refine .noting fun unnoted => ?_
  have room : count < maxArity := by
    by_contra full
    simp [Nat.le_of_not_lt full] at unnoted
  refine .expect_andThen fun {name others} shorter isName => ?_
  split
  · rename_i comma next consumed accepted
    obtain ⟨same, isComma⟩ := Position.eq_of_accept? accepted
    obtain ⟨rfl, supply⟩ := Position.mk.inj same
    rw [supply]
    refine .behind (.map (parameterList_sound (count + 1) next) ?_)
    rintro words names last ⟨sameSupply, bounded, listed⟩
    refine ⟨sameSupply, ?_, .more isName (by simpa using isComma) listed⟩
    simp only [List.length_cons]
    omega
  · exact .ended rfl ⟨rfl, room, .last isName⟩
termination_by start.size
decreasing_by all_goals omega

theorem parameters_sound (start : Position) :
    (parameters start).Spells start.rest fun words names after =>
      ∃ others closing, words = others ++ [closing] ∧ closing.kind = .rightParen ∧
        after.supply = start.supply ∧ Parameters others names := by
  rw [parameters]
  split
  · exact .expect_map fun isClosing => ⟨[], _, rfl, isClosing, rfl, .absent⟩
  · refine .andThen (parameterList_sound 0 start) ?_
    rintro words names after _ ⟨supply, bounded, listed⟩
    exact .expect_map fun isClosing => ⟨words, _, rfl, isClosing, supply,
      .present listed (by simpa [maxArity] using bounded)⟩

theorem recover_unnoted {bound : Nat} {parsed : Parsed Stmt bound} {positive : 0 < bound}
    {found : Option Stmt} {after : Position} {shorter : after.size < bound}
    (recovered : recover parsed positive = ⟨found, [], after, shorter⟩) :
    ∃ stmt, found = some stmt ∧ parsed.Yields stmt after := by
  cases parsed with
  | done stmt notes last shorter' =>
      simp only [recover, Recovered.mk.injEq] at recovered
      obtain ⟨rfl, rfl, rfl⟩ := recovered
      exact ⟨stmt, rfl, shorter', rfl⟩
  | stuck cause notes last fits =>
      have noted := congrArg Recovered.notes recovered
      simp [recover] at noted

/-- No `else` is left that an open statement could have taken. -/
def Unclaimed (isOpen : Bool) (rest : List Token) : Prop :=
  isOpen = true → ∀ token ∈ rest.head?, token.kind ≠ .elseWord

def ReadsStatement (start : Supply) (words : List Token) (stmt : Stmt) (after : Position) : Prop :=
  ∃ isOpen, StmtDerives true (.statement isOpen) start words stmt after.supply ∧
    Unclaimed isOpen after.rest

def ReadsBraced (clause : Clause) (start : Supply) (words : List Token) (tree : clause.Tree)
    (after : Position) : Prop :=
  ∃ others closing, words = others ++ [closing] ∧ closing.kind = .rightBrace ∧
    StmtDerives true clause start others tree after.supply

mutual
theorem declaration_sound (start : Position) :
    (declaration start).Spells start.rest fun words stmt after =>
      ∃ isOpen, StmtDerives true (.declaration isOpen) start.supply words stmt after.supply := by
  rw [declaration]
  split
  · rename_i keyword next consumed accepted
    obtain ⟨rfl, isClass⟩ := Position.eq_of_accept? accepted
    exact .behind (.within (classDeclaration_sound (by simpa using isClass) next))
  split
  · rename_i keyword next consumed accepted
    obtain ⟨rfl, isFun⟩ := Position.eq_of_accept? accepted
    exact .behind (.map (function_sound .function next) fun derived =>
      ⟨false, .funDecl (by simpa using isFun) derived⟩)
  split
  · rename_i keyword next consumed accepted
    obtain ⟨rfl, isVar⟩ := Position.eq_of_accept? accepted
    exact .behind (.within (.imp (varDeclaration_sound (by simpa using isVar) next) fun declared =>
      ⟨false, .varDecl declared⟩))
  · exact .imp (statement_sound start) fun ⟨isOpen, derived, _⟩ => ⟨isOpen, .statement derived⟩
termination_by 8 * start.size + 2
decreasing_by all_goals omega

theorem classDeclaration_sound {keyword : Token} (isClass : keyword.kind = .classWord)
    (start : Position) :
    (classDeclaration start).Spells start.rest fun words stmt after => ∃ isOpen,
      StmtDerives true (.declaration isOpen) start.supply (keyword :: words) stmt after.supply := by
  rw [classDeclaration]
  refine .expect_andThen fun {name others} shorter isName => ?_
  split
  · rename_i less next consumed accepted
    have behind := consumed.trans shorter
    obtain ⟨same, isLess⟩ := Position.eq_of_accept? accepted
    obtain ⟨rfl, supply⟩ := Position.mk.inj same
    rw [supply]
    refine .behind (.expect_andThen fun {parent others} shorter' isParent => ?_)
    refine .expect_andThen fun opened isOpening => .map (methods_sound _) ?_
    rintro _ found last ⟨words, closing, rfl, isClosing, derived⟩
    exact ⟨false, .subclassDecl isClass isName (by simpa using isLess) isParent isOpening derived
      isClosing⟩
  · refine .expect_andThen fun opened isOpening => .map (methods_sound _) ?_
    rintro _ found last ⟨words, closing, rfl, isClosing, derived⟩
    exact ⟨false, .classDecl isClass isName isOpening derived isClosing⟩
termination_by 8 * start.size
decreasing_by all_goals simp only [Position.size, Position.skipExprId] at *; omega

theorem methods_sound (start : Position) :
    (methods start).Spells start.rest (ReadsBraced .functions start.supply) := by
  rw [methods]
  split
  · exact .expect_map fun isClosing => ⟨[], _, rfl, isClosing, .noMethod⟩
  · refine .andThen (function_sound .method start) fun shorter derived => ?_
    refine .map (methods_sound _) ?_
    rintro _ found last ⟨words, closing, rfl, isClosing, derived'⟩
    exact ⟨_, closing, (List.append_assoc _ _ _).symm, isClosing, .nextMethod derived derived'⟩
termination_by 8 * start.size + 1
decreasing_by all_goals omega

theorem function_sound (kind : FunctionKind) (start : Position) :
    (function kind start).Spells start.rest fun words decl after =>
      StmtDerives true .function start.supply words decl after.supply := by
  rw [function]
  refine .expect_andThen fun shorter isName => .expect_andThen fun opened isParen => ?_
  refine .andThen (parameters_sound _) ?_
  rintro _ params ⟨afterParams, _⟩ closed ⟨paramWords, closing, rfl, isClosing, rfl, listed⟩
  refine .expect_andThen fun entered isOpening => .andThen (block_sound _) ?_
  rintro _ body after ended ⟨words, brace, rfl, isBrace, derived⟩
  refine .ended rfl ?_
  simpa using .function isName isParen listed isClosing isOpening derived isBrace
termination_by 8 * start.size
decreasing_by all_goals simp only [Position.size] at *; omega

theorem block_sound (start : Position) :
    (block start).Spells start.rest (ReadsBraced .declarations start.supply) := by
  rw [block]
  split
  · exact .expect_map fun isClosing => ⟨[], _, rfl, isClosing, .none⟩
  · split
    rename_i found notes middle shorter recovered
    refine .noting fun unnoted => ?_
    subst unnoted
    obtain ⟨stmt, rfl, first⟩ := recover_unnoted recovered
    obtain ⟨words, rest, isOpen, derived⟩ := declaration_sound start stmt middle first
    intro stmts last yields
    obtain ⟨others, second, rfl⟩ := Parsed.yields_map.mp yields
    obtain ⟨_, rest', lastWords, closing, rfl, isClosing, derived'⟩ :=
      block_sound middle others last second
    exact ⟨_, by simp [rest, rest'], _, closing, (List.append_assoc _ _ _).symm,
      isClosing, .next derived derived'⟩
termination_by 8 * start.size + 3
decreasing_by all_goals omega

theorem statement_sound (start : Position) :
    (statement start).Spells start.rest (ReadsStatement start.supply) := by
  have closed : (expressionStatement start).Spells start.rest (ReadsStatement start.supply) :=
    .imp (expressionStatement_sound start) fun derived => ⟨false, .exprStmt derived, nofun⟩
  rw [statement]
  split
  · exact .within closed
  · rename_i token next consumed accepted
    obtain ⟨rfl, -⟩ := Position.eq_of_accept? accepted
    split
    case h_1 kind => exact .behind (.within (forStatement_sound kind next))
    case h_2 kind => exact .behind (.within (ifStatement_sound kind next))
    case h_3 kind =>
      rw [printStatement]
      exact .behind (.within (.andThen (assignment_sound true next) fun _ derived =>
        .expect_map fun isLast => ⟨false, .print kind derived isLast, nofun⟩))
    case h_4 kind =>
      rw [returnStatement]
      refine .behind (.within (.map (clause_sound _ _ next) ?_))
      rintro _ value last ⟨words, semicolon, rfl, isLast, derived⟩
      exact ⟨false, .returnStmt kind derived isLast, nofun⟩
    case h_5 kind => exact .behind (.within (whileStatement_sound kind next))
    case h_6 kind =>
      refine .behind (.map (block_sound next) ?_)
      rintro _ body last ⟨words, closing, rfl, isClosing, derived⟩
      exact ⟨false, .block kind derived isClosing, nofun⟩
    case h_7 => exact closed
termination_by 8 * start.size + 1
decreasing_by all_goals omega

theorem forStatement_sound {keyword : Token} (isFor : keyword.kind = .forWord) (start : Position) :
    (forStatement start).Spells start.rest fun words =>
      ReadsStatement start.supply (keyword :: words) := by
  rw [forStatement]
  refine .expect_andThen fun opened isOpening => ?_
  refine .andThen (forInitializer_sound _) fun shorter initialized => ?_
  refine .andThen (clause_sound _ _ _) ?_
  rintro _ condition atIncrement shorter' ⟨conditionWords, semicolon, rfl, isSemicolon, conditional⟩
  refine .andThen (clause_sound _ _ _) ?_
  rintro _ increment atBody closed ⟨incrementWords, closing, rfl, isClosing, incremented⟩
  refine .map (statement_sound atBody) ?_
  rintro words body last ⟨isOpen, derived, unclaimed⟩
  refine ⟨isOpen, ?_, unclaimed⟩
  rw [← expansion_eq_forLoop]
  simpa using .forLoop isFor isOpening initialized conditional isSemicolon incremented isClosing derived
termination_by 8 * start.size
decreasing_by all_goals omega

theorem ifStatement_sound {keyword : Token} (isIf : keyword.kind = .ifWord) (start : Position) :
    (ifStatement start).Spells start.rest fun words =>
      ReadsStatement start.supply (keyword :: words) := by
  rw [ifStatement]
  refine .expect_andThen fun opened isOpening => ?_
  refine .andThen (assignment_sound true _) fun shorter conditional => ?_
  refine .expect_andThen fun closed isClosing => ?_
  refine .andThen (statement_sound _) ?_
  rintro thenWords thenBranch middle shorter' ⟨thenOpen, thenDerived, unclaimed⟩
  split
  · rename_i elseWord next consumed accepted
    obtain ⟨rfl, isElse⟩ := Position.eq_of_accept? accepted
    have isElse : elseWord.kind = .elseWord := by simpa using isElse
    -- An open statement would have taken the `else` that follows.
    have notOpen : thenOpen = false := by
      by_contra isOpen
      exact unclaimed (by simpa using isOpen) elseWord rfl isElse
    refine .behind (.map (statement_sound next) ?_)
    rintro elseWords elseBranch last ⟨isOpen, elseDerived, unclaimed⟩
    exact ⟨isOpen, .ifElse isIf isOpening conditional isClosing thenDerived (fun _ => notOpen) isElse
      elseDerived, unclaimed⟩
  · rename_i refused
    refine .ended rfl ⟨true, ?_, ?_⟩
    · simpa using .ifThen isIf isOpening conditional isClosing thenDerived
    · intro _ token first
      simpa using Position.accept?_eq_none refused token first
termination_by 8 * start.size
decreasing_by all_goals omega

theorem whileStatement_sound {keyword : Token} (isWhile : keyword.kind = .whileWord)
    (start : Position) :
    (whileStatement start).Spells start.rest fun words =>
      ReadsStatement start.supply (keyword :: words) := by
  rw [whileStatement]
  refine .expect_andThen fun opened isOpening => ?_
  refine .andThen (assignment_sound true _) fun shorter conditional => ?_
  refine .expect_andThen fun closed isClosing => .map (statement_sound _) ?_
  rintro words body last ⟨isOpen, derived, unclaimed⟩
  exact ⟨isOpen, .whileLoop isWhile isOpening conditional isClosing derived, unclaimed⟩
termination_by 8 * start.size
decreasing_by all_goals omega
end

end Parse

end Lox
