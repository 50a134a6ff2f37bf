import Lox.Proofs.Parse.Sound

/-!
What the grammar derives is read without a note, and exactly that far. A phrase is read up to a token
that cannot continue it; that token is all the rules look at beyond the phrase.
-/

namespace Lox

open Grammar

namespace Grammar

def Begins (kinds : TokenKind → Bool) (words : List Token) : Prop :=
  ∃ first others, words = first :: others ∧ kinds first.kind = true

theorem Begins.append {kinds : TokenKind → Bool} {words : List Token} (begins : Begins kinds words)
    (others : List Token) : Begins kinds (words ++ others) := by
  obtain ⟨first, tail, rfl, kind⟩ := begins
  exact ⟨first, tail ++ others, rfl, kind⟩

theorem Begins.mono {kinds kinds' : TokenKind → Bool} {words : List Token}
    (begins : Begins kinds words) (more : ∀ kind, kinds kind = true → kinds' kind = true) :
    Begins kinds' words := by
  obtain ⟨first, others, same, kind⟩ := begins
  exact ⟨first, others, same, more _ kind⟩

theorem Begins.accept? {kinds accepted : TokenKind → Bool} {words : List Token}
    (begins : Begins kinds words) (excluded : ∀ kind, kinds kind = true → accepted kind = false)
    (rest : List Token) (supply : Supply) :
    Position.accept? ⟨words ++ rest, supply⟩ accepted = none := by
  obtain ⟨first, others, rfl, kind⟩ := begins
  refine Position.accept?_none fun token isFirst => ?_
  obtain rfl : first = token := by simpa using isFirst
  exact excluded _ kind

def beginsPrimary (kind : TokenKind) : Bool :=
  kind = .falseWord || kind = .trueWord || kind = .nilWord || kind = .number || kind = .string ||
    kind = .thisWord || kind = .superWord || kind = .identifier || kind = .leftParen

def beginsExpression (kind : TokenKind) : Bool :=
  beginsPrimary kind || kind = .bang || kind = .minus

def Phrase.begins : Phrase → TokenKind → Bool
  | call | primary => beginsPrimary
  | _ => beginsExpression

theorem ExprDerives.begins {phrase : Phrase} {start after : Supply} {words : List Token}
    {tree : phrase.Tree} (derived : ExprDerives phrase start words tree after) :
    Begins phrase.begins words := by
  induction derived with
  | plain _ ih | unconditional _ ih | uncalled _ ih | argument _ ih => exact ih
  | unsigned _ ih => exact ih.mono fun kind holds => by simp_all [Phrase.begins, beginsExpression]
  | @single level _ _ _ _ _ ih => exact ih
  | assign _ _ _ ih _ | set _ _ _ ih _ | choice _ _ _ _ _ ih _ _ | operation _ _ _ ih _
  | callEmpty _ _ _ ih | call _ _ _ _ _ ih _ | get _ _ _ ih | nextArgument _ _ _ ih _ =>
      exact ih.append _
  | negation kind _ _ => exact ⟨_, _, rfl, by rcases kind with kind | kind <;>
      simp [Phrase.begins, beginsExpression, kind]⟩
  | falseWord kind | trueWord kind | nilWord kind | this kind | super kind _ _ | var kind
  | grouping kind _ _ _ => exact ⟨_, _, rfl, by simp [Phrase.begins, beginsPrimary, kind]⟩
  | literal kind _ => exact ⟨_, _, rfl, by rcases kind with kind | kind <;>
      simp [Phrase.begins, beginsPrimary, kind]⟩

def strength : Option Level → Nat
  | some level => level.rank
  | none => 0

theorem strength_operandLevel (level : Level) : strength (operandLevel? level) < level.rank := by
  cases level <;> decide

def Joins (looseness : Nat) (kind : TokenKind) : Prop :=
  kind = .leftParen ∨ kind = .dot ∨
    ∃ level, operatorLevel? kind = some level ∧ level.rank ≤ looseness

/-- The kinds that a phrase takes in if one of them follows it. -/
def Phrase.Continues : Phrase → TokenKind → Prop
  | assignment comma, kind =>
      Joins (conditionLevel comma).rank kind ∨ kind = .question ∨ kind = .equal
  | conditional comma, kind => Joins (conditionLevel comma).rank kind ∨ kind = .question
  | chain level, kind => Joins (strength level) kind
  | call, kind => Joins 0 kind
  | primary, _ | arguments, _ => False

def Stops (phrase : Phrase) (rest : List Token) : Prop :=
  ∀ token ∈ rest.head?, ¬ phrase.Continues token.kind

theorem Stops.mono {phrase phrase' : Phrase} {rest : List Token} (stops : Stops phrase rest)
    (fewer : ∀ kind, phrase'.Continues kind → phrase.Continues kind) : Stops phrase' rest :=
  fun token first continued => stops token first (fewer _ continued)

theorem Joins.mono {looseness looser : Nat} {kind : TokenKind} (joins : Joins looseness kind)
    (bound : looseness ≤ looser) : Joins looser kind := by
  rcases joins with paren | dot | ⟨level, found, fits⟩
  · exact .inl paren
  · exact .inr (.inl dot)
  · exact .inr (.inr ⟨level, found, by omega⟩)

theorem Stops.cons {phrase : Phrase} {token : Token} {rest : List Token}
    (stops : ¬ phrase.Continues token.kind) : Stops phrase (token :: rest) := by
  intro other first
  obtain rfl : token = other := by simpa using first
  exact stops

theorem stops_operator {level : Level} {operator : Token} {rest : List Token}
    (found : operatorLevel? operator.kind = some level) :
    Stops (.chain (operandLevel? level)) (operator :: rest) := by
  have tighter := strength_operandLevel level
  refine .cons ?_
  rintro (paren | dot | ⟨other, found', fits⟩)
  · simp [paren, operatorLevel?] at found
  · simp [dot, operatorLevel?] at found
  · obtain rfl : level = other := by simpa [found] using found'
    omega

theorem Stops.operand {level : Level} {rest : List Token} (stops : Stops (.level level) rest) :
    Stops (.chain (operandLevel? level)) rest :=
  stops.mono fun _ joins => joins.mono (Nat.le_of_lt (strength_operandLevel level))

theorem Stops.condition {comma : Bool} {rest : List Token} (stops : Stops (.conditional comma) rest) :
    Stops (.level (conditionLevel comma)) rest :=
  stops.mono fun _ => .inl

theorem Stops.conditional {comma : Bool} {rest : List Token}
    (stops : Stops (.assignment comma) rest) : Stops (.conditional comma) rest :=
  stops.mono fun _ => Or.imp_right .inl

theorem Stops.accept? {phrase : Phrase} {rest : List Token} (stops : Stops phrase rest)
    {supply : Supply} {accepted : TokenKind → Bool}
    (continues : ∀ kind, accepted kind = true → phrase.Continues kind) :
    Position.accept? ⟨rest, supply⟩ accepted = none := by
  refine Position.accept?_none fun token first => ?_
  by_contra holds
  exact stops token first (continues _ (by simpa using holds))

theorem not_continues_assignment {comma : Bool} {kind : TokenKind}
    (ends : kind = .semicolon ∨ kind = .rightParen ∨ kind = .colon) :
    ¬ (Phrase.assignment comma).Continues kind := by
  rcases ends with rfl | rfl | rfl <;> simp [Phrase.Continues, Joins, operatorLevel?]

theorem not_continues_argument : ¬ (Phrase.assignment false).Continues .comma := by
  simp [Phrase.Continues, Joins, operatorLevel?, conditionLevel, Level.rank]

end Grammar

namespace Parse

/-- What reading a derived phrase comes to, whatever stands behind it. A chain is read as far as its
last operand, and what follows is left to the loop that reads chains; so are calls. -/
def Complete : (phrase : Phrase) → Supply → List Token → phrase.Tree → Supply → Prop
  | .assignment comma, start, words, expr, after =>
      ∀ rest, Stops (.assignment comma) rest →
        (assignment comma ⟨words ++ rest, start⟩).Yields expr ⟨rest, after⟩
  | .conditional comma, start, words, expr, after =>
      ∀ rest, Stops (.conditional comma) rest →
        (conditional comma ⟨words ++ rest, start⟩).Yields expr ⟨rest, after⟩
  | .chain (some level), start, words, expr, after =>
      ∀ rest found last, Stops (.chain (operandLevel? level)) rest →
        (chainTail level expr ⟨rest, after⟩).Yields found last →
        (chain level ⟨words ++ rest, start⟩).Yields found last
  | .chain none, start, words, expr, after =>
      ∀ rest, Stops .unary rest → (unary ⟨words ++ rest, start⟩).Yields expr ⟨rest, after⟩
  | .call, start, words, expr, after =>
      ∀ rest found last, (callTail expr ⟨rest, after⟩).Yields found last →
        (unary ⟨words ++ rest, start⟩).Yields found last
  | .primary, start, words, expr, after =>
      ∀ rest, (primary ⟨words ++ rest, start⟩).Yields expr ⟨rest, after⟩
  | .arguments, start, words, exprs, after =>
      ∀ count closing rest, closing.kind = .rightParen → count + exprs.length ≤ maxArity →
        (argumentList count ⟨words ++ closing :: rest, start⟩).Yields (exprs, closing)
          ⟨rest, after⟩

theorem chainTail_stops {level : Level} {expr : Expr} {rest : List Token} {supply : Supply}
    (stops : Stops (.level level) rest) :
    (chainTail level expr ⟨rest, supply⟩).Yields expr ⟨rest, supply⟩ := by
  rw [chainTail, stops.accept?]
  · exact Parsed.yields_done.mpr ⟨rfl, rfl, rfl⟩
  · intro kind accepted
    exact .inr (.inr ⟨level, (level.accepts_iff kind).mp accepted, Nat.le_refl _⟩)

theorem callTail_stops {level : Option Level} {expr : Expr} {rest : List Token} {supply : Supply}
    (stops : Stops (.chain level) rest) :
    (callTail expr ⟨rest, supply⟩).Yields expr ⟨rest, supply⟩ := by
  rw [callTail, stops.accept?]
  · dsimp only
    rw [stops.accept?]
    · exact Parsed.yields_done.mpr ⟨rfl, rfl, rfl⟩
    · exact fun kind accepted => .inr (.inl (by simpa using accepted))
  · exact fun kind accepted => .inl (by simpa using accepted)

theorem chain_complete {level : Level} {start after : Supply} {words rest : List Token}
    {expr : Expr} (complete : Complete (.level level) start words expr after)
    (stops : Stops (.level level) rest) :
    (chain level ⟨words ++ rest, start⟩).Yields expr ⟨rest, after⟩ :=
  complete rest expr ⟨rest, after⟩ stops.operand (chainTail_stops stops)

theorem operand_complete {level : Level} {start after : Supply} {words rest : List Token}
    {expr : Expr} (complete : Complete (.chain (operandLevel? level)) start words expr after)
    (stops : Stops (.chain (operandLevel? level)) rest) :
    (operand level ⟨words ++ rest, start⟩).Yields expr ⟨rest, after⟩ := by
  rw [operand]
  split
  · rename_i next found
    rw [Level.tighter_eq] at found
    rw [found] at complete stops
    exact chain_complete complete stops
  · rename_i found
    rw [Level.tighter_eq] at found
    rw [found] at complete stops
    exact complete rest stops

theorem complete_assigned {comma : Bool} {start middle after : Supply} {words others : List Token}
    {target value expr : Expr} {equals : Token}
    (targetComplete : Complete (.conditional comma) start words target middle)
    (isEqual : equals.kind = .equal)
    (valueComplete : Complete (.assignment comma) middle others value after)
    (assigned : target.assigned? value = some expr) :
    Complete (.assignment comma) start (words ++ equals :: others) expr after := by
  intro rest stops
  have stopsAtEquals : Stops (.conditional comma) (equals :: (others ++ rest)) :=
    .cons (by rw [isEqual]; simp [Phrase.Continues, Joins, operatorLevel?])
  rw [List.append_assoc, List.cons_append, assignment]
  refine (targetComplete _ stopsAtEquals).andThen ?_
  rw [Position.accept?_cons (by simpa using isEqual)]
  refine (valueComplete rest stops).andThen ?_
  simp [assigned]

theorem complete_of_exprDerives {phrase : Phrase} {start after : Supply} {words : List Token}
    {tree : phrase.Tree} (derived : ExprDerives phrase start words tree after) :
    Complete phrase start words tree after := by
  induction derived with
  | plain _ ih =>
      intro rest stops
      rw [assignment]
      refine (ih rest stops.conditional).andThen ?_
      rw [stops.accept? fun kind accepted => .inr (.inr (by simpa using accepted))]
      exact Parsed.yields_done.mpr ⟨rfl, rfl, rfl⟩
  | assign _ isEqual _ ih ih' => exact complete_assigned ih isEqual ih' rfl
  | set _ isEqual _ ih ih' => exact complete_assigned ih isEqual ih' rfl
  | unconditional _ ih =>
      intro rest stops
      rw [conditional]
      refine (chain_complete ih stops.condition).andThen ?_
      rw [stops.accept? fun kind accepted => .inr (by simpa using accepted)]
      exact Parsed.yields_done.mpr ⟨rfl, rfl, rfl⟩
  | @choice comma start words condition atThen question thenWords thenBranch atElse colon elseWords
      elseBranch after _ isQuestion _ isColon _ ih ih' ih'' =>
      intro rest stops
      have stopsAtQuestion : Stops (.level (conditionLevel comma))
          (question :: (thenWords ++ colon :: (elseWords ++ rest))) :=
        .cons (by rw [isQuestion]; simp [Phrase.Continues, Joins, operatorLevel?])
      have stopsAtColon : Stops .expression (colon :: (elseWords ++ rest)) :=
        .cons (not_continues_assignment (.inr (.inr isColon)))
      have regrouped : words ++ question :: (thenWords ++ colon :: elseWords) ++ rest =
          words ++ question :: (thenWords ++ colon :: (elseWords ++ rest)) := by simp
      rw [regrouped, conditional]
      refine (chain_complete ih stopsAtQuestion).andThen ?_
      rw [Position.accept?_cons (by simpa using isQuestion)]
      refine (ih' _ stopsAtColon).andThen ?_
      refine (Position.yields_expect_cons isColon).andThen ?_
      exact (ih'' rest stops).map
  | single _ ih =>
      intro rest found last stops continued
      rw [chain]
      exact (operand_complete ih stops).andThen (Parsed.yields_within.mpr continued)
  | @operation level start words left middle operator others right after _ isOperator _ ih ih' =>
      intro rest found last stops continued
      rw [List.append_assoc]
      refine ih (operator :: others ++ rest) found last (stops_operator isOperator) ?_
      rw [List.cons_append, chainTail,
        Position.accept?_cons ((level.accepts_iff _).mpr isOperator), Level.combine_eq]
      exact (operand_complete ih' stops).andThen (Parsed.yields_within.mpr continued)
  | negation kind _ ih =>
      intro rest stops
      rw [List.cons_append, unary, Position.accept?_cons (by simpa using kind)]
      exact (ih rest stops).map
  | unsigned _ ih =>
      intro rest stops
      exact ih rest _ _ (callTail_stops stops)
  | uncalled derived ih =>
      intro rest found last continued
      rw [unary, derived.begins.accept? (by intro kind; cases kind <;> decide)]
      exact (ih rest).andThen (Parsed.yields_within.mpr continued)
  | @callEmpty _ _ _ after _ closing _ isOpening isClosing ih =>
      intro rest found last continued
      rw [List.append_assoc]
      refine ih _ found last ?_
      rw [List.cons_append, callTail, Position.accept?_cons (by simpa using isOpening)]
      have empty : (arguments ⟨closing :: rest, after⟩).Yields ([], closing) ⟨rest, after⟩ := by
        rw [arguments, Position.accept?_cons (by simpa using isClosing)]
        exact Parsed.yields_done.mpr ⟨rfl, rfl, rfl⟩
      exact empty.andThen (Parsed.yields_within.mpr continued)
  | @call start words callee middle opening others exprs after closing _ isOpening derived bounded
      isClosing ih ih' =>
      intro rest found last continued
      have regrouped : words ++ opening :: (others ++ [closing]) ++ rest =
          words ++ opening :: (others ++ closing :: rest) := by simp
      rw [regrouped]
      refine ih _ found last ?_
      rw [callTail, Position.accept?_cons (by simpa using isOpening)]
      have given : (arguments ⟨others ++ closing :: rest, middle⟩).Yields (exprs, closing)
          ⟨rest, after⟩ := by
        rw [arguments, derived.begins.accept? (by intro kind; cases kind <;> decide)]
        exact ih' 0 closing rest isClosing (by simpa [maxArity] using bounded)
      exact given.andThen (Parsed.yields_within.mpr continued)
  | get _ isDot isName ih =>
      intro rest found last continued
      rw [List.append_assoc]
      refine ih _ found last ?_
      rw [List.cons_append, callTail, Position.accept?_none (by simp [isDot])]
      dsimp only
      rw [Position.accept?_cons (by simpa using isDot)]
      exact (Position.yields_expect_cons isName).andThen (Parsed.yields_within.mpr continued)
  | argument _ ih =>
      intro count closing rest isClosing bounded
      have stops : Stops (.assignment false) (closing :: rest) :=
        .cons (not_continues_assignment (.inr (.inl isClosing)))
      have room : ¬ maxArity ≤ count := Nat.not_le.mpr bounded
      rw [argumentList]
      refine Parsed.yields_noting.mpr ⟨by simp [room], (ih _ stops).andThen ?_⟩
      rw [Position.accept?_none (by simp [isClosing])]
      exact (Position.yields_expect_cons isClosing).map
  | @nextArgument start words expr middle comma others exprs after _ isComma _ ih ih' =>
      intro count closing rest isClosing bounded
      have stops : Stops (.assignment false) (comma :: (others ++ closing :: rest)) :=
        .cons (isComma ▸ not_continues_argument)
      have bounded' : count + 1 + exprs.length ≤ maxArity := by
        rw [List.length_cons] at bounded
        omega
      have room : ¬ maxArity ≤ count := by omega
      rw [List.append_assoc, List.cons_append, argumentList]
      refine Parsed.yields_noting.mpr ⟨by simp [room], (ih _ stops).andThen ?_⟩
      rw [Position.accept?_cons (by simpa using isComma)]
      exact (ih' (count + 1) closing rest isClosing bounded').map
  | falseWord kind | trueWord kind | nilWord kind | this kind | var kind =>
      intro rest
      rw [List.cons_append, primary, Position.accept?_cons rfl]
      simp only [kind]
      exact Parsed.yields_done.mpr ⟨rfl, rfl, rfl⟩
  | super kind isDot isMethod =>
      intro rest
      rw [List.cons_append, primary, Position.accept?_cons rfl]
      simp only [kind]
      refine (Position.yields_expect_cons isDot).andThen ?_
      refine (Position.yields_expect_cons isMethod).andThen ?_
      exact Parsed.yields_done.mpr ⟨rfl, rfl, rfl⟩
  | literal kind given =>
      intro rest
      rw [List.cons_append, primary, Position.accept?_cons rfl]
      rcases kind with kind | kind
      · simp only [kind, given]
        exact Parsed.yields_done.mpr ⟨rfl, rfl, rfl⟩
      · simp only [kind, given]
        exact Parsed.yields_done.mpr ⟨rfl, rfl, rfl⟩
  | @grouping start opening words inner after closing isOpening _ isClosing ih =>
      intro rest
      have stops : Stops .expression (closing :: rest) :=
        .cons (not_continues_assignment (.inr (.inl isClosing)))
      have regrouped : words ++ [closing] ++ rest = words ++ closing :: rest := by simp
      rw [List.cons_append, regrouped, primary, Position.accept?_cons rfl]
      simp only [isOpening]
      exact (ih _ stops).andThen (Position.yields_expect_cons isClosing).map

/-! Declarations and statements. -/

theorem expression_complete {start after : Supply} {words : List Token} {expr : Expr}
    (derived : ExprDerives .expression start words expr after) {last : Token}
    (ends : last.kind = .semicolon ∨ last.kind = .rightParen ∨ last.kind = .colon)
    (rest : List Token) :
    (assignment true ⟨words ++ last :: rest, start⟩).Yields expr ⟨last :: rest, after⟩ :=
  complete_of_exprDerives derived _ (.cons (not_continues_assignment ends))

theorem clause_complete {start after : Supply} {words : List Token} {expr : Option Expr}
    (derived : OptionalExpr start words expr after) {last : Token} {ending : TokenKind}
    (kind : last.kind = ending) (ends : ending = .semicolon ∨ ending = .rightParen)
    (what : Expected) (rest : List Token) :
    (clause ending what ⟨words ++ last :: rest, start⟩).Yields expr ⟨rest, after⟩ := by
  subst kind
  rw [clause]
  cases derived with
  | absent =>
      rw [List.nil_append, if_pos ((Position.isAt_cons ..).mpr rfl)]
      exact (Position.yields_expect_cons rfl).map
  | present derived =>
      obtain ⟨first, others, rfl, isFirst⟩ := derived.begins
      have elsewhere : ¬ Position.isAt ⟨first :: others ++ last :: rest, start⟩ last.kind = true := by
        rw [List.cons_append, Position.isAt_cons]
        intro same
        rw [same] at isFirst
        rcases ends with ends | ends <;> rw [ends] at isFirst <;> exact absurd isFirst (by decide)
      rw [if_neg elsewhere]
      exact (expression_complete derived (ends.imp_right .inl) rest).andThen
        (Position.yields_expect_cons rfl).map

theorem expressionStatement_complete {start after : Supply} {words : List Token} {stmt : Stmt}
    (derived : ExprStmt start words stmt after) (rest : List Token) :
    (expressionStatement ⟨words ++ rest, start⟩).Yields stmt ⟨rest, after⟩ := by
  cases derived with
  | intro derived isSemicolon =>
      rw [List.append_assoc, expressionStatement]
      exact (expression_complete derived (.inl isSemicolon) rest).andThen
        (Position.yields_expect_cons isSemicolon).map

theorem varDeclaration_complete {start after : Supply} {keyword : Token} {words : List Token}
    {stmt : Stmt} (declared : VarDecl start (keyword :: words) stmt after) (rest : List Token) :
    (varDeclaration ⟨words ++ rest, start⟩).Yields stmt ⟨rest, after⟩ := by
  rw [varDeclaration]
  cases declared with
  | bare _ isName isSemicolon =>
      refine (Position.yields_expect_cons isName).andThen ?_
      rw [Position.accept?_none (by simp [isSemicolon])]
      exact (Position.yields_expect_cons isSemicolon).map
  | initialized _ isName isEqual derived isSemicolon =>
      rw [List.cons_append, List.cons_append, List.append_assoc]
      refine (Position.yields_expect_cons isName).andThen ?_
      rw [Position.accept?_cons (by simpa using isEqual)]
      exact (expression_complete derived (.inl isSemicolon) rest).andThen
        (Position.yields_expect_cons isSemicolon).map

theorem exprStmt_begins {start after : Supply} {words : List Token} {stmt : Stmt}
    (derived : ExprStmt start words stmt after) : Begins beginsExpression words := by
  cases derived with
  | intro derived _ => exact derived.begins.append _

theorem varDecl_begins {start after : Supply} {words : List Token} {stmt : Stmt}
    (declared : VarDecl start words stmt after) : Begins (· = .varWord) words := by
  cases declared with
  | bare isVar | initialized isVar => exact ⟨_, _, rfl, by simpa using isVar⟩

theorem forInitializer_complete {start after : Supply} {words : List Token} {stmt : Option Stmt}
    (derived : ForInitializer start words stmt after) (rest : List Token) :
    (forInitializer ⟨words ++ rest, start⟩).Yields stmt ⟨rest, after⟩ := by
  rw [forInitializer]
  cases derived with
  | absent isSemicolon =>
      rw [List.cons_append, Position.accept?_cons (by simpa using isSemicolon)]
      exact Parsed.yields_done.mpr ⟨rfl, rfl, rfl⟩
  | declared declared =>
      have begins := varDecl_begins declared
      rw [begins.accept? (by intro kind; cases kind <;> decide)]
      obtain ⟨keyword, others, rfl, isVar⟩ := begins
      dsimp only
      rw [List.cons_append, Position.accept?_cons isVar]
      exact (varDeclaration_complete declared rest).map
  | expression derived =>
      have begins := exprStmt_begins derived
      rw [begins.accept? (by intro kind; cases kind <;> decide)]
      dsimp only
      rw [begins.accept? (by intro kind; cases kind <;> decide)]
      exact (expressionStatement_complete derived rest).map

theorem parameterList_complete {words names : List Token} (listed : Names words names)
    {count : Nat} (bounded : count + names.length ≤ maxArity) {closing : Token}
    (isClosing : closing.kind = .rightParen) (rest : List Token) (supply : Supply) :
    (parameterList count ⟨words ++ closing :: rest, supply⟩).Yields names
      ⟨closing :: rest, supply⟩ := by
  induction listed generalizing count with
  | last isName =>
      have room : ¬ maxArity ≤ count := Nat.not_le.mpr bounded
      rw [parameterList]
      refine Parsed.yields_noting.mpr
        ⟨by simp [room], (Position.yields_expect_cons isName).andThen ?_⟩
      rw [Position.accept?_none (by simp [isClosing])]
      exact Parsed.yields_done.mpr ⟨rfl, rfl, rfl⟩
  | @more name comma words names isName isComma _ ih =>
      rw [List.length_cons] at bounded
      have room : ¬ maxArity ≤ count := by omega
      rw [List.cons_append, List.cons_append, parameterList]
      refine Parsed.yields_noting.mpr
        ⟨by simp [room], (Position.yields_expect_cons isName).andThen ?_⟩
      rw [Position.accept?_cons (by simpa using isComma)]
      exact (ih (by omega)).map

theorem parameters_complete {words names : List Token} (listed : Parameters words names)
    {closing : Token} (isClosing : closing.kind = .rightParen) (rest : List Token)
    (supply : Supply) :
    (parameters ⟨words ++ closing :: rest, supply⟩).Yields names ⟨rest, supply⟩ := by
  rw [parameters]
  cases listed with
  | absent =>
      rw [List.nil_append, if_pos ((Position.isAt_cons ..).mpr isClosing)]
      exact (Position.yields_expect_cons isClosing).map
  | present listed bounded =>
      have elsewhere :
          ¬ Position.isAt ⟨words ++ closing :: rest, supply⟩ .rightParen = true := by
        cases listed with
        | last isName | more isName => simp [Position.isAt_cons, isName]
      rw [if_neg elsewhere]
      exact (parameterList_complete listed (by simpa [maxArity] using bounded) isClosing rest
        supply).andThen (Position.yields_expect_cons isClosing).map

def beginsStatement (kind : TokenKind) : Bool :=
  beginsExpression kind || kind = .forWord || kind = .ifWord || kind = .printWord ||
    kind = .returnWord || kind = .whileWord || kind = .leftBrace

def beginsDeclaration (kind : TokenKind) : Bool :=
  beginsStatement kind || kind = .classWord || kind = .funWord || kind = .varWord

def beginsFunction (kind : TokenKind) : Bool := kind = .identifier

def clauseBegins : Clause → List Token → Prop
  | .declarations, words => words = [] ∨ Begins beginsDeclaration words
  | .declaration _, words => Begins beginsDeclaration words
  | .statement _, words => Begins beginsStatement words
  | .function, words => Begins beginsFunction words
  | .functions, words => words = [] ∨ Begins beginsFunction words

theorem clauseBegins_of_stmtDerives {nearest : Bool} {clause : Clause} {start after : Supply}
    {words : List Token} {tree : clause.Tree}
    (derived : StmtDerives nearest clause start words tree after) : clauseBegins clause words := by
  induction derived with
  | none | noMethod => exact .inl rfl
  | next _ _ ih _ | nextMethod _ _ ih _ => exact .inr (Begins.append ih _)
  | classDecl kind | subclassDecl kind | funDecl kind =>
      exact ⟨_, _, rfl, by simp [beginsDeclaration, kind]⟩
  | varDecl declared =>
      exact (varDecl_begins declared).mono fun kind holds => by simp_all [beginsDeclaration]
  | statement _ ih => exact Begins.mono ih fun kind holds => by simp_all [beginsDeclaration]
  | function kind => exact ⟨_, _, rfl, by simpa [beginsFunction] using kind⟩
  | exprStmt derived =>
      exact (exprStmt_begins derived).mono fun kind holds => by simp_all [beginsStatement]
  | forLoop kind | ifThen kind | ifElse kind | print kind | returnStmt kind | whileLoop kind
  | block kind => exact ⟨_, _, rfl, by simp [beginsStatement, kind]⟩

def StmtComplete : (clause : Clause) → Supply → List Token → clause.Tree → Supply → Prop
  | .declarations, start, words, stmts, after =>
      (∀ closing rest, closing.kind = .rightBrace →
        (block ⟨words ++ closing :: rest, start⟩).Yields stmts ⟨rest, after⟩) ∧
      declarations ⟨words, start⟩ = (stmts, [], after)
  | .declaration isOpen, start, words, stmt, after =>
      ∀ rest, Unclaimed isOpen rest →
        (declaration ⟨words ++ rest, start⟩).Yields stmt ⟨rest, after⟩
  | .statement isOpen, start, words, stmt, after =>
      ∀ rest, Unclaimed isOpen rest →
        (statement ⟨words ++ rest, start⟩).Yields stmt ⟨rest, after⟩
  | .function, start, words, decl, after =>
      ∀ kind rest, (function kind ⟨words ++ rest, start⟩).Yields decl ⟨rest, after⟩
  | .functions, start, words, decls, after =>
      ∀ closing rest, closing.kind = .rightBrace →
        (methods ⟨words ++ closing :: rest, start⟩).Yields decls ⟨rest, after⟩

theorem recover_of_yields {bound : Nat} {parsed : Parsed Stmt bound} {stmt : Stmt}
    {after : Position} (yields : parsed.Yields stmt after) (positive : 0 < bound) :
    recover parsed positive = ⟨some stmt, [], after, yields.size_lt⟩ := by
  obtain ⟨shorter, rfl⟩ := yields
  rfl

theorem unclaimed_of_begins {kinds : TokenKind → Bool} {words : List Token}
    (begins : Begins kinds words) (excluded : kinds .elseWord = false) (isOpen : Bool)
    (rest : List Token) : Unclaimed isOpen (words ++ rest) := by
  obtain ⟨first, others, rfl, kind⟩ := begins
  intro _ token isFirst same
  obtain rfl : first = token := by simpa using isFirst
  rw [same, excluded] at kind
  exact absurd kind (by simp)

theorem unclaimed_declarations {words rest : List Token}
    (begins : clauseBegins .declarations words) (isOpen : Bool) (unclaimed : Unclaimed isOpen rest) :
    Unclaimed isOpen (words ++ rest) := by
  rcases begins with rfl | begins
  · exact unclaimed
  · exact unclaimed_of_begins begins rfl isOpen rest

theorem unended_of_begins {kinds : TokenKind → Bool} {words : List Token}
    (begins : Begins kinds words) (excluded : kinds .rightBrace = false) (rest : List Token)
    (supply : Supply) :
    ¬ (Position.isAt ⟨words ++ rest, supply⟩ .rightBrace = true ∨ words ++ rest = []) := by
  obtain ⟨first, others, rfl, kind⟩ := begins
  rw [List.cons_append, Position.isAt_cons]
  rintro (same | empty)
  · rw [same, excluded] at kind
    exact absurd kind (by simp)
  · exact absurd empty (by simp)

theorem unclaimed_brace {closing : Token} (isClosing : closing.kind = .rightBrace) (isOpen : Bool)
    (rest : List Token) : Unclaimed isOpen (closing :: rest) := by
  intro _ token isFirst
  obtain rfl : closing = token := by simpa using isFirst
  simp [isClosing]

theorem statement_expression {words rest : List Token} (begins : Begins beginsExpression words)
    (supply : Supply) :
    statement ⟨words ++ rest, supply⟩ = expressionStatement ⟨words ++ rest, supply⟩ := by
  obtain ⟨first, others, rfl, kind⟩ := begins
  rw [List.cons_append, statement, Position.accept?_cons rfl]
  dsimp only
  split <;> rename_i same <;> first | rfl | (rw [same] at kind; exact absurd kind (by decide))

theorem declaration_statement {words rest : List Token} (begins : Begins beginsStatement words)
    (supply : Supply) :
    declaration ⟨words ++ rest, supply⟩ = statement ⟨words ++ rest, supply⟩ := by
  rw [declaration, begins.accept? (by intro kind; cases kind <;> decide)]
  dsimp only
  rw [begins.accept? (by intro kind; cases kind <;> decide)]
  dsimp only
  rw [begins.accept? (by intro kind; cases kind <;> decide)]

theorem block_next {start middle after : Position} {stmt : Stmt} {stmts : List Stmt}
    (unended : ¬ (start.isAt .rightBrace = true ∨ start.rest = []))
    (first : (declaration start).Yields stmt middle) (others : (block middle).Yields stmts after) :
    (block start).Yields (stmt :: stmts) after := by
  rw [block, dif_neg unended]
  split
  rename_i recovered
  cases recovered.symm.trans (recover_of_yields first _)
  exact Parsed.yields_noting.mpr ⟨rfl, others.map⟩

theorem declarations_next {start middle : Position} {stmt : Stmt} {stmts : List Stmt}
    {after : Supply} (unended : start.rest ≠ []) (first : (declaration start).Yields stmt middle)
    (others : declarations middle = (stmts, [], after)) :
    declarations start = (stmt :: stmts, [], after) := by
  rw [declarations, dif_neg unended]
  split
  rename_i recovered
  cases recovered.symm.trans (recover_of_yields first _)
  rw [others]
  rfl

theorem complete_of_stmtDerives {clause : Clause} {start after : Supply} {words : List Token}
    {tree : clause.Tree} (derived : StmtDerives true clause start words tree after) :
    StmtComplete clause start words tree after := by
  induction derived with
  | none =>
      refine ⟨fun closing rest isClosing => ?_, by rw [declarations]; simp⟩
      rw [List.nil_append, block, dif_pos (.inl ((Position.isAt_cons ..).mpr isClosing))]
      exact (Position.yields_expect_cons isClosing).map
  | @next start words isOpen stmt middle others stmts after derived derived' ih ih' =>
      have begins : Begins beginsDeclaration words := clauseBegins_of_stmtDerives derived
      have begins' := clauseBegins_of_stmtDerives derived'
      constructor
      · intro closing rest isClosing
        have unclaimed := unclaimed_declarations begins' isOpen
          (unclaimed_brace isClosing isOpen rest)
        rw [List.append_assoc]
        exact block_next (unended_of_begins begins rfl _ _) (ih _ unclaimed) (ih'.1 closing rest isClosing)
      · have unclaimed : Unclaimed isOpen (others ++ []) :=
          unclaimed_declarations begins' isOpen fun _ token isFirst => by simp at isFirst
        rw [List.append_nil] at unclaimed
        exact declarations_next (fun empty => unended_of_begins begins rfl others start (.inr empty))
          (ih _ unclaimed) ih'.2
  | @classDecl start keyword name opening words methods after closing isClass isName isOpening _
      isClosing ih =>
      intro rest _
      have regrouped : words ++ [closing] ++ rest = words ++ closing :: rest := by simp
      rw [List.cons_append, List.cons_append, List.cons_append, regrouped, declaration,
        Position.accept?_cons (by simpa using isClass)]
      refine Parsed.yields_within.mpr ?_
      rw [classDeclaration]
      refine (Position.yields_expect_cons isName).andThen ?_
      rw [Position.accept?_none (by simp [isOpening])]
      refine (Position.yields_expect_cons isOpening).andThen ?_
      exact (ih closing rest isClosing).map
  | @subclassDecl start keyword name less parent opening words methods after closing isClass isName
      isLess isParent isOpening _ isClosing ih =>
      intro rest _
      have regrouped : words ++ [closing] ++ rest = words ++ closing :: rest := by simp
      rw [List.cons_append, List.cons_append, List.cons_append, List.cons_append, List.cons_append,
        regrouped, declaration, Position.accept?_cons (by simpa using isClass)]
      refine Parsed.yields_within.mpr ?_
      rw [classDeclaration]
      refine (Position.yields_expect_cons isName).andThen ?_
      rw [Position.accept?_cons (by simpa using isLess)]
      refine (Position.yields_expect_cons isParent).andThen ?_
      refine (Position.yields_expect_cons isOpening).andThen ?_
      exact (ih closing rest isClosing).map
  | funDecl isFun _ ih =>
      intro rest _
      rw [List.cons_append, declaration, Position.accept?_none (by simp [isFun])]
      dsimp only
      rw [Position.accept?_cons (by simpa using isFun)]
      exact (ih .function rest).map
  | varDecl declared =>
      intro rest _
      have begins := varDecl_begins declared
      rw [declaration, begins.accept? (by intro kind; cases kind <;> decide)]
      dsimp only
      rw [begins.accept? (by intro kind; cases kind <;> decide)]
      obtain ⟨keyword, others, rfl, isVar⟩ := begins
      dsimp only
      rw [List.cons_append, Position.accept?_cons isVar]
      exact Parsed.yields_within.mpr (varDeclaration_complete declared rest)
  | statement derived ih =>
      intro rest unclaimed
      rw [declaration_statement (clauseBegins_of_stmtDerives derived)]
      exact ih rest unclaimed
  | noMethod =>
      intro closing rest isClosing
      rw [List.nil_append, methods, if_pos (.inl ((Position.isAt_cons ..).mpr isClosing))]
      exact (Position.yields_expect_cons isClosing).map
  | @nextMethod start words decl middle others decls after derived _ ih ih' =>
      intro closing rest isClosing
      have begins : Begins beginsFunction words := clauseBegins_of_stmtDerives derived
      rw [List.append_assoc, methods, if_neg (unended_of_begins begins rfl _ _)]
      exact (ih .method _).andThen (ih' closing rest isClosing).map
  | @function start name openingParen paramWords params closingParen opening words body after closing
      isName isParen listed isClosingParen isOpening _ isClosing ih =>
      intro kind rest
      have regrouped : paramWords ++ closingParen :: opening :: (words ++ [closing]) ++ rest =
          paramWords ++ closingParen :: opening :: (words ++ closing :: rest) := by simp
      rw [List.cons_append, List.cons_append, regrouped, Parse.function]
      refine (Position.yields_expect_cons isName).andThen ?_
      refine (Position.yields_expect_cons isParen).andThen ?_
      refine (parameters_complete listed isClosingParen _ _).andThen ?_
      refine (Position.yields_expect_cons isOpening).andThen ?_
      refine (ih.1 closing rest isClosing).andThen ?_
      exact Parsed.yields_done.mpr ⟨rfl, rfl, rfl⟩
  | exprStmt derived =>
      intro rest _
      rw [statement_expression (exprStmt_begins derived)]
      exact expressionStatement_complete derived rest
  | @forLoop start keyword opening initWords initializer atCondition conditionWords condition
      atIncrement semicolon incrementWords increment atBody closing words isOpen body after isFor
      isOpening initialized conditional isSemicolon incremented isClosing _ ih =>
      intro rest unclaimed
      rw [expansion_eq_forLoop]
      have regrouped : initWords ++ (conditionWords ++
            semicolon :: (incrementWords ++ closing :: words)) ++ rest =
          initWords ++ (conditionWords ++
            semicolon :: (incrementWords ++ closing :: (words ++ rest))) := by simp
      rw [List.cons_append, List.cons_append, regrouped, Parse.statement,
        Position.accept?_cons rfl]
      simp only [isFor]
      refine Parsed.yields_within.mpr ?_
      rw [forStatement]
      refine (Position.yields_expect_cons isOpening).andThen ?_
      refine (forInitializer_complete initialized _).andThen ?_
      refine (clause_complete conditional isSemicolon (.inl rfl) _ _).andThen ?_
      refine (clause_complete incremented isClosing (.inr rfl) _ _).andThen ?_
      exact (ih rest unclaimed).map
  | @ifThen start keyword opening conditionWords condition atThen closing words isOpen thenBranch
      after isIf isOpening conditional isClosing _ ih =>
      intro rest unclaimed
      rw [List.cons_append, List.cons_append, List.append_assoc, List.cons_append, Parse.statement,
        Position.accept?_cons rfl]
      simp only [isIf]
      refine Parsed.yields_within.mpr ?_
      rw [ifStatement]
      refine (Position.yields_expect_cons isOpening).andThen ?_
      refine (expression_complete conditional (.inr (.inl isClosing)) _).andThen ?_
      refine (Position.yields_expect_cons isClosing).andThen ?_
      refine (ih rest fun _ => unclaimed rfl).andThen ?_
      rw [Position.accept?_none fun token isFirst => by simpa using unclaimed rfl token isFirst]
      exact Parsed.yields_done.mpr ⟨rfl, rfl, rfl⟩
  | @ifElse start keyword opening conditionWords condition atThen closing thenWords thenOpen
      thenBranch atElse elseWord elseWords isOpen elseBranch after isIf isOpening conditional isClosing
      _ closed isElse _ ih ih' =>
      intro rest unclaimed
      have regrouped : conditionWords ++ closing :: (thenWords ++ elseWord :: elseWords) ++ rest =
          conditionWords ++ closing :: (thenWords ++ elseWord :: (elseWords ++ rest)) := by simp
      rw [List.cons_append, List.cons_append, regrouped, Parse.statement, Position.accept?_cons rfl]
      simp only [isIf]
      refine Parsed.yields_within.mpr ?_
      rw [ifStatement]
      refine (Position.yields_expect_cons isOpening).andThen ?_
      refine (expression_complete conditional (.inr (.inl isClosing)) _).andThen ?_
      refine (Position.yields_expect_cons isClosing).andThen ?_
      refine (ih _ fun isOpen => absurd isOpen (by simp [closed rfl])).andThen ?_
      rw [Position.accept?_cons (by simpa using isElse)]
      exact (ih' rest unclaimed).map
  | print isPrint derived isSemicolon =>
      intro rest _
      rw [List.cons_append, List.append_assoc, Parse.statement, Position.accept?_cons rfl]
      simp only [isPrint]
      refine Parsed.yields_within.mpr ?_
      rw [printStatement]
      exact (expression_complete derived (.inl isSemicolon) rest).andThen
        (Position.yields_expect_cons isSemicolon).map
  | returnStmt isReturn derived isSemicolon =>
      intro rest _
      rw [List.cons_append, List.append_assoc, Parse.statement, Position.accept?_cons rfl]
      simp only [isReturn]
      refine Parsed.yields_within.mpr ?_
      rw [returnStatement]
      exact (clause_complete derived isSemicolon (.inl rfl) _ rest).map
  | @whileLoop start keyword opening conditionWords condition atBody closing words isOpen body after
      isWhile isOpening conditional isClosing _ ih =>
      intro rest unclaimed
      rw [List.cons_append, List.cons_append, List.append_assoc, List.cons_append, Parse.statement,
        Position.accept?_cons rfl]
      simp only [isWhile]
      refine Parsed.yields_within.mpr ?_
      rw [whileStatement]
      refine (Position.yields_expect_cons isOpening).andThen ?_
      refine (expression_complete conditional (.inr (.inl isClosing)) _).andThen ?_
      refine (Position.yields_expect_cons isClosing).andThen ?_
      exact (ih rest unclaimed).map
  | block isOpening _ isClosing ih =>
      intro rest _
      rw [List.cons_append, List.append_assoc, Parse.statement, Position.accept?_cons rfl]
      simp only [isOpening]
      exact (ih.1 _ rest isClosing).map

end Parse

end Lox
