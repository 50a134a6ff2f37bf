import Lox.Proofs.Parse.Recovery

/-!
Where reading goes on after a fault inside blocks. A fault costs the innermost declaration around it:
the block in which that stands is read on from the next boundary, and the fault is no more than a note
to everything around the block. So what comes after a fault is read as if the block had just been
opened there.
-/

namespace Lox

open Grammar

/-- An outcome without its tree and its identities: the complaint on which the rule is stuck, if it
is, the notes, and the tokens that are left. -/
structure Fate where
  cause : Option Complaint
  notes : List Complaint
  rest : List Token

namespace Fate

def noting (earlier : List Complaint) (fate : Fate) : Fate :=
  { fate with notes := earlier ++ fate.notes }

def andThen (fate : Fate) (next : List Token → Fate) : Fate :=
  match fate.cause with
  | none => (next fate.rest).noting fate.notes
  | some _ => fate

def stuckAt (rest : List Token) (what : Expected) : Fate :=
  ⟨some ⟨rest.head?, .expected what⟩, [], rest⟩

def recovered (fate : Fate) : List Complaint × List Token :=
  match fate.cause with
  | none => (fate.notes, fate.rest)
  | some cause => (fate.notes ++ [cause], Parse.boundary fate.rest)

@[simp] theorem noting_nil (fate : Fate) : fate.noting [] = fate := rfl

theorem noting_noting (first second : List Complaint) (fate : Fate) :
    (fate.noting second).noting first = fate.noting (first ++ second) := by
  simp only [noting, List.append_assoc]

theorem noting_andThen (earlier : List Complaint) (fate : Fate) (next : List Token → Fate) :
    (fate.noting earlier).andThen next = (fate.andThen next).noting earlier := by
  obtain ⟨cause, notes, rest⟩ := fate
  cases cause with
  | none => simp only [andThen, noting, List.append_assoc]
  | some cause => rfl

@[simp] theorem done_andThen (rest : List Token) (next : List Token → Fate) :
    andThen ⟨none, [], rest⟩ next = next rest := rfl

@[simp] theorem andThen_done (fate : Fate) : fate.andThen (⟨none, [], ·⟩) = fate := by
  obtain ⟨cause, notes, rest⟩ := fate
  cases cause with
  | none => simp only [andThen, noting, List.append_nil]
  | some cause => rfl

theorem recovered_noting (earlier : List Complaint) (fate : Fate) :
    (fate.noting earlier).recovered = (earlier ++ fate.recovered.1, fate.recovered.2) := by
  obtain ⟨cause, notes, rest⟩ := fate
  cases cause with
  | none => rfl
  | some cause => simp only [recovered, noting, List.append_assoc]

end Fate

namespace Parsed

variable {α β : Type} {bound small : Nat}

def fate : Parsed α bound → Fate
  | done _ notes after _ => ⟨none, notes, after.rest⟩
  | stuck cause notes after _ => ⟨some cause, notes, after.rest⟩

@[simp] theorem fate_noting (earlier : List Complaint) (parsed : Parsed α bound) :
    (parsed.noting earlier).fate = parsed.fate.noting earlier := by
  cases parsed <;> rfl

@[simp] theorem fate_within (parsed : Parsed α small) (weaker : small ≤ bound) :
    (parsed.within weaker).fate = parsed.fate := by
  cases parsed <;> rfl

@[simp] theorem fate_map (parsed : Parsed α small) (change : α → β) (weaker : small ≤ bound) :
    (parsed.map change weaker).fate = parsed.fate := by
  cases parsed <;> rfl

theorem fate_andThen {parsed : Parsed α small}
    {next : (value : α) → (after : Position) → after.size < small → Parsed β bound}
    {weaker : small ≤ bound} {later : List Token → Fate}
    (continued : ∀ value after shorter, (next value after shorter).fate = later after.rest) :
    (parsed.andThen next weaker).fate = parsed.fate.andThen later := by
  cases parsed with
  | done value notes after shorter =>
      rw [andThen, fate_noting, continued]
      rfl
  | stuck => rfl

theorem fate_andThen_of_stuckAt {parsed : Parsed α small}
    {next : (value : α) → (after : Position) → after.size < small → Parsed β bound}
    {weaker : small ≤ bound} {rest : List Token} {what : Expected}
    (stuck : parsed.fate = .stuckAt rest what) :
    (parsed.andThen next weaker).fate = .stuckAt rest what := by
  cases parsed with
  | done => simp [fate, Fate.stuckAt] at stuck
  | stuck => exact stuck

theorem Yields.fate_eq {parsed : Parsed α bound} {value : α} {after : Position}
    (yields : parsed.Yields value after) : parsed.fate = ⟨none, [], after.rest⟩ := by
  obtain ⟨shorter, rfl⟩ := yields
  rfl

theorem Yields.fate_andThen {parsed : Parsed α small} {value : α} {after : Position}
    (yields : parsed.Yields value after)
    (next : (value : α) → (after : Position) → after.size < small → Parsed β bound)
    (weaker : small ≤ bound) :
    (parsed.andThen next weaker).fate = (next value after yields.size_lt).fate := by
  obtain ⟨shorter, rfl⟩ := yields
  exact fate_noting [] _

theorem Alike.fate_eq {bound' : Nat} {known : Token → Prop} {offset : Supply} {start : Standing}
    {R : Standing → α → α → Prop} {parsed : Parsed α bound} {parsed' : Parsed α bound'}
    (alike : Alike (.itself known offset) start R parsed parsed') : parsed'.fate = parsed.fate := by
  cases alike with
  | done _ notes same =>
      rw [fate, fate, Likeness.eq_of_complaints notes, Likeness.eq_of_same same]
  | stuck _ notes same caused =>
      have cause := List.head_eq_of_cons_eq (Likeness.eq_of_complaints (.cons caused .nil))
      rw [fate, fate, Likeness.eq_of_complaints notes, Likeness.eq_of_same same, cause]

theorem recover_eq (parsed : Parsed Stmt bound) (positive : 0 < bound) :
    ((Parse.recover parsed positive).notes, (Parse.recover parsed positive).after.rest) =
      parsed.fate.recovered := by
  cases parsed <;> rfl

end Parsed

namespace Parse

abbrev Reader (α : Type) := (start : Position) → Parsed α start.size

variable {α β γ : Type}

namespace Reader

def fate (rule : Reader α) (tokens : List Token) : Fate := (rule ⟨tokens, {}⟩).fate

def Steady (rule : Reader α) : Prop :=
  ∀ tokens supply, (rule ⟨tokens, supply⟩).fate = fate rule tokens

theorem steady {rule : Reader α} {R : Likeness → Standing → Standing → α → α → Prop}
    (reads : ∀ {like : Likeness} {start tokens tokens'}, like.Same tokens tokens' →
      like.Reads (R like) rule start tokens tokens') : Steady rule := by
  intro tokens supply
  have same := (@reads _ ⟨{}, False⟩ _ _ (Likeness.same_offset supply tokens)).fate_eq
  rwa [Likeness.twin, Likeness.itself, Supply.first_plus] at same

/-- The rule reads the words and goes on with another, whatever follows them. -/
def Leads (rule : Reader α) (words : List Token) (inner : Reader β) : Prop :=
  ∃ next, ∀ rest, rule.fate (words ++ rest) = (inner.fate rest).andThen next

theorem Leads.of_eq {rule : Reader α} {inner : Reader β} {words : List Token}
    (same : ∀ rest, rule.fate (words ++ rest) = inner.fate rest) : Leads rule words inner := by
  refine ⟨(⟨none, [], ·⟩), fun rest => ?_⟩
  rw [same, Fate.andThen_done]

end Reader

theorem steady_declaration : Reader.Steady declaration := Reader.steady Likeness.declaration

theorem steady_statement : Reader.Steady statement := Reader.steady Likeness.statement

theorem steady_block : Reader.Steady block := Reader.steady Likeness.block

theorem steady_methods : Reader.Steady methods := Reader.steady Likeness.methods

theorem steady_expressionStatement : Reader.Steady expressionStatement :=
  Reader.steady Likeness.expressionStatement

theorem steady_varDeclaration : Reader.Steady varDeclaration :=
  Reader.steady Likeness.varDeclaration

theorem steady_printStatement (keyword : Token) : Reader.Steady (printStatement keyword) := by
  refine @Reader.steady _ _ (fun _ _ _ _ _ => True) fun same => ?_
  refine .andThen (Likeness.assignment true same) fun _ _ same _ => ?_
  exact .expect_map same fun _ _ => trivial

theorem steady_forInitializer : Reader.Steady forInitializer := Reader.steady Likeness.forInitializer

theorem steady_clause (ending : TokenKind) (what : Expected) : Reader.Steady (clause ending what) :=
  Reader.steady (Likeness.clause ending what)

/-! From a statement to the statements, blocks and clauses in it. -/

section Leads

open Reader (Leads)

variable {start after : Supply} {keyword name opening closing : Token}

theorem leads_block (isOpening : opening.kind = .leftBrace) : Leads statement [opening] block := by
  refine .of_eq fun rest => ?_
  rw [Reader.fate, List.singleton_append, statement, Position.accept?_cons rfl]
  simp only [isOpening, Parsed.fate_map]
  rfl

theorem leads_function (kind : FunctionKind) {openingParen closingParen : Token}
    {paramWords params : List Token} (isName : name.kind = .identifier)
    (isParen : openingParen.kind = .leftParen) (listed : Parameters paramWords params)
    (isClosingParen : closingParen.kind = .rightParen) (isOpening : opening.kind = .leftBrace) :
    Leads (function kind) (name :: openingParen :: (paramWords ++ [closingParen, opening])) block := by
  refine .of_eq fun rest => ?_
  have regrouped : name :: openingParen :: (paramWords ++ [closingParen, opening]) ++ rest =
      name :: openingParen :: (paramWords ++ closingParen :: opening :: rest) := by simp
  rw [Reader.fate, regrouped, function, (Position.yields_expect_cons isName).fate_andThen,
    (Position.yields_expect_cons isParen).fate_andThen,
    (parameters_complete listed isClosingParen _ _).fate_andThen,
    (Position.yields_expect_cons isOpening).fate_andThen, Parsed.fate_andThen fun _ _ _ => rfl]
  exact Fate.andThen_done _

theorem leads_funDecl (isFun : keyword.kind = .funWord) :
    Leads declaration [keyword] (function .function) := by
  refine .of_eq fun rest => ?_
  rw [Reader.fate, List.singleton_append, declaration, Position.accept?_none (by simp [isFun])]
  dsimp only
  rw [Position.accept?_cons (by simpa using isFun)]
  exact Parsed.fate_map ..

theorem leads_class (isClass : keyword.kind = .classWord) (isName : name.kind = .identifier)
    (isOpening : opening.kind = .leftBrace) :
    Leads declaration [keyword, name, opening] methods := by
  refine .of_eq fun rest => ?_
  have regrouped : [keyword, name, opening] ++ rest = keyword :: name :: opening :: rest := rfl
  rw [Reader.fate, regrouped, declaration, Position.accept?_cons (by simpa using isClass)]
  dsimp only
  rw [Parsed.fate_within, classDeclaration, (Position.yields_expect_cons isName).fate_andThen,
    Position.accept?_none (by simp [isOpening])]
  dsimp only
  rw [(Position.yields_expect_cons isOpening).fate_andThen]
  exact Parsed.fate_map ..

theorem leads_subclass {less parent : Token} (isClass : keyword.kind = .classWord)
    (isName : name.kind = .identifier) (isLess : less.kind = .less)
    (isParent : parent.kind = .identifier) (isOpening : opening.kind = .leftBrace) :
    Leads declaration [keyword, name, less, parent, opening] methods := by
  refine .of_eq fun rest => ?_
  have regrouped : [keyword, name, less, parent, opening] ++ rest =
      keyword :: name :: less :: parent :: opening :: rest := rfl
  rw [Reader.fate, regrouped, declaration, Position.accept?_cons (by simpa using isClass)]
  dsimp only
  rw [Parsed.fate_within, classDeclaration, (Position.yields_expect_cons isName).fate_andThen,
    Position.accept?_cons (by simpa using isLess)]
  dsimp only
  rw [(Position.yields_expect_cons isParent).fate_andThen]
  refine (Parsed.Yields.fate_andThen (Position.yields_expect_cons isOpening) _ _).trans ?_
  rw [Parsed.fate_map]
  exact steady_methods rest _

theorem leads_methods {words : List Token} {decl : FunctionDecl}
    (derived : StmtDerives true .function start words decl after) : Leads methods words methods := by
  refine .of_eq fun rest => ?_
  have begins : Begins beginsFunction words := clauseBegins_of_stmtDerives derived
  rw [← steady_methods _ start, methods, if_neg (unended_of_begins begins rfl _ _),
    (complete_of_stmtDerives derived .method rest).fate_andThen, Parsed.fate_map]
  exact steady_methods rest _

def elseFate (rest : List Token) : Fate :=
  match rest with
  | [] => ⟨none, [], []⟩
  | token :: others =>
      if token.kind = .elseWord then Reader.fate statement others else ⟨none, [], token :: others⟩

theorem leads_if {words : List Token} {condition : Expr} (isIf : keyword.kind = .ifWord)
    (isOpening : opening.kind = .leftParen)
    (derived : ExprDerives .expression start words condition after)
    (isClosing : closing.kind = .rightParen) :
    Leads statement (keyword :: opening :: (words ++ [closing])) statement := by
  refine ⟨elseFate, fun rest => ?_⟩
  have regrouped : keyword :: opening :: (words ++ [closing]) ++ rest =
      keyword :: opening :: (words ++ closing :: rest) := by simp
  rw [← steady_statement _ start, regrouped, statement, Position.accept?_cons rfl]
  simp only [isIf]
  rw [Parsed.fate_within, ifStatement, (Position.yields_expect_cons isOpening).fate_andThen,
    (expression_complete derived (.inr (.inl isClosing)) rest).fate_andThen,
    (Position.yields_expect_cons isClosing).fate_andThen, ← steady_statement rest after]
  refine Parsed.fate_andThen fun thenBranch atElse shorter => ?_
  obtain ⟨others, supply⟩ := atElse
  cases others with
  | nil => rfl
  | cons token others =>
      by_cases isElse : token.kind = .elseWord
      · rw [elseFate, if_pos isElse, Position.accept?_cons (by simpa using isElse)]
        dsimp only
        rw [Parsed.fate_map]
        exact steady_statement others supply
      · rw [elseFate, if_neg isElse, Position.accept?_none (by simpa using isElse)]
        rfl

theorem leads_else {words thenWords : List Token} {condition : Expr} {thenBranch : Stmt}
    {middle : Supply} {elseWord : Token} (isIf : keyword.kind = .ifWord)
    (isOpening : opening.kind = .leftParen)
    (derived : ExprDerives .expression start words condition middle)
    (isClosing : closing.kind = .rightParen)
    (branch : StmtDerives true (.statement false) middle thenWords thenBranch after)
    (isElse : elseWord.kind = .elseWord) :
    Leads statement (keyword :: opening :: (words ++ closing :: (thenWords ++ [elseWord])))
      statement := by
  refine .of_eq fun rest => ?_
  have regrouped : keyword :: opening :: (words ++ closing :: (thenWords ++ [elseWord])) ++ rest =
      keyword :: opening :: (words ++ closing :: (thenWords ++ elseWord :: rest)) := by simp
  rw [← steady_statement _ start, regrouped, statement, Position.accept?_cons rfl]
  simp only [isIf]
  rw [Parsed.fate_within, ifStatement, (Position.yields_expect_cons isOpening).fate_andThen,
    (expression_complete derived (.inr (.inl isClosing)) _).fate_andThen,
    (Position.yields_expect_cons isClosing).fate_andThen,
    (complete_of_stmtDerives branch (elseWord :: rest) (by simp [Unclaimed])).fate_andThen,
    Position.accept?_cons (by simpa using isElse)]
  dsimp only
  rw [Parsed.fate_map]
  exact steady_statement rest after

theorem leads_while {words : List Token} {condition : Expr} (isWhile : keyword.kind = .whileWord)
    (isOpening : opening.kind = .leftParen)
    (derived : ExprDerives .expression start words condition after)
    (isClosing : closing.kind = .rightParen) :
    Leads statement (keyword :: opening :: (words ++ [closing])) statement := by
  refine .of_eq fun rest => ?_
  have regrouped : keyword :: opening :: (words ++ [closing]) ++ rest =
      keyword :: opening :: (words ++ closing :: rest) := by simp
  rw [← steady_statement _ start, regrouped, statement, Position.accept?_cons rfl]
  simp only [isWhile]
  rw [Parsed.fate_within, whileStatement, (Position.yields_expect_cons isOpening).fate_andThen,
    (expression_complete derived (.inr (.inl isClosing)) rest).fate_andThen,
    (Position.yields_expect_cons isClosing).fate_andThen, Parsed.fate_map]
  exact steady_statement rest after

theorem fate_for (isFor : keyword.kind = .forWord) (isOpening : opening.kind = .leftParen)
    (rest : List Token) :
    Reader.fate statement (keyword :: opening :: rest) =
      (Reader.fate forInitializer rest).andThen fun rest =>
        (Reader.fate (clause .semicolon .forConditionEnd) rest).andThen fun rest =>
          (Reader.fate (clause .rightParen .forEnd) rest).andThen (Reader.fate statement) := by
  rw [Reader.fate, statement, Position.accept?_cons rfl]
  simp only [isFor]
  rw [Parsed.fate_within, forStatement, (Position.yields_expect_cons isOpening).fate_andThen]
  refine Parsed.fate_andThen fun initializer atCondition _ => ?_
  rw [← steady_clause _ _ _ atCondition.supply]
  refine Parsed.fate_andThen fun condition atIncrement _ => ?_
  rw [← steady_clause _ _ _ atIncrement.supply]
  refine Parsed.fate_andThen fun increment atBody _ => ?_
  rw [Parsed.fate_map]
  exact steady_statement atBody.rest atBody.supply

theorem leads_forInitializer (isFor : keyword.kind = .forWord) (isOpening : opening.kind = .leftParen) :
    Leads statement [keyword, opening] forInitializer :=
  ⟨_, fate_for isFor isOpening⟩

theorem leads_forCondition {initWords : List Token} {initializer : Option Stmt}
    (isFor : keyword.kind = .forWord) (isOpening : opening.kind = .leftParen)
    (initialized : ForInitializer start initWords initializer after) :
    Leads statement (keyword :: opening :: initWords) (clause .semicolon .forConditionEnd) := by
  refine ⟨fun rest => (Reader.fate (clause .rightParen .forEnd) rest).andThen (Reader.fate statement),
    fun rest => ?_⟩
  have read := (forInitializer_complete initialized rest).fate_eq
  rw [steady_forInitializer] at read
  rw [List.cons_append, List.cons_append, fate_for isFor isOpening, read, Fate.done_andThen]

theorem leads_for {initWords conditionWords incrementWords : List Token} {initializer : Option Stmt}
    {condition increment : Option Expr} {atCondition atIncrement : Supply} {semicolon : Token}
    (isFor : keyword.kind = .forWord) (isOpening : opening.kind = .leftParen)
    (initialized : ForInitializer start initWords initializer atCondition)
    (conditional : OptionalExpr atCondition conditionWords condition atIncrement)
    (isSemicolon : semicolon.kind = .semicolon)
    (incremented : OptionalExpr atIncrement incrementWords increment after)
    (isClosing : closing.kind = .rightParen) :
    Leads statement (keyword :: opening :: (initWords ++ (conditionWords ++
      semicolon :: (incrementWords ++ [closing])))) statement := by
  refine .of_eq fun rest => ?_
  have regrouped : keyword :: opening :: (initWords ++ (conditionWords ++
        semicolon :: (incrementWords ++ [closing]))) ++ rest =
      keyword :: opening :: (initWords ++ (conditionWords ++
        semicolon :: (incrementWords ++ closing :: rest))) := by simp
  have first := (forInitializer_complete initialized
    (conditionWords ++ semicolon :: (incrementWords ++ closing :: rest))).fate_eq
  have second := (clause_complete conditional isSemicolon (.inl rfl) .forConditionEnd
    (incrementWords ++ closing :: rest)).fate_eq
  have third := (clause_complete incremented isClosing (.inr rfl) .forEnd rest).fate_eq
  rw [steady_forInitializer] at first
  rw [steady_clause] at second third
  rw [regrouped, fate_for isFor isOpening, first, Fate.done_andThen, second, Fate.done_andThen,
    third, Fate.done_andThen]

theorem leads_print (isPrint : keyword.kind = .printWord) :
    Leads statement [keyword] (printStatement keyword) := by
  refine .of_eq fun rest => ?_
  rw [Reader.fate, List.singleton_append, statement, Position.accept?_cons rfl]
  simp only [isPrint, Parsed.fate_within]
  rfl

theorem leads_return (isReturn : keyword.kind = .returnWord) :
    Leads statement [keyword] (clause .semicolon .returnEnd) := by
  refine .of_eq fun rest => ?_
  rw [Reader.fate, List.singleton_append, statement, Position.accept?_cons rfl]
  simp only [isReturn, Parsed.fate_within, returnStatement, Parsed.fate_map]
  rfl

theorem leads_var (isVar : keyword.kind = .varWord) :
    Leads declaration [keyword] varDeclaration := by
  refine .of_eq fun rest => ?_
  rw [Reader.fate, List.singleton_append, declaration, Position.accept?_none (by simp [isVar])]
  dsimp only
  rw [Position.accept?_none (by simp [isVar])]
  dsimp only
  rw [Position.accept?_cons (by simpa using isVar)]
  exact Parsed.fate_within ..

theorem leads_varInitializer (isVar : keyword.kind = .varWord) :
    Leads forInitializer [keyword] varDeclaration := by
  refine .of_eq fun rest => ?_
  rw [Reader.fate, List.singleton_append, forInitializer,
    Position.accept?_none (by simp [isVar])]
  dsimp only
  rw [Position.accept?_cons (by simpa using isVar)]
  exact Parsed.fate_map ..

end Leads

/-! Declarations one after another. -/

def reports (tokens : List Token) : List Complaint := (declarations ⟨tokens, {}⟩).2.1

theorem notes_declarations (tokens : List Token) (supply : Supply) :
    (declarations ⟨tokens, supply⟩).2.1 = reports tokens := by
  have shifted := declarations_shift supply tokens {}
  rw [Supply.first_plus] at shifted
  rw [shifted, reports]

section Steps

variable {tokens : List Token}

theorem reports_eq (begins : Begins beginsDeclaration tokens) :
    reports tokens = (Reader.fate declaration tokens).recovered.1 ++
      reports (Reader.fate declaration tokens).recovered.2 := by
  have positive : 0 < Position.size ⟨tokens, {}⟩ := by
    obtain ⟨first, others, rfl, -⟩ := begins
    exact Nat.succ_pos _
  rw [reports, declarations_eq positive, Reader.fate, ← Parsed.recover_eq _ positive,
    ← notes_declarations]

theorem fate_block_eq (begins : Begins beginsDeclaration tokens) :
    Reader.fate block tokens = (Reader.fate block (Reader.fate declaration tokens).recovered.2).noting
      (Reader.fate declaration tokens).recovered.1 := by
  have unended := unended_of_begins begins rfl [] {}
  rw [List.append_nil] at unended
  have positive : 0 < Position.size ⟨tokens, {}⟩ := List.length_pos_iff.mpr (mt Or.inr unended)
  have recovered := Parsed.recover_eq (declaration ⟨tokens, {}⟩) positive
  rw [Reader.fate, block, dif_neg unended, Reader.fate.eq_def declaration, ← recovered]
  dsimp only
  rw [Parsed.fate_noting, Parsed.fate_map, ← steady_block]

end Steps

/-- The declarations that are read one after another from here take these notes and leave the rest. -/
inductive Resumes : List Token → List Complaint → List Token → Prop
  | here (tokens : List Token) : Resumes tokens [] tokens
  | next {tokens later rest} : Begins beginsDeclaration tokens →
      Resumes (Reader.fate declaration tokens).recovered.2 later rest →
      Resumes tokens ((Reader.fate declaration tokens).recovered.1 ++ later) rest

namespace Resumes

variable {tokens rest last : List Token} {notes later : List Complaint}

theorem trans (first : Resumes tokens notes rest) (second : Resumes rest later last) :
    Resumes tokens (notes ++ later) last := by
  induction first with
  | here => exact second
  | next begins _ ih =>
      rw [List.append_assoc]
      exact .next begins (ih second)

theorem single (begins : Begins beginsDeclaration tokens) :
    Resumes tokens (Reader.fate declaration tokens).recovered.1
      (Reader.fate declaration tokens).recovered.2 := by
  have step := Resumes.next begins (.here _)
  rwa [List.append_nil] at step

theorem fate_block (resumes : Resumes tokens notes rest) :
    Reader.fate block tokens = (Reader.fate block rest).noting notes := by
  induction resumes with
  | here => rfl
  | next begins _ ih => rw [fate_block_eq begins, ih, Fate.noting_noting]

theorem reports_eq (resumes : Resumes tokens notes rest) : reports tokens = notes ++ reports rest := by
  induction resumes with
  | here => rfl
  | next begins _ ih => rw [Parse.reports_eq begins, ih, List.append_assoc]

end Resumes

/-- Whole declarations are read without a note, up to where another begins. -/
theorem resumes_of_stmtDerives {start after : Supply} {words : List Token} {stmts : List Stmt}
    (derived : StmtDerives true .declarations start words stmts after) {rest : List Token}
    (begins : Begins beginsDeclaration rest) : Resumes (words ++ rest) [] rest := by
  match derived with
  | .none => exact .here rest
  | @StmtDerives.next _ _ words isOpen _ middle others _ _ first derived' =>
      have begins' : Begins beginsDeclaration words := clauseBegins_of_stmtDerives first
      have unclaimed : Unclaimed isOpen (others ++ rest) := by
        have following := unclaimed_of_begins begins rfl isOpen []
        rw [List.append_nil] at following
        exact unclaimed_declarations (clauseBegins_of_stmtDerives derived') isOpen following
      have read := (complete_of_stmtDerives first _ unclaimed).fate_eq
      rw [steady_declaration] at read
      have step := Resumes.single (begins'.append (others ++ rest))
      rw [read] at step
      rw [List.append_assoc]
      exact step.trans (resumes_of_stmtDerives derived' begins)

/-! Blocks that are still open. -/

/-- The words open a block in which the rule goes on: what is noted there is noted by the rule, and what
is left there is read as if it came right after the words. -/
def Opens (rule : Reader α) (words : List Token) : Prop :=
  ∀ ⦃tokens notes rest⦄, Resumes tokens notes rest →
    rule.fate (words ++ tokens) = (rule.fate (words ++ rest)).noting notes

/-- The words are at most the beginning of a declaration, up to the block that it opens. -/
def Reopens (words : List Token) : Prop :=
  ∀ ⦃tokens notes rest⦄, Resumes tokens notes rest →
    ∃ later last, Resumes (words ++ tokens) (notes ++ later) last ∧
      Resumes (words ++ rest) later last

theorem Opens.leads {rule : Reader α} {inner : Reader β} {words others : List Token}
    (opens : Opens inner others) (leads : Reader.Leads rule words inner) :
    Opens rule (words ++ others) := by
  obtain ⟨next, read⟩ := leads
  intro tokens notes rest resumes
  rw [List.append_assoc, List.append_assoc, read, read, opens resumes, Fate.noting_andThen]

theorem Opens.reopens {words : List Token} (opens : Opens declaration words)
    (begins : Begins beginsDeclaration words) : Reopens words := by
  intro tokens notes rest resumes
  have step := Resumes.single (begins.append tokens)
  rw [opens resumes, Fate.recovered_noting] at step
  exact ⟨_, _, step, .single (begins.append rest)⟩

namespace Reopens

variable {words : List Token}

theorem nil : Reopens [] := by
  intro tokens notes rest resumes
  refine ⟨[], rest, ?_, .here rest⟩
  rwa [List.append_nil]

theorem after_declarations {start after : Supply} {siblings : List Token} {stmts : List Stmt}
    (reopens : Reopens words) (begins : Begins beginsDeclaration words)
    (derived : StmtDerives true .declarations start siblings stmts after) :
    Reopens (siblings ++ words) := by
  intro tokens notes rest resumes
  obtain ⟨later, last, read, read'⟩ := reopens resumes
  rw [List.append_assoc, List.append_assoc]
  exact ⟨later, last, (resumes_of_stmtDerives derived (begins.append tokens)).trans read,
    (resumes_of_stmtDerives derived (begins.append rest)).trans read'⟩

theorem opens_block (reopens : Reopens words) : Opens block words := by
  intro tokens notes rest resumes
  obtain ⟨later, last, read, read'⟩ := reopens resumes
  rw [read.fate_block, read'.fate_block, Fate.noting_noting]

theorem reports_eq (reopens : Reopens words) {tokens rest : List Token} {notes : List Complaint}
    (resumes : Resumes tokens notes rest) :
    reports (words ++ tokens) = notes ++ reports (words ++ rest) := by
  obtain ⟨later, last, read, read'⟩ := reopens resumes
  rw [read.reports_eq, read'.reports_eq, List.append_assoc]

end Reopens

end Parse

end Lox
