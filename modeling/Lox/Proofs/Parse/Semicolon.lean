import Lox.Proofs.Parse.Resumption

/-!
What a missing semicolon costs. The fault is found at the next token, unless that token can go on what
stands before it. It costs the declaration in which the semicolon is missing and the tokens up to the
next boundary, of which the first is skipped whatever it is. If that is a brace, what is left has a
fault of its own.
-/

namespace Lox

open Grammar

namespace Grammar

theorem Begins.ne_nil {kinds : TokenKind → Bool} {words : List Token} (begins : Begins kinds words) :
    words ≠ [] := by
  obtain ⟨first, others, rfl, -⟩ := begins
  exact List.cons_ne_nil first others

theorem Begins.of_append {kinds : TokenKind → Bool} {words others : List Token}
    (begins : Begins kinds (words ++ others)) (present : words ≠ []) : Begins kinds words := by
  obtain ⟨first, tail, same, kind⟩ := begins
  cases words with
  | nil => exact absurd rfl present
  | cons token words =>
      obtain ⟨rfl, -⟩ : token = first ∧ words ++ others = tail := by simpa using same
      exact ⟨_, words, rfl, kind⟩

end Grammar

namespace Parse

variable {α β : Type}

/-! Braces. -/

inductive Matched : List Token → Prop
  | nil : Matched []
  | token {token} : token.kind ≠ .leftBrace → token.kind ≠ .rightBrace → Matched [token]
  | append {words others} : Matched words → Matched others → Matched (words ++ others)
  | braces {opening words closing} : opening.kind = .leftBrace → Matched words →
      closing.kind = .rightBrace → Matched (opening :: (words ++ [closing]))

def enclosingFrom (depth : Nat) : List Token → List Token
  | [] => []
  | token :: earlier =>
      if token.kind = .rightBrace then enclosingFrom (depth + 1) earlier
      else if token.kind = .leftBrace then
        if depth = 0 then (token :: earlier).reverse else enclosingFrom (depth - 1) earlier
      else enclosingFrom depth earlier

def enclosing (tokens : List Token) : List Token := enclosingFrom 0 tokens.reverse

section Braces

variable {words others : List Token}

theorem enclosingFrom_matched (matched : Matched words) (depth : Nat) (earlier : List Token) :
    enclosingFrom depth (words.reverse ++ earlier) = enclosingFrom depth earlier := by
  induction matched generalizing depth earlier with
  | nil => rfl
  | token notLeft notRight =>
      rw [List.reverse_singleton, List.singleton_append, enclosingFrom, if_neg notRight,
        if_neg notLeft]
  | append _ _ ih ih' => rw [List.reverse_append, List.append_assoc, ih', ih]
  | @braces opening words closing isOpening _ isClosing ih =>
      have regrouped : (opening :: (words ++ [closing])).reverse ++ earlier =
          closing :: (words.reverse ++ opening :: earlier) := by simp
      have other : opening.kind ≠ .rightBrace := by simp [isOpening]
      rw [regrouped, enclosingFrom, if_pos isClosing, ih, enclosingFrom, if_neg other,
        if_pos isOpening, if_neg (Nat.succ_ne_zero depth), Nat.add_sub_cancel]

theorem enclosing_matched (matched : Matched words) : enclosing words = [] := by
  have past := enclosingFrom_matched matched 0 []
  rwa [List.append_nil] at past

theorem enclosing_opened {opening : Token} (isOpening : opening.kind = .leftBrace)
    (matched : Matched words) : enclosing (others ++ opening :: words) = others ++ [opening] := by
  have regrouped : (others ++ opening :: words).reverse = words.reverse ++ opening :: others.reverse := by
    simp
  have other : opening.kind ≠ .rightBrace := by simp [isOpening]
  rw [enclosing, regrouped, enclosingFrom_matched matched, enclosingFrom, if_neg other,
    if_pos isOpening, if_pos rfl]
  simp

theorem Matched.cons {token : Token} {kind : TokenKind} (isKind : token.kind = kind)
    (matched : Matched words) (unbraced : kind ≠ .leftBrace ∧ kind ≠ .rightBrace := by decide) :
    Matched (token :: words) := by
  subst isKind
  exact .append (.token unbraced.1 unbraced.2) matched

theorem matched_of_forall
    (unbraced : ∀ token ∈ words, token.kind ≠ .leftBrace ∧ token.kind ≠ .rightBrace) :
    Matched words := by
  induction words with
  | nil => exact .nil
  | cons token words ih =>
      rw [List.forall_mem_cons] at unbraced
      exact .cons rfl (ih unbraced.2) unbraced.1

theorem unbraced_of_exprDerives {phrase : Phrase} {start after : Supply} {tree : phrase.Tree}
    (derived : ExprDerives phrase start words tree after) :
    ∀ token ∈ words, token.kind ≠ .leftBrace ∧ token.kind ≠ .rightBrace := by
  induction derived with
  | plain _ ih | unconditional _ ih | single _ ih | unsigned _ ih | uncalled _ ih | argument _ ih =>
      exact ih
  | operation _ leveled _ ih ih' =>
      rw [List.forall_mem_append, List.forall_mem_cons]
      refine ⟨ih, ⟨?_, ?_⟩, ih'⟩ <;> intro same <;> simp [same, operatorLevel?] at leveled
  | negation kind _ ih =>
      rw [List.forall_mem_cons]
      exact ⟨by rcases kind with kind | kind <;> simp [kind], ih⟩
  | literal kind => rcases kind with kind | kind <;> simp [kind]
  | _ => simp_all [or_imp, forall_and]

theorem free_of_exprDerives {phrase : Phrase} {start after : Supply} {tree : phrase.Tree}
    (derived : ExprDerives phrase start words tree after) :
    ∀ token ∈ words, token.kind ≠ .semicolon := by
  intro token member
  have inner := isInner_of_exprDerives derived token member
  rw [isInner, Bool.and_eq_true] at inner
  simpa using inner.1

theorem matched_of_exprDerives {phrase : Phrase} {start after : Supply} {tree : phrase.Tree}
    (derived : ExprDerives phrase start words tree after) : Matched words :=
  matched_of_forall (unbraced_of_exprDerives derived)

theorem matched_condition {start after : Supply} {keyword opening closing : Token} {condition : Expr}
    {kind : TokenKind} (isKeyword : keyword.kind = kind) (isOpening : opening.kind = .leftParen)
    (conditional : ExprDerives .expression start words condition after)
    (isClosing : closing.kind = .rightParen)
    (unbraced : kind ≠ .leftBrace ∧ kind ≠ .rightBrace := by decide) :
    Matched (keyword :: opening :: (words ++ [closing])) :=
  .cons isKeyword (.cons isOpening (.append (matched_of_exprDerives conditional)
    (.cons isClosing .nil))) unbraced

theorem free_of_optionalExpr {start after : Supply} {expr : Option Expr}
    (derived : OptionalExpr start words expr after) : ∀ token ∈ words, token.kind ≠ .semicolon := by
  cases derived with
  | absent => simp
  | present derived => exact free_of_exprDerives derived

theorem matched_of_optionalExpr {start after : Supply} {expr : Option Expr}
    (derived : OptionalExpr start words expr after) : Matched words := by
  cases derived with
  | absent => exact .nil
  | present derived => exact matched_of_exprDerives derived

theorem matched_of_exprStmt {start after : Supply} {stmt : Stmt}
    (derived : ExprStmt start words stmt after) : Matched words := by
  cases derived with
  | intro derived isSemicolon =>
      exact .append (matched_of_exprDerives derived) (.cons isSemicolon .nil)

theorem matched_of_varDecl {start after : Supply} {stmt : Stmt}
    (declared : VarDecl start words stmt after) : Matched words := by
  cases declared with
  | bare isVar isName isSemicolon => exact .cons isVar (.cons isName (.cons isSemicolon .nil))
  | initialized isVar isName isEqual derived isSemicolon =>
      exact .cons isVar (.cons isName (.cons isEqual
        (matched_of_exprStmt (.intro derived isSemicolon))))

theorem matched_of_forInitializer {start after : Supply} {stmt : Option Stmt}
    (initialized : ForInitializer start words stmt after) : Matched words := by
  cases initialized with
  | absent isSemicolon => exact .cons isSemicolon .nil
  | declared declared => exact matched_of_varDecl declared
  | expression derived => exact matched_of_exprStmt derived

theorem forInitializer_last {start after : Supply} {stmt : Option Stmt}
    (initialized : ForInitializer start words stmt after) :
    ∃ others last, words = others ++ [last] ∧ last.kind = .semicolon := by
  cases initialized with
  | absent isSemicolon => exact ⟨[], _, rfl, isSemicolon⟩
  | declared declared =>
      cases declared with
      | bare _ _ isSemicolon => exact ⟨[_, _], _, rfl, isSemicolon⟩
      | initialized _ _ _ _ isSemicolon => exact ⟨_ :: _ :: _ :: _, _, rfl, isSemicolon⟩
  | expression derived =>
      cases derived with
      | intro _ isSemicolon => exact ⟨_, _, rfl, isSemicolon⟩

theorem matched_of_names {names : List Token} (listed : Names words names) : Matched words := by
  induction listed with
  | last isName => exact .cons isName .nil
  | more isName isComma _ ih => exact .cons isName (.cons isComma ih)

theorem free_of_names {names : List Token} (listed : Names words names) :
    ∀ token ∈ words, token.kind ≠ .semicolon := by
  induction listed with
  | last isName => simp [isName]
  | more isName isComma _ ih => simpa [isName, isComma] using ih

theorem matched_of_parameters {params : List Token} (listed : Parameters words params) :
    Matched words := by
  cases listed with
  | absent => exact .nil
  | present listed _ => exact matched_of_names listed

theorem free_of_parameters {params : List Token} (listed : Parameters words params) :
    ∀ token ∈ words, token.kind ≠ .semicolon := by
  cases listed with
  | absent => simp
  | present listed _ => exact free_of_names listed

theorem matched_of_stmtDerives {nearest : Bool} {clause : Clause} {start after : Supply}
    {tree : clause.Tree} (derived : StmtDerives nearest clause start words tree after) :
    Matched words := by
  induction derived with
  | none | noMethod => exact .nil
  | next _ _ ih ih' | nextMethod _ _ ih ih' => exact .append ih ih'
  | statement _ ih => exact ih
  | varDecl declared => exact matched_of_varDecl declared
  | exprStmt derived => exact matched_of_exprStmt derived
  | block isOpening _ isClosing ih => exact .braces isOpening ih isClosing
  | classDecl isClass isName isOpening _ isClosing ih =>
      exact .cons isClass (.cons isName (.braces isOpening ih isClosing))
  | subclassDecl isClass isName isLess isParent isOpening _ isClosing ih =>
      exact .cons isClass (.cons isName (.cons isLess (.cons isParent
        (.braces isOpening ih isClosing))))
  | funDecl isFun _ ih => exact .cons isFun ih
  | function isName isParen listed isClosingParen isOpening _ isClosing ih =>
      exact .cons isName (.cons isParen (.append (matched_of_parameters listed)
        (.cons isClosingParen (.braces isOpening ih isClosing))))
  | forLoop isFor isOpening initialized conditional isSemicolon incremented isClosing _ ih =>
      exact .cons isFor (.cons isOpening (.append (matched_of_forInitializer initialized)
        (.append (matched_of_optionalExpr conditional) (.cons isSemicolon
          (.append (matched_of_optionalExpr incremented) (.cons isClosing ih))))))
  | ifThen isKeyword isOpening conditional isClosing _ ih
  | whileLoop isKeyword isOpening conditional isClosing _ ih =>
      exact .cons isKeyword (.cons isOpening (.append (matched_of_exprDerives conditional)
        (.cons isClosing ih)))
  | ifElse isIf isOpening conditional isClosing _ _ isElse _ ih ih' =>
      exact .cons isIf (.cons isOpening (.append (matched_of_exprDerives conditional)
        (.cons isClosing (.append ih (.cons isElse ih')))))
  | print isPrint derived isSemicolon =>
      exact .cons isPrint (matched_of_exprStmt (.intro derived isSemicolon))
  | returnStmt isReturn derived isSemicolon =>
      exact .cons isReturn (.append (matched_of_optionalExpr derived) (.cons isSemicolon .nil))

end Braces

/-! Where reading stops. -/

/-- What comes next does not go on what stands before it. It continues no expression and, where a
clause is still empty, begins none; and it is no semicolon that could stand for the missing one. -/
structure Halts (before rest : List Token) : Prop where
  stops : Stops .expression rest
  unclosed : ∀ next ∈ rest.head?, next.kind ≠ .semicolon
  opened : ∀ last ∈ before.getLast?, last.kind ≠ .leftParen
  empty : ∀ last ∈ before.getLast?, last.kind = .returnWord ∨ last.kind = .semicolon →
    ∀ next ∈ rest.head?, beginsExpression next.kind = false

theorem Halts.suffix {words others rest : List Token} (halts : Halts (words ++ others) rest)
    (present : others ≠ []) : Halts others rest := by
  have same : (words ++ others).getLast? = others.getLast? := by
    rw [List.getLast?_append_of_ne_nil _ present]
  exact ⟨halts.stops, halts.unclosed, same ▸ halts.opened, same ▸ halts.empty⟩

/-- The rule reads the words and is stuck at what comes next. -/
def Breaks (rule : Reader α) (words : List Token) : Prop :=
  ∀ rest, Halts words rest → ∃ what, rule.fate (words ++ rest) = .stuckAt rest what

theorem Breaks.leads {rule : Reader α} {inner : Reader β} {words others : List Token}
    (breaks : Breaks inner others) (leads : Reader.Leads rule words inner) (present : others ≠ []) :
    Breaks rule (words ++ others) := by
  obtain ⟨next, read⟩ := leads
  intro rest halts
  obtain ⟨what, stuck⟩ := breaks rest (halts.suffix present)
  refine ⟨what, ?_⟩
  rw [List.append_assoc, read, stuck]
  rfl

/-! Expressions that are missing. -/

section Missing

variable {rest : List Token} (missing : ∀ next ∈ rest.head?, beginsExpression next.kind = false)

include missing

theorem primary_missing (supply : Supply) :
    (primary ⟨rest, supply⟩).fate = .stuckAt rest .expression := by
  rw [primary]
  cases rest with
  | nil => rfl
  | cons token rest =>
      have other := missing token rfl
      rw [Position.accept?_cons rfl]
      dsimp only
      split <;> first | rfl | (rename_i same; rw [same] at other; exact absurd other (by decide))

theorem unary_missing (supply : Supply) :
    (unary ⟨rest, supply⟩).fate = .stuckAt rest .expression := by
  have unsigned : Position.accept? ⟨rest, supply⟩ (fun kind => kind = .bang || kind = .minus) = none := by
    refine Position.accept?_none fun next first => ?_
    have other := missing next first
    simp_all [beginsExpression]
  rw [unary, unsigned]
  exact Parsed.fate_andThen_of_stuckAt (primary_missing missing supply)

theorem chain_missing (level : Level) (supply : Supply) :
    (chain level ⟨rest, supply⟩).fate = .stuckAt rest .expression := by
  rw [chain]
  refine Parsed.fate_andThen_of_stuckAt ?_
  rw [operand]
  split
  · rename_i next found
    have := Level.rank_tighter found
    exact chain_missing next supply
  · exact unary_missing missing supply
termination_by level.rank

theorem assignment_missing (comma : Bool) (supply : Supply) :
    (assignment comma ⟨rest, supply⟩).fate = .stuckAt rest .expression := by
  rw [assignment, conditional]
  exact Parsed.fate_andThen_of_stuckAt (Parsed.fate_andThen_of_stuckAt (chain_missing missing _ supply))

end Missing

/-! Values without their semicolon. -/

theorem fate_expect_missing {rest : List Token} {kind : TokenKind}
    (other : ∀ next ∈ rest.head?, next.kind ≠ kind) (what : Expected) (supply : Supply) :
    (Position.expect ⟨rest, supply⟩ kind what).fate = .stuckAt rest what := by
  rw [Position.expect, Position.accept?_none (by simpa using other)]
  rfl

theorem fate_value {start after : Supply} {words rest : List Token} {expr : Expr}
    (derived : ExprDerives .expression start words expr after) (stops : Stops .expression rest)
    (unclosed : ∀ next ∈ rest.head?, next.kind ≠ .semicolon) {bound : Nat} {what : Expected}
    {build : Expr → Token → α}
    {weaker : ∀ _ after, after.size < Position.size ⟨words ++ rest, start⟩ → after.size ≤ bound}
    {weaker' : Position.size ⟨words ++ rest, start⟩ ≤ bound} :
    ((assignment true ⟨words ++ rest, start⟩).andThen (fun value after shorter =>
        (after.expect .semicolon what).map (build value) (weaker value after shorter)) weaker').fate =
      .stuckAt rest what := by
  rw [(complete_of_exprDerives derived rest stops).fate_andThen, Parsed.fate_map]
  exact fate_expect_missing unclosed what after

section Values

variable {start after : Supply} {words : List Token} {expr : Expr}
  (derived : ExprDerives .expression start words expr after)

include derived

theorem breaks_expressionStatement : Breaks expressionStatement words := by
  intro rest halts
  refine ⟨.expressionEnd, ?_⟩
  rw [← steady_expressionStatement _ start, expressionStatement]
  exact fate_value derived halts.stops halts.unclosed

theorem breaks_printStatement (keyword : Token) : Breaks (printStatement keyword) words := by
  intro rest halts
  refine ⟨.printEnd, ?_⟩
  rw [← steady_printStatement _ _ start, printStatement]
  exact fate_value derived halts.stops halts.unclosed

theorem breaks_clause (what : Expected) : Breaks (clause .semicolon what) words := by
  intro rest halts
  obtain ⟨first, others, rfl, isFirst⟩ := derived.begins
  have elsewhere : ¬ Position.isAt ⟨first :: others ++ rest, start⟩ .semicolon = true := by
    rw [List.cons_append, Position.isAt_cons]
    intro same
    rw [same] at isFirst
    exact absurd isFirst (by decide)
  refine ⟨what, ?_⟩
  rw [← steady_clause _ _ _ start, clause, if_neg elsewhere]
  exact fate_value derived halts.stops halts.unclosed

theorem breaks_initialized {name equals : Token} (isName : name.kind = .identifier)
    (isEqual : equals.kind = .equal) : Breaks varDeclaration (name :: equals :: words) := by
  intro rest halts
  refine ⟨.variableEnd, ?_⟩
  rw [← steady_varDeclaration _ start, varDeclaration, List.cons_append, List.cons_append,
    (Position.yields_expect_cons isName).fate_andThen,
    Position.accept?_cons (by simpa using isEqual)]
  exact fate_value derived halts.stops halts.unclosed

end Values

theorem breaks_bare {name : Token} (isName : name.kind = .identifier) :
    Breaks varDeclaration [name] := by
  intro rest halts
  have unassigned : ∀ next ∈ rest.head?, decide (next.kind = .equal) = false := by
    intro next first
    have other := halts.stops next first
    simp_all [Phrase.Continues]
  refine ⟨.variableEnd, ?_⟩
  rw [Reader.fate, List.singleton_append, varDeclaration,
    (Position.yields_expect_cons isName).fate_andThen, Position.accept?_none unassigned]
  dsimp only
  rw [Parsed.fate_map]
  exact fate_expect_missing halts.unclosed _ _

theorem fate_clause_missing {rest : List Token} (what : Expected)
    (missing : ∀ next ∈ rest.head?, beginsExpression next.kind = false)
    (unclosed : ∀ next ∈ rest.head?, next.kind ≠ .semicolon) :
    Reader.fate (clause .semicolon what) rest = .stuckAt rest .expression := by
  have elsewhere : ¬ Position.isAt ⟨rest, {}⟩ .semicolon = true := by
    cases rest with
    | nil => simp [Position.isAt, Position.place]
    | cons next rest =>
        rw [Position.isAt_cons]
        exact unclosed next rfl
  rw [Reader.fate, clause, if_neg elsewhere]
  exact Parsed.fate_andThen_of_stuckAt (assignment_missing missing true {})

/-! Tearing. -/

/-- Declarations of a block of which the last is broken off. -/
inductive Torn (start : Supply) : List Token → Prop
  | intro {finished stmts after broken} :
      StmtDerives true .declarations start finished stmts after →
      Begins beginsDeclaration broken → Matched broken → Breaks declaration broken →
      Torn start (finished ++ broken)

inductive Inside (opens : List Token → Prop) : List Token → Prop
  | intro {words opening start others} : opening.kind = .leftBrace → opens (words ++ [opening]) →
      Torn start others → Inside opens (words ++ opening :: others)

inductive Severed (rule : Reader α) (words : List Token) : Prop
  | direct : Matched words → words ≠ [] → Breaks rule words → Severed rule words
  | inside : Inside (Opens rule) words → Severed rule words

section Tearing

variable {rule : Reader α} {inner : Reader β} {words others : List Token}
  {opens opens' : List Token → Prop}

theorem Inside.prepend (inside : Inside opens others)
    (within : ∀ kept, opens kept → opens' (words ++ kept)) : Inside opens' (words ++ others) := by
  cases inside with
  | @intro words' opening start others' isOpening opened torn =>
      have opened' := within _ opened
      rw [← List.append_assoc] at opened' ⊢
      exact .intro isOpening opened' torn

theorem Inside.imp {kinds : TokenKind → Bool} (inside : Inside opens words)
    (begins : Begins kinds words)
    (within : ∀ kept, Begins kinds kept → opens kept → opens' kept) : Inside opens' words := by
  cases inside with
  | @intro words opening start others isOpening opened torn =>
      have begins' : Begins kinds (words ++ [opening]) := by
        rw [List.append_cons] at begins
        exact begins.of_append (by simp)
      exact .intro isOpening (within _ begins' opened) torn

theorem severed_value {start after : Supply} {expr : Expr}
    (derived : ExprDerives .expression start words expr after) (breaks : Breaks rule words) :
    Severed rule words :=
  .direct (matched_of_exprDerives derived) derived.begins.ne_nil breaks

theorem Severed.leads (severed : Severed inner others) (leads : Reader.Leads rule words inner)
    (matched : Matched words) : Severed rule (words ++ others) := by
  cases severed with
  | direct matched' present breaks =>
      exact .direct (.append matched matched') (by simp [present]) (breaks.leads leads present)
  | inside inside => exact .inside (inside.prepend fun _ opened => opened.leads leads)

theorem Severed.imp {rule' : Reader β} {kinds : TokenKind → Bool} (severed : Severed rule words)
    (begins : Begins kinds words)
    (same : ∀ {kept}, Begins kinds kept → ∀ rest, rule'.fate (kept ++ rest) = rule.fate (kept ++ rest)) :
    Severed rule' words := by
  cases severed with
  | direct matched present breaks =>
      refine .direct matched present fun rest halts => ?_
      rw [same begins]
      exact breaks rest halts
  | inside inside =>
      refine .inside (inside.imp begins fun kept begins' opened => ?_)
      intro tokens notes rest resumes
      rw [same begins', same begins', opened resumes]

theorem Opens.of_method (opens : Opens (function .method) words)
    (begins : Begins beginsFunction words) : Opens methods words := by
  have read (rest : List Token) : Reader.fate methods (words ++ rest) =
      (Reader.fate (function .method) (words ++ rest)).andThen (Reader.fate methods) := by
    rw [Reader.fate, methods, if_neg (unended_of_begins begins rfl _ _)]
    refine Parsed.fate_andThen fun first after _ => ?_
    rw [Parsed.fate_map]
    exact steady_methods after.rest after.supply
  intro tokens notes rest resumes
  rw [read, read, opens resumes, Fate.noting_andThen]

/-- How the tokens before a semicolon of a clause are read without it. -/
def Cut : Clause → Supply → List Token → Prop
  | .declarations, start, before => Torn start before ∨ Inside Reopens before
  | .declaration _, _, before => Severed declaration before
  | .statement _, _, before => Severed statement before
  | .function, _, before => ∀ kind, Inside (Opens (function kind)) before
  | .functions, _, before => Inside (Opens methods) before

theorem inside_of_cut (words : List Token) {start : Supply} {opening : Token} (cut : Cut .declarations start others)
    (isOpening : opening.kind = .leftBrace) (leads : Reader.Leads rule (words ++ [opening]) block) :
    Inside (Opens rule) (words ++ opening :: others) := by
  rcases cut with torn | inside
  · have opened := Reopens.nil.opens_block.leads leads
    rw [List.append_nil] at opened
    exact .intro isOpening opened torn
  · rw [List.append_cons]
    exact inside.prepend fun _ reopens => reopens.opens_block.leads leads

theorem semicolon_cases {semicolon : Token} {before rest : List Token}
    (same : words ++ others = before ++ semicolon :: rest) :
    (∃ rest', words = before ++ semicolon :: rest') ∨
      ∃ between, before = words ++ between ∧ others = between ++ semicolon :: rest := by
  rcases List.append_eq_append_iff.mp same with ⟨between, rfl, right⟩ | ⟨between, rfl, right⟩
  · exact .inr ⟨between, rfl, right⟩
  · cases between with
    | nil => exact .inr ⟨[], by simp, by simpa using right.symm⟩
    | cons token between =>
        obtain ⟨rfl, -⟩ : semicolon = token ∧ rest = between ++ others := by simpa using right
        exact .inl ⟨between, rfl⟩

theorem semicolon_after (words : List Token) {semicolon : Token} {before rest : List Token}
    (isSemicolon : semicolon.kind = .semicolon) (free : ∀ token ∈ words, token.kind ≠ .semicolon)
    (same : words ++ others = before ++ semicolon :: rest) :
    ∃ between, before = words ++ between ∧ others = between ++ semicolon :: rest := by
  rcases semicolon_cases same with ⟨rest', rfl⟩ | after
  · exact absurd isSemicolon (free semicolon (by simp))
  · exact after

end Tearing

section Cut

variable {semicolon : Token} (isSemicolon : semicolon.kind = .semicolon)

include isSemicolon

theorem semicolon_last {words before rest : List Token} {last : Token}
    (free : ∀ token ∈ words, token.kind ≠ .semicolon)
    (same : words ++ [last] = before ++ semicolon :: rest) : before = words := by
  obtain ⟨between, rfl, single⟩ := semicolon_after _ isSemicolon free same
  obtain rfl : between = [] := by
    have length := congrArg List.length single
    rw [← List.length_eq_zero_iff]
    simp at length
    omega
  rw [List.append_nil]

theorem semicolon_within {words before rest : List Token} {closing : Token}
    (other : closing.kind ≠ .semicolon) (same : words ++ [closing] = before ++ semicolon :: rest) :
    ∃ rest', words = before ++ semicolon :: rest' := by
  rcases semicolon_cases same with found | ⟨between, -, single⟩
  · exact found
  · have member : semicolon ∈ [closing] := by simp [single]
    obtain rfl : semicolon = closing := by simpa using member
    exact absurd isSemicolon other

theorem begins_before {kinds : TokenKind → Bool} {before rest : List Token}
    (begins : Begins kinds (before ++ semicolon :: rest)) (excluded : kinds .semicolon = false) :
    Begins kinds before := by
  refine begins.of_append ?_
  rintro rfl
  obtain ⟨first, others, same, kind⟩ := begins
  obtain ⟨rfl, -⟩ : semicolon = first ∧ rest = others := by simpa using same
  rw [isSemicolon, excluded] at kind
  exact absurd kind (by simp)

theorem semicolon_after_condition {start after : Supply} {keyword opening closing : Token}
    {conditionWords others before rest : List Token} {condition : Expr} {kind : TokenKind}
    (isKeyword : keyword.kind = kind) (isOpening : opening.kind = .leftParen)
    (conditional : ExprDerives .expression start conditionWords condition after)
    (isClosing : closing.kind = .rightParen)
    (same : keyword :: opening :: (conditionWords ++ closing :: others) = before ++ semicolon :: rest)
    (other : kind ≠ .semicolon := by decide) :
    ∃ between, before = keyword :: opening :: (conditionWords ++ [closing]) ++ between ∧
      others = between ++ semicolon :: rest := by
  have regrouped : keyword :: opening :: (conditionWords ++ [closing]) ++ others =
      before ++ semicolon :: rest := by simpa using same
  refine semicolon_after _ isSemicolon ?_ regrouped
  simpa [isKeyword, other, isOpening, isClosing, or_imp, forall_and] using
    free_of_exprDerives conditional

theorem severed_varDecl {start after : Supply} {before rest : List Token} {stmt : Stmt}
    (declared : VarDecl start (before ++ semicolon :: rest) stmt after) :
    ∃ keyword others, before = keyword :: others ∧ keyword.kind = .varWord ∧
      Severed varDeclaration others := by
  generalize same : before ++ semicolon :: rest = words at declared
  cases declared with
  | @bare keyword name _ isVar isName _ =>
      have header : before = [keyword, name] :=
        semicolon_last isSemicolon (by simp [isVar, isName]) same.symm
      exact ⟨keyword, [name], header, isVar, .direct (.cons isName .nil) (by simp) (breaks_bare isName)⟩
  | @initialized keyword name equals words _ _ _ isVar isName isEqual derived _ =>
      have header : before = keyword :: name :: equals :: words := by
        refine semicolon_last isSemicolon ?_ same.symm
        simpa [isVar, isName, isEqual] using free_of_exprDerives derived
      exact ⟨keyword, _, header, isVar,
        .direct (.cons isName (.cons isEqual (matched_of_exprDerives derived))) (by simp)
          (breaks_initialized derived isName isEqual)⟩

theorem severed_exprStmt {start after : Supply} {before rest : List Token} {stmt : Stmt}
    (derived : ExprStmt start (before ++ semicolon :: rest) stmt after) :
    Severed expressionStatement before := by
  generalize same : before ++ semicolon :: rest = words at derived
  cases derived with
  | @intro words _ _ _ derived _ =>
      obtain rfl : before = words := semicolon_last isSemicolon (free_of_exprDerives derived) same.symm
      exact severed_value derived (breaks_expressionStatement derived)

theorem severed_forInitializer {start after : Supply} {before rest : List Token} {stmt : Option Stmt}
    (initialized : ForInitializer start (before ++ semicolon :: rest) stmt after) :
    before = [] ∨ Severed forInitializer before := by
  generalize same : before ++ semicolon :: rest = words at initialized
  cases initialized with
  | absent => exact .inl (semicolon_last isSemicolon (by simp) same.symm)
  | declared declared =>
      rw [← same] at declared
      obtain ⟨keyword, others, rfl, isVar, severed⟩ := severed_varDecl isSemicolon declared
      exact .inr (severed.leads (leads_varInitializer isVar) (.cons isVar .nil))
  | expression derived =>
      rw [← same] at derived
      have begins := begins_before isSemicolon (exprStmt_begins derived) rfl
      refine .inr ((severed_exprStmt isSemicolon derived).imp begins fun begins' rest => ?_)
      rw [Reader.fate, forInitializer, begins'.accept? (by intro kind; cases kind <;> decide)]
      dsimp only
      rw [begins'.accept? (by intro kind; cases kind <;> decide)]
      exact Parsed.fate_map ..

omit isSemicolon in
theorem severed_return {start after : Supply} {keyword : Token} {words : List Token}
    {expr : Option Expr} (isReturn : keyword.kind = .returnWord)
    (derived : OptionalExpr start words expr after) : Severed statement ([keyword] ++ words) := by
  cases derived with
  | present derived =>
      exact (severed_value derived (breaks_clause derived _)).leads (leads_return isReturn)
        (.cons isReturn .nil)
  | absent =>
      refine .direct (.cons isReturn .nil) (by simp) fun rest halts => ⟨.expression, ?_⟩
      have missing := halts.empty keyword rfl (.inl isReturn)
      obtain ⟨next, read⟩ := leads_return isReturn
      rw [List.append_nil, read, fate_clause_missing _ missing halts.unclosed]
      rfl

theorem severed_forHeader {start atCondition atIncrement : Supply} {keyword opening semicolon' : Token}
    {initWords conditionWords others before rest : List Token} {initializer : Option Stmt}
    {condition : Option Expr} (isFor : keyword.kind = .forWord) (isOpening : opening.kind = .leftParen)
    (initialized : ForInitializer start initWords initializer atCondition)
    (conditional : OptionalExpr atCondition conditionWords condition atIncrement)
    (same : initWords ++ (conditionWords ++ semicolon' :: others) = before ++ semicolon :: rest) :
    Severed statement (keyword :: opening :: before) ∨
      ∃ between, before = initWords ++ (conditionWords ++ semicolon' :: between) ∧
        others = between ++ semicolon :: rest := by
  have header : Matched [keyword, opening] := .cons isFor (.cons isOpening .nil)
  rcases semicolon_cases same with ⟨rest', rfl⟩ | ⟨between, rfl, same'⟩
  · refine .inl ?_
    rcases severed_forInitializer isSemicolon initialized with rfl | severed
    · refine .direct header (by simp) fun rest halts => ?_
      exact absurd isOpening (halts.opened opening (by simp))
    · exact severed.leads (leads_forInitializer isFor isOpening) header
  obtain ⟨between, rfl, same''⟩ :=
    semicolon_after _ isSemicolon (free_of_optionalExpr conditional) same'
  cases between with
  | cons token between =>
      obtain ⟨rfl, rfl⟩ : semicolon' = token ∧ others = between ++ semicolon :: rest := by
        simpa using same''
      exact .inr ⟨between, rfl, rfl⟩
  | nil =>
      refine .inl ?_
      rw [List.append_nil]
      have matched : Matched (keyword :: opening :: initWords) :=
        .append header (matched_of_forInitializer initialized)
      cases conditional with
      | present derived =>
          exact (severed_value derived (breaks_clause derived _)).leads
            (leads_forCondition isFor isOpening initialized) matched
      | absent =>
          rw [List.append_nil]
          refine .direct matched (by simp) fun rest halts => ⟨.expression, ?_⟩
          obtain ⟨words, last, rfl, isLast⟩ := forInitializer_last initialized
          have ends : last ∈ (keyword :: opening :: words ++ [last]).getLast? := List.getLast?_concat
          have missing := halts.empty last ends (.inr isLast)
          obtain ⟨next, read⟩ := leads_forCondition isFor isOpening initialized
          rw [read, fate_clause_missing _ missing halts.unclosed]
          rfl

/-- Wherever a semicolon stands in a clause, what is before it is torn there. -/
theorem cut_of_stmtDerives {clause : Clause} {start after : Supply} {words before rest : List Token}
    {tree : clause.Tree} (derived : StmtDerives true clause start words tree after)
    (same : words = before ++ semicolon :: rest) : Cut clause start before := by
  induction derived generalizing before rest with
  | none | noMethod => simp at same
  | @next start words _ stmt middle _ _ _ derived derived' ih ih' =>
      rcases semicolon_cases same with ⟨rest', rfl⟩ | ⟨between, rfl, rfl⟩
      · have begins : Begins beginsDeclaration before :=
          begins_before isSemicolon (clauseBegins_of_stmtDerives derived) rfl
        cases ih rfl with
        | direct matched _ breaks => exact .inl (.intro .none begins matched breaks)
        | inside inside => exact .inr (inside.imp begins fun _ begins' opened => opened.reopens begins')
      · have begins : Begins beginsDeclaration between := by
          rcases clauseBegins_of_stmtDerives derived' with empty | begins
          · simp at empty
          · exact begins_before isSemicolon begins rfl
        rcases ih' rfl with torn | inside
        · cases torn with
          | intro finished begun matched breaks =>
              rw [← List.append_assoc]
              exact .inl (.intro (.next derived finished) begun matched breaks)
        · have whole : StmtDerives true .declarations start words [stmt] middle := by
            have single := StmtDerives.next derived .none
            rwa [List.append_nil] at single
          have inside' := inside.imp begins fun kept begins' reopens => And.intro begins' reopens
          exact .inr (inside'.prepend fun _ kept => kept.2.after_declarations kept.1 whole)
  | classDecl isClass isName isOpening _ isClosing ih =>
      obtain ⟨between, rfl, same'⟩ :=
        semicolon_after [_, _, _] isSemicolon (by simp [isClass, isName, isOpening]) same
      obtain ⟨rest', rfl⟩ := semicolon_within isSemicolon (by simp [isClosing]) same'
      exact .inside ((ih rfl).prepend fun _ opened => opened.leads (leads_class isClass isName isOpening))
  | subclassDecl isClass isName isLess isParent isOpening _ isClosing ih =>
      obtain ⟨between, rfl, same'⟩ := semicolon_after [_, _, _, _, _] isSemicolon
        (by simp [isClass, isName, isLess, isParent, isOpening]) same
      obtain ⟨rest', rfl⟩ := semicolon_within isSemicolon (by simp [isClosing]) same'
      exact .inside ((ih rfl).prepend fun _ opened =>
        opened.leads (leads_subclass isClass isName isLess isParent isOpening))
  | funDecl isFun _ ih =>
      obtain ⟨between, rfl, rfl⟩ := semicolon_after [_] isSemicolon (by simp [isFun]) same
      exact .inside ((ih rfl .function).prepend fun _ opened => opened.leads (leads_funDecl isFun))
  | varDecl declared =>
      subst same
      obtain ⟨keyword, others, rfl, isVar, severed⟩ := severed_varDecl isSemicolon declared
      exact severed.leads (leads_var isVar) (.cons isVar .nil)
  | statement derived ih =>
      subst same
      have begins := begins_before isSemicolon (clauseBegins_of_stmtDerives derived) rfl
      refine (ih rfl).imp begins fun begins' rest => ?_
      rw [Reader.fate, declaration_statement begins']
      rfl
  | nextMethod derived _ ih ih' =>
      rcases semicolon_cases same with ⟨rest', rfl⟩ | ⟨between, rfl, rfl⟩
      · have begins := begins_before isSemicolon (clauseBegins_of_stmtDerives derived) rfl
        exact (ih rfl .method).imp begins fun _ begins' opened => opened.of_method begins'
      · exact (ih' rfl).prepend fun _ opened => opened.leads (leads_methods derived)
  | @function _ name openingParen paramWords _ closingParen opening words _ _ closing isName isParen
      listed isClosingParen isOpening _ isClosing ih =>
      intro kind
      have same' : name :: openingParen :: (paramWords ++ [closingParen, opening]) ++
          (words ++ [closing]) = before ++ semicolon :: rest := by simpa using same
      have free : ∀ token ∈ name :: openingParen :: (paramWords ++ [closingParen, opening]),
          token.kind ≠ .semicolon := by
        simpa [isName, isParen, isClosingParen, isOpening, or_imp, forall_and] using
          free_of_parameters listed
      obtain ⟨between, rfl, within⟩ := semicolon_after _ isSemicolon free same'
      obtain ⟨rest', rfl⟩ := semicolon_within isSemicolon (by simp [isClosing]) within
      have leads := leads_function kind isName isParen listed isClosingParen isOpening
      have regrouped : name :: openingParen :: (paramWords ++ [closingParen, opening]) =
          name :: openingParen :: (paramWords ++ [closingParen]) ++ [opening] := by simp
      rw [regrouped] at leads ⊢
      rw [← List.append_cons]
      exact inside_of_cut _ (ih rfl) isOpening leads
  | exprStmt derived =>
      subst same
      have begins := begins_before isSemicolon (exprStmt_begins derived) rfl
      refine (severed_exprStmt isSemicolon derived).imp begins fun begins' rest => ?_
      rw [Reader.fate, statement_expression begins']
      rfl
  | @forLoop _ keyword opening initWords _ _ conditionWords _ _ semicolon' incrementWords _ _ closing
      words _ _ _ isFor isOpening initialized conditional isSemicolon' incremented isClosing _ ih =>
      obtain ⟨between, rfl, same'⟩ :=
        semicolon_after [_, _] isSemicolon (by simp [isFor, isOpening]) same
      rcases severed_forHeader isSemicolon isFor isOpening initialized conditional same' with
        severed | ⟨between', rfl, same''⟩
      · exact severed
      · have regrouped : incrementWords ++ [closing] ++ words = between' ++ semicolon :: rest := by
          simpa using same''
        have free : ∀ token ∈ incrementWords ++ [closing], token.kind ≠ .semicolon := by
          simpa [isClosing, or_imp, forall_and] using free_of_optionalExpr incremented
        obtain ⟨inBody, rfl, rfl⟩ := semicolon_after _ isSemicolon free regrouped
        have matched : Matched (keyword :: opening :: (initWords ++ (conditionWords ++
            semicolon' :: (incrementWords ++ [closing])))) :=
          .cons isFor (.cons isOpening (.append (matched_of_forInitializer initialized)
            (.append (matched_of_optionalExpr conditional) (.cons isSemicolon'
              (.append (matched_of_optionalExpr incremented) (.cons isClosing .nil))))))
        have severed := (ih rfl).leads
          (leads_for isFor isOpening initialized conditional isSemicolon' incremented isClosing) matched
        rw [Cut]
        simpa using severed
  | @ifThen _ keyword opening conditionWords _ _ closing words _ _ _ isIf isOpening conditional isClosing
      _ ih =>
      obtain ⟨between, rfl, rfl⟩ :=
        semicolon_after_condition isSemicolon isIf isOpening conditional isClosing same
      exact (ih rfl).leads (leads_if isIf isOpening conditional isClosing)
        (matched_condition isIf isOpening conditional isClosing)
  | @ifElse _ keyword opening conditionWords _ _ closing thenWords _ _ _ elseWord _ _ _ _ isIf isOpening
      conditional isClosing thenDerived nearest isElse _ ih ih' =>
      obtain ⟨between, rfl, same'⟩ :=
        semicolon_after_condition isSemicolon isIf isOpening conditional isClosing same
      have matched := matched_condition isIf isOpening conditional isClosing
      rcases semicolon_cases same' with ⟨rest', rfl⟩ | ⟨between', rfl, same''⟩
      · exact (ih rfl).leads (leads_if isIf isOpening conditional isClosing) matched
      · obtain ⟨inElse, rfl, rfl⟩ := semicolon_after [_] isSemicolon (by simp [isElse]) same''
        obtain rfl := nearest rfl
        have regrouped : keyword :: opening :: (conditionWords ++ [closing]) ++
            (thenWords ++ ([elseWord] ++ inElse)) =
            keyword :: opening :: (conditionWords ++ closing :: (thenWords ++ [elseWord])) ++ inElse := by
          simp
        have matched' : Matched
            (keyword :: opening :: (conditionWords ++ closing :: (thenWords ++ [elseWord]))) := by
          have whole := matched.append ((matched_of_stmtDerives thenDerived).append (.cons isElse .nil))
          simpa using whole
        rw [regrouped]
        exact (ih' rfl).leads (leads_else isIf isOpening conditional isClosing thenDerived isElse) matched'
  | print isPrint derived isSemicolon' =>
      obtain ⟨between, rfl, same'⟩ := semicolon_after [_] isSemicolon (by simp [isPrint]) same
      obtain rfl := semicolon_last isSemicolon (free_of_exprDerives derived) same'
      exact (severed_value derived (breaks_printStatement derived _)).leads (leads_print isPrint)
        (.cons isPrint .nil)
  | returnStmt isReturn derived isSemicolon' =>
      obtain ⟨between, rfl, same'⟩ := semicolon_after [_] isSemicolon (by simp [isReturn]) same
      obtain rfl := semicolon_last isSemicolon (free_of_optionalExpr derived) same'
      exact severed_return isReturn derived
  | whileLoop isWhile isOpening conditional isClosing _ ih =>
      obtain ⟨between, rfl, rfl⟩ :=
        semicolon_after_condition isSemicolon isWhile isOpening conditional isClosing same
      exact (ih rfl).leads (leads_while isWhile isOpening conditional isClosing)
        (matched_condition isWhile isOpening conditional isClosing)
  | block isOpening _ isClosing ih =>
      obtain ⟨between, rfl, same'⟩ := semicolon_after [_] isSemicolon (by simp [isOpening]) same
      obtain ⟨rest', rfl⟩ := semicolon_within isSemicolon (by simp [isClosing]) same'
      have leads := leads_block isOpening
      exact .inside (inside_of_cut [] (ih rfl) isOpening leads)

end Cut

/-! Whole programs. -/

theorem Torn.matched {start : Supply} {words : List Token} (torn : Torn start words) :
    Matched words := by
  cases torn with
  | intro finished _ matched _ => exact (matched_of_stmtDerives finished).append matched

theorem exists_torn {start : Supply} {before : List Token} (cut : Cut .declarations start before) :
    Reopens (enclosing before) ∧
      ∃ start' inside, before = enclosing before ++ inside ∧ Torn start' inside := by
  rcases cut with torn | inside
  · rw [enclosing_matched torn.matched]
    exact ⟨.nil, start, before, rfl, torn⟩
  · cases inside with
    | @intro words opening start' others isOpening reopens torn =>
        rw [enclosing_opened isOpening torn.matched]
        exact ⟨reopens, start', others, List.append_cons .., torn⟩

theorem errors_program (tokens : List Token) (supply : Supply) :
    (program tokens supply).errors = (reports (words tokens)).map (·.locate (ending tokens)) := by
  rw [program]
  dsimp only
  rw [notes_declarations]

theorem errors_program_ended {taken : List Token} (unended : ∀ token ∈ taken, token.isEnding = false)
    {eof : Token} (isEnding : eof.isEnding = true) (supply : Supply) :
    (program (taken ++ [eof]) supply).errors = (reports taken).map (·.locate eof) := by
  rw [errors_program, words_append unended isEnding, ending_append unended isEnding]

theorem words_of_ended {before : List Token} (ended : ∃ token ∈ before, token.isEnding = true)
    (rest : List Token) : words (before ++ rest) = words before := by
  obtain ⟨token, member, isEnding⟩ := ended
  induction before with
  | nil => simp at member
  | cons first others ih =>
      by_cases isWord : first.isEnding = true
      · simp [words, isWord]
      · have later : token ∈ others := by
          rcases List.mem_cons.mp member with rfl | later
          · exact absurd isEnding isWord
          · exact later
        have same := ih later
        unfold words at same ⊢
        simp [isWord, same]

theorem mem_boundary {tokens : List Token} {token : Token} (member : token ∈ boundary tokens) :
    token ∈ tokens := by
  have inside : boundary tokens <:+ tokens := (Call.descends ⟨.boundary, ⟨tokens, {}⟩⟩).whole
  exact inside.mem member

/-- The last declaration of a block is broken off, whole ones before it. -/
structure BrokenOff (before finished broken : List Token) : Prop where
  parts : before = enclosing before ++ (finished ++ broken)
  whole : ∃ start stmts last, StmtDerives true .declarations start finished stmts last
  begins : Begins beginsDeclaration broken
  breaks : Breaks declaration broken
  reopens : Reopens (enclosing before)

theorem exists_brokenOff {before rest : List Token} {semicolon : Token}
    (isSemicolon : semicolon.kind = .semicolon) (accepted : reports (before ++ semicolon :: rest) = []) :
    ∃ finished broken, BrokenOff before finished broken := by
  have read : declarations ⟨before ++ semicolon :: rest, {}⟩ =
      ((declarations ⟨before ++ semicolon :: rest, {}⟩).1, [],
        (declarations ⟨before ++ semicolon :: rest, {}⟩).2.2) := by rw [← accepted]; rfl
  obtain ⟨reopens, start, inside, parts, torn⟩ :=
    exists_torn (cut_of_stmtDerives isSemicolon (declarations_eq_iff.mp read) rfl)
  cases torn with
  | intro whole begins _ breaks => exact ⟨_, _, parts, ⟨_, _, _, whole⟩, begins, breaks, reopens⟩

namespace BrokenOff

variable {before finished broken : List Token} (off : BrokenOff before finished broken)

include off

theorem reports_eq (rest : List Token) :
    reports (before ++ rest) = (Reader.fate declaration (broken ++ rest)).recovered.1 ++
      reports (enclosing before ++ (Reader.fate declaration (broken ++ rest)).recovered.2) := by
  obtain ⟨start, stmts, last, whole⟩ := off.whole
  have begins := off.begins.append rest
  have resumes := (resumes_of_stmtDerives whole begins).trans (.single begins)
  have regrouped : before ++ rest = enclosing before ++ (finished ++ (broken ++ rest)) := by
    conv_lhs => rw [off.parts]
    simp
  rw [regrouped, off.reopens.reports_eq resumes, List.nil_append]

theorem recovered_eq {rest : List Token} (halts : Halts before rest) :
    ∃ what, (Reader.fate declaration (broken ++ rest)).recovered =
      ([⟨rest.head?, .expected what⟩], boundary rest) := by
  have halts' : Halts (enclosing before ++ finished ++ broken) rest := by
    rw [List.append_assoc, ← off.parts]
    exact halts
  obtain ⟨what, stuck⟩ := off.breaks rest (halts'.suffix off.begins.ne_nil)
  exact ⟨what, by rw [stuck]; rfl⟩

theorem unended (words : ∀ token ∈ before, token.isEnding = false) :
    (∀ token ∈ enclosing before, token.isEnding = false) ∧
      ∀ token ∈ broken, token.isEnding = false := by
  rw [off.parts, List.forall_mem_append, List.forall_mem_append] at words
  exact ⟨words.1, words.2.2⟩

end BrokenOff

/-- Taking a semicolon out of an accepted program costs the declaration in which it stood: the faults are
those of that declaration, and then those of the tokens up to the block around it followed by what is
left. Where reading halts at the next token, the declaration has one fault, there, and what is left
begins at the next boundary; so there is one report exactly when that much of the program is accepted. -/
theorem missing_semicolon_reports (before after : List Token) (semicolon : Token) (supply : Supply)
    (isSemicolon : semicolon.kind = .semicolon)
    (accepted : (program (before ++ semicolon :: after) supply).errors = []) :
    let reported := (program (before ++ after) supply).errors
    let eof := ending (before ++ after)
    let resumed (rest : List Token) := (program (enclosing before ++ rest ++ [eof]) supply).errors
    ((∃ token ∈ before, token.isEnding = true) → reported = []) ∧
    ((∀ token ∈ before, token.isEnding = false) →
      (∃ finished broken, before = enclosing before ++ (finished ++ broken) ∧
        (∃ start stmts last, StmtDerives true .declarations start finished stmts last) ∧
        ∃ positive : 0 < Position.size ⟨broken ++ words after, supply⟩,
          let first := recover (declaration ⟨broken ++ words after, supply⟩) positive
          reported = first.notes.map (·.locate eof) ++ resumed first.after.rest) ∧
      (Halts before (words after) →
        (∃ what, reported =
          ⟨(words after).head?.getD eof, .expected what⟩ :: resumed (boundary (words after))) ∧
        (reported.length ≤ 1 ↔ resumed (boundary (words after)) = []))) := by
  intro reported eof resumed
  have accepted' : reports (words (before ++ semicolon :: after)) = [] := by
    rw [errors_program] at accepted
    exact List.map_eq_nil_iff.mp accepted
  refine ⟨fun ended => ?_, fun unended => ?_⟩
  · rw [words_of_ended ended, ← words_of_ended ended after] at accepted'
    show (program (before ++ after) supply).errors = []
    rw [errors_program, accepted', List.map_nil]
  have split (rest : List Token) : words (before ++ rest) = before ++ words rest :=
    List.takeWhile_append_of_pos fun token member => by simp [unended token member]
  have isWord : semicolon.isEnding = false := by simp [Token.isEnding, isSemicolon]
  have whole : words (before ++ semicolon :: after) = before ++ semicolon :: words after := by
    rw [split]
    simp [words, isWord]
  rw [whole] at accepted'
  obtain ⟨finished, broken, off⟩ := exists_brokenOff isSemicolon accepted'
  obtain ⟨kept, unended'⟩ := off.unended unended
  have reported_eq : reported = (reports (before ++ words after)).map (·.locate eof) := by
    show (program _ _).errors = _
    rw [errors_program, split]
  have resumed_eq (rest : List Token) (left : ∀ token ∈ rest, token.isEnding = false) :
      resumed rest = (reports (enclosing before ++ rest)).map (·.locate eof) :=
    errors_program_ended (List.forall_mem_append.mpr ⟨kept, left⟩) (isEnding_ending _) supply
  refine ⟨⟨finished, broken, off.parts, off.whole, ?_⟩, fun halts => ?_⟩
  · have positive : 0 < Position.size ⟨broken ++ words after, supply⟩ :=
      List.length_pos_iff.mpr (off.begins.append _).ne_nil
    refine ⟨positive, ?_⟩
    intro first
    have recovered := Parsed.recover_eq (declaration ⟨broken ++ words after, supply⟩) positive
    rw [steady_declaration] at recovered
    have inside : first.after.rest <:+ broken ++ words after := by
      rw [recovered_after]
      exact (Call.descends ⟨.recovered, ⟨broken ++ words after, supply⟩⟩).whole
    have left : ∀ token ∈ first.after.rest, token.isEnding = false := by
      intro token member
      rcases List.mem_append.mp (inside.mem member) with inBroken | inAfter
      · exact unended' token inBroken
      · exact isEnding_of_mem_words inAfter
    rw [reported_eq, off.reports_eq, ← recovered, List.map_append, resumed_eq _ left]
  · have left : ∀ token ∈ boundary (words after), token.isEnding = false :=
      fun token member => isEnding_of_mem_words (mem_boundary member)
    obtain ⟨what, recovered⟩ := off.recovered_eq halts
    have listed : reported =
        ⟨(words after).head?.getD eof, .expected what⟩ :: resumed (boundary (words after)) := by
      rw [reported_eq, off.reports_eq, recovered, resumed_eq _ left]
      rfl
    refine ⟨⟨what, listed⟩, ?_⟩
    rw [listed]
    simp

/-- In `{ print nil var a; }` the declaration after the fault is skipped, and the block is closed. -/
theorem missing_semicolon_reports_once :
    let before : List Token :=
      [⟨.leftBrace, "\x7b", none, 1⟩, ⟨.printWord, "print", none, 1⟩, ⟨.nilWord, "nil", none, 1⟩]
    let semicolon : Token := ⟨.semicolon, ";", none, 1⟩
    let after : List Token :=
      [⟨.varWord, "var", none, 1⟩, ⟨.identifier, "a", none, 1⟩, semicolon,
        ⟨.rightBrace, "\x7d", none, 1⟩, .ending 1]
    (program (before ++ semicolon :: after) {}).errors = [] ∧ Halts before (words after) ∧
      (program (before ++ after) {}).errors.length = 1 := by
  intro before semicolon after
  have accepted : (program (before ++ semicolon :: after) {}).errors = [] := by cbv
  have halts : Halts before (words after) := by
    constructor <;> simp [Stops, Phrase.Continues, Joins, operatorLevel?, before, after, words, Token.isEnding]
  have unended : ∀ token ∈ before, token.isEnding = false := by simp [before, Token.isEnding]
  have costs := missing_semicolon_reports before after semicolon {} rfl accepted
  obtain ⟨⟨what, listed⟩, -⟩ := (costs.2 unended).2 halts
  refine ⟨accepted, halts, ?_⟩
  rw [listed]
  cbv

/-- The search for a boundary skips the brace at the fault, so that the block in `{ print nil }` is
never closed: one semicolon is missing, and two faults are reported. -/
theorem missing_semicolon_reported_twice :
    let before : List Token :=
      [⟨.leftBrace, "\x7b", none, 1⟩, ⟨.printWord, "print", none, 1⟩, ⟨.nilWord, "nil", none, 1⟩]
    let semicolon : Token := ⟨.semicolon, ";", none, 1⟩
    let brace : Token := ⟨.rightBrace, "\x7d", none, 1⟩
    (program (before ++ semicolon :: [brace, .ending 1]) {}).errors = [] ∧
      (program (before ++ [brace, .ending 1]) {}).errors =
        [⟨brace, .expected .printEnd⟩, ⟨.ending 1, .expected .blockEnd⟩] := by
  intro before semicolon brace
  constructor <;> cbv

end Parse

end Lox
