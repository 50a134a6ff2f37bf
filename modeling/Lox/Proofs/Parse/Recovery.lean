import Lox.Proofs.Parse.Program
import Lox.Proofs.Parse.Progress
import Lox.Proofs.Parse.Shift

/-!
How reading goes on after a fault. What comes after the first declaration is read as if nothing had
come before it. A `print` statement without its semicolon costs the statement after it, and no more.
-/

namespace Lox

open Grammar

namespace Parse

theorem declarations_eq {start : Position} (positive : 0 < start.size) :
    declarations start =
      let first := recover (declaration start) positive
      (first.stmt.toList ++ (declarations first.after).1,
        first.notes ++ (declarations first.after).2.1, (declarations first.after).2.2) := by
  rw [declarations, dif_neg (List.length_pos_iff.mp positive)]

/-! The declarations after the first. -/

section Resumed

variable {tokens : List Token}

theorem exists_ending_of_getLast? (closed : tokens.getLast?.any Token.isEnding = true) :
    ∃ others, tokens = words tokens ++ ending tokens :: others := by
  obtain ⟨others, parts⟩ := held_eq tokens
  refine ⟨others, ?_⟩
  rw [← parts, held]
  cases last : tokens.getLast? with
  | none => simp [last] at closed
  | some token =>
      have isEnding : token.isEnding = true := by simpa [last] using closed
      exact (if_pos isEnding).symm

theorem isEnding_of_mem_words {token : Token} (member : token ∈ words tokens) :
    token.isEnding = false := by
  simpa using List.mem_takeWhile_imp member

theorem ending_append {taken others : List Token}
    (unended : ∀ token ∈ taken, token.isEnding = false) {token : Token}
    (isEnding : token.isEnding = true) :
    ending (taken ++ token :: others) = token := by
  have found : (taken ++ token :: others).find? Token.isEnding = some token := by
    rw [List.find?_append, List.find?_eq_none.mpr (by simpa using unended), Option.none_or,
      List.find?_cons_of_pos isEnding]
  rw [ending, found, Option.getD_some]

theorem drop_current (closed : tokens.getLast?.any Token.isEnding = true) {position : Position}
    (inside : position.rest <:+ words tokens) :
    words (tokens.drop (current tokens position)) = position.rest ∧
      ending (tokens.drop (current tokens position)) = ending tokens := by
  obtain ⟨others, parts⟩ := exists_ending_of_getLast? closed
  obtain ⟨taken, same⟩ := inside
  have unended : ∀ token ∈ position.rest, token.isEnding = false := by
    intro token member
    have isWord : token ∈ words tokens := same ▸ List.mem_append_right taken member
    exact isEnding_of_mem_words isWord
  have index : current tokens position = taken.length := by
    rw [current, ← same, List.length_append, Position.size, Nat.add_sub_cancel_right]
  have left : tokens.drop (current tokens position) = position.rest ++ ending tokens :: others := by
    conv_lhs => rw [index, parts, ← same, List.append_assoc, List.drop_left]
  have isEnding := isEnding_ending tokens
  rw [left]
  exact ⟨words_append unended isEnding, ending_append unended isEnding⟩

/-- The first declaration of a program is read, or left out with its fault. The rest of the tokens
are then read as a program of their own, with the identities that are left. -/
theorem program_resumes_afresh (tokens : List Token) (supply : Supply)
    (closed : tokens.getLast?.any Token.isEnding = true)
    (unended : tokens.head?.any Token.isEnding = false) :
    ∃ positive : 0 < Position.size ⟨words tokens, supply⟩,
      let first := recover (declaration ⟨words tokens, supply⟩) positive
      let others := program (tokens.drop (current tokens first.after)) first.after.supply
      program tokens supply =
        ⟨first.stmt.toList ++ others.tree,
          first.notes.map (·.locate (ending tokens)) ++ others.errors, others.supply⟩ := by
  have positive : 0 < Position.size ⟨words tokens, supply⟩ := by
    cases tokens with
    | nil => simp at closed
    | cons token rest =>
        have isWord : (!token.isEnding) = true := by simpa using unended
        simp [Position.size, words, isWord]
  refine ⟨positive, ?_⟩
  intro first others
  have inside : first.after.rest <:+ words tokens := by
    rw [recovered_after]
    exact (Call.descends ⟨.recovered, ⟨words tokens, supply⟩⟩).whole
  obtain ⟨left, ends⟩ := drop_current closed inside
  have resumed : others = ⟨(declarations first.after).1,
      (declarations first.after).2.1.map (·.locate (ending tokens)),
      (declarations first.after).2.2⟩ := by
    rw [← ends]
    show program _ _ = _
    rw [program, left]
  rw [resumed, program, declarations_eq positive]
  dsimp only
  rw [List.map_append]

/-- A parenthesis has no place here. The semicolon after it ends the search for a statement. -/
theorem program_resumes_afresh_after_paren :
    let paren : Token := ⟨.rightParen, ")", none, 1⟩
    let semicolon : Token := ⟨.semicolon, ";", none, 1⟩
    let name : Token := ⟨.identifier, "a", none, 1⟩
    let tokens : List Token := [paren, semicolon, name, semicolon, .ending 1]
    ∃ positive : 0 < Position.size ⟨words tokens, {}⟩,
      let first := recover (declaration ⟨words tokens, {}⟩) positive
      let others := program (tokens.drop (current tokens first.after)) first.after.supply
      program tokens {} =
        ⟨first.stmt.toList ++ others.tree,
          first.notes.map (·.locate (ending tokens)) ++ others.errors, others.supply⟩ := by
  intro paren semicolon name tokens
  exact program_resumes_afresh tokens {} rfl rfl

end Resumed

/-! `print` statements of which some lack the semicolon. -/

/-- The kinds that stand inside an expression, where no statement ends or begins. -/
def isInner (kind : TokenKind) : Bool := kind ≠ .semicolon && !kind.beginsStatement

theorem isInner_of_operatorLevel? {kind : TokenKind} {level : Level}
    (found : operatorLevel? kind = some level) : isInner kind = true := by
  unfold operatorLevel? at found
  split at found <;> cases found <;> rfl

theorem isInner_of_exprDerives {phrase : Phrase} {start after : Supply} {words : List Token}
    {tree : phrase.Tree} (derived : ExprDerives phrase start words tree after) :
    ∀ token ∈ words, isInner token.kind = true := by
  induction derived with
  | plain _ ih | unconditional _ ih | single _ ih | unsigned _ ih | uncalled _ ih | argument _ ih =>
      exact ih
  | operation _ leveled _ ih ih' =>
      rw [List.forall_mem_append, List.forall_mem_cons]
      exact ⟨ih, isInner_of_operatorLevel? leveled, ih'⟩
  | negation kind _ ih =>
      rw [List.forall_mem_cons]
      refine ⟨?_, ih⟩
      rcases kind with kind | kind <;> rw [kind] <;> rfl
  | literal kind => rcases kind with kind | kind <;> simp [kind, isInner, TokenKind.beginsStatement]
  | _ => simp_all [isInner, TokenKind.beginsStatement, or_imp, forall_and]

theorem boundaryAfter_append {last semicolon : Token} {value : List Token} (rest : List Token)
    (unclosed : last.kind ≠ .semicolon) (inner : ∀ token ∈ value, isInner token.kind = true)
    (isSemicolon : semicolon.kind = .semicolon) :
    boundaryAfter last (value ++ semicolon :: rest) = rest := by
  induction value generalizing last with
  | nil =>
      have going : ¬ (last.kind = .semicolon ∨ semicolon.kind.beginsStatement = true) := by
        simp [unclosed, isSemicolon, TokenKind.beginsStatement]
      rw [List.nil_append, boundaryAfter, if_neg going]
      cases rest with
      | nil => rfl
      | cons token rest => rw [boundaryAfter, if_pos (.inl isSemicolon)]
  | cons token value ih =>
      rw [List.forall_mem_cons] at inner
      obtain ⟨notSemicolon, notBegun⟩ :
          token.kind ≠ .semicolon ∧ token.kind.beginsStatement = false := by
        simpa [isInner] using inner.1
      rw [List.cons_append, boundaryAfter, if_neg (by simp [unclosed, notBegun])]
      exact ih notSemicolon inner.2

theorem lone_of_unnoted {start : Position} (unnoted : (lone start).2.1 = []) :
    ∃ expr after, lone start = (some expr, [], after) := by
  rw [lone] at unnoted ⊢
  split at unnoted
  · rename_i expr notes after shorter parsed
    split at unnoted
    · rename_i ended
      obtain rfl : notes = [] := unnoted
      exact ⟨expr, after.supply, by simp [ended]⟩
    · simp at unnoted
  · simp at unnoted

theorem lone_notes (words : List Token) (supply : Supply) :
    (lone ⟨words, supply⟩).2.1 = (lone ⟨words, {}⟩).2.1 := by
  have shifted := lone_shift supply words {}
  rw [Supply.first_plus] at shifted
  rw [shifted]

/-- The tokens of a `print` statement, of which the semicolon may be missing. -/
structure PrintLine where
  keyword : Token
  value : List Token
  semicolon : Option Token
  isPrint : keyword.kind = .printWord
  isSemicolon : ∀ token ∈ semicolon, token.kind = .semicolon
  unended : ∀ token ∈ value, token.isEnding = false
  accepted : ∃ eof supply, eof.isEnding = true ∧ (expression (value ++ [eof]) supply).errors = []

namespace PrintLine

def tokens (line : PrintLine) : List Token := line.keyword :: (line.value ++ line.semicolon.toList)

def isClosed (line : PrintLine) : Bool := line.semicolon.isSome

def Reads (eof : Token) (line : PrintLine) (stmt : Stmt) : Prop :=
  ∃ expr supply, stmt = .print line.keyword expr ∧
    (expression (line.value ++ [eof]) supply).tree = some expr

/-- The lines with a semicolon that do not come right after one without. -/
def kept (afterClosed : Bool) : List PrintLine → List PrintLine
  | [] => []
  | line :: others =>
      (if line.isClosed && afterClosed then [line] else []) ++ kept line.isClosed others

/-- What comes right after the values that lack a semicolon; `none` is the end. -/
def gaps : List PrintLine → List (Option Token)
  | [] => []
  | line :: others => (if line.isClosed then [] else [others.head?.map keyword]) ++ gaps others

theorem length_gaps (lines : List PrintLine) :
    (gaps lines).length = lines.countP (!·.isClosed) := by
  induction lines with
  | nil => rfl
  | cons line others ih => by_cases closed : line.isClosed = true <;> simp [gaps, closed, ih]

variable (line : PrintLine)

theorem derives {eof : Token} (isEnding : eof.isEnding = true) (supply : Supply) :
    ∃ expr after, ExprDerives .expression supply line.value expr after ∧
      line.Reads eof (.print line.keyword expr) := by
  obtain ⟨eof', first, isEnding', accepted⟩ := line.accepted
  have unnoted : (lone ⟨line.value, supply⟩).2.1 = [] := by
    rw [expression, words_append line.unended isEnding'] at accepted
    have unnoted := List.map_eq_nil_iff.mp accepted
    rw [lone_notes] at unnoted ⊢
    exact unnoted
  obtain ⟨expr, after, read⟩ := lone_of_unnoted unnoted
  refine ⟨expr, after, lone_eq_iff.mp read, expr, supply, rfl, ?_⟩
  rw [expression, words_append line.unended isEnding, read]

end PrintLine

theorem declaration_print {keyword : Token} (isPrint : keyword.kind = .printWord)
    (rest : List Token) (supply : Supply) :
    declaration ⟨keyword :: rest, supply⟩ = (printStatement keyword ⟨rest, supply⟩).within := by
  rw [declaration, Position.accept?_none (by simp [isPrint])]
  dsimp only
  rw [Position.accept?_none (by simp [isPrint])]
  dsimp only
  rw [Position.accept?_none (by simp [isPrint])]
  dsimp only
  rw [statement, Position.accept?_cons rfl]
  simp only [isPrint]

theorem recover_of_stuck {bound : Nat} {parsed : Parsed Stmt bound} {cause : Complaint}
    {after : Position} {fits : after.size ≤ bound} (stuck : parsed = .stuck cause [] after fits)
    (positive : 0 < bound) :
    (recover parsed positive).stmt = none ∧ (recover parsed positive).notes = [cause] ∧
      (recover parsed positive).after = ⟨boundary after.rest, after.supply⟩ := by
  subst stuck
  exact ⟨rfl, rfl, rfl⟩

theorem declaration_unclosed {line : PrintLine} (unclosed : line.isClosed = false) {expr : Expr}
    {supply after : Supply} (derived : ExprDerives .expression supply line.value expr after)
    {rest : List Token} (begins : ∀ token ∈ rest.head?, token.kind = .printWord) :
    ∃ fits, declaration ⟨line.tokens ++ rest, supply⟩ =
      .stuck ⟨rest.head?, .expected .printEnd⟩ [] ⟨rest, after⟩ fits := by
  have bare : line.tokens ++ rest = line.keyword :: (line.value ++ rest) := by
    have absent : line.semicolon = none := by simpa [PrintLine.isClosed] using unclosed
    simp [PrintLine.tokens, absent]
  have stops : Stops .expression rest := by
    intro token first
    rw [begins token first]
    simp [Phrase.Continues, Joins, operatorLevel?]
  obtain ⟨shorter, read⟩ := complete_of_exprDerives derived rest stops
  have refused : Position.accept? ⟨rest, after⟩ (· = .semicolon) = none := by
    refine Position.accept?_none fun token first => ?_
    simp [begins token first]
  rw [bare, declaration_print line.isPrint, printStatement, read, Parsed.andThen, Position.expect,
    refused]
  exact ⟨_, rfl⟩

theorem declarations_unclosed {line : PrintLine} (unclosed : line.isClosed = false) {expr : Expr}
    {supply after : Supply} (derived : ExprDerives .expression supply line.value expr after)
    {rest : List Token} (begins : ∀ token ∈ rest.head?, token.kind = .printWord) :
    declarations ⟨line.tokens ++ rest, supply⟩ =
      ((declarations ⟨boundary rest, after⟩).1,
        ⟨rest.head?, .expected .printEnd⟩ :: (declarations ⟨boundary rest, after⟩).2.1,
        (declarations ⟨boundary rest, after⟩).2.2) := by
  have positive : 0 < Position.size ⟨line.tokens ++ rest, supply⟩ := Nat.succ_pos _
  obtain ⟨fits, stuck⟩ := declaration_unclosed unclosed derived begins
  obtain ⟨unread, noted, last⟩ := recover_of_stuck stuck positive
  rw [declarations_eq positive]
  dsimp only
  rw [unread, noted, last]
  rfl

theorem declarations_closed {line : PrintLine} (closed : line.isClosed = true) {expr : Expr}
    {supply after : Supply} (derived : ExprDerives .expression supply line.value expr after)
    (rest : List Token) :
    declarations ⟨line.tokens ++ rest, supply⟩ =
      (.print line.keyword expr :: (declarations ⟨rest, after⟩).1, (declarations ⟨rest, after⟩).2.1,
        (declarations ⟨rest, after⟩).2.2) := by
  have positive : 0 < Position.size ⟨line.tokens ++ rest, supply⟩ := Nat.succ_pos _
  obtain ⟨semicolon, present⟩ := Option.isSome_iff_exists.mp closed
  have isSemicolon := line.isSemicolon semicolon present
  have read : (declaration ⟨line.tokens ++ rest, supply⟩).Yields (.print line.keyword expr)
      ⟨rest, after⟩ := by
    have listed : line.tokens = line.keyword :: (line.value ++ [semicolon]) := by
      simp [PrintLine.tokens, present]
    have whole : StmtDerives true (.declaration false) supply line.tokens
        (Stmt.print line.keyword expr) after := by
      rw [listed]
      exact .statement (.print line.isPrint derived isSemicolon)
    exact complete_of_stmtDerives whole rest (by simp [Unclaimed])
  rw [declarations_eq positive, recover_of_yields read positive]
  rfl

theorem boundary_closed {line : PrintLine} (closed : line.isClosed = true) (rest : List Token) :
    boundary (line.tokens ++ rest) = rest := by
  obtain ⟨semicolon, present⟩ := Option.isSome_iff_exists.mp closed
  have isEnding : (Token.ending 1).isEnding = true := rfl
  obtain ⟨expr, after, derived, -⟩ := line.derives isEnding {}
  have listed : line.tokens ++ rest = line.keyword :: (line.value ++ semicolon :: rest) := by
    simp [PrintLine.tokens, present]
  rw [listed, boundary]
  exact boundaryAfter_append rest (by simp [line.isPrint]) (isInner_of_exprDerives derived)
    (line.isSemicolon semicolon present)

theorem head?_flatMap_tokens (lines : List PrintLine) :
    (lines.flatMap PrintLine.tokens).head? = lines.head?.map PrintLine.keyword := by
  cases lines <;> rfl

def Apart (lines : List PrintLine) : Prop :=
  lines.IsChain fun line next => line.isClosed = true ∨ next.isClosed = true

theorem declarations_lines {lines : List PrintLine} (apart : Apart lines) {eof : Token}
    (isEnding : eof.isEnding = true) (supply : Supply) :
    ∃ stmts last, declarations ⟨lines.flatMap PrintLine.tokens, supply⟩ =
        (stmts, (PrintLine.gaps lines).map (⟨·, .expected .printEnd⟩), last) ∧
      List.Forall₂ (PrintLine.Reads eof) (PrintLine.kept true lines) stmts := by
  induction lines using List.twoStepInduction generalizing supply with
  | nil => exact ⟨[], supply, by rw [declarations]; rfl, .nil⟩
  | singleton line =>
      obtain ⟨expr, after, derived, reads⟩ := line.derives isEnding supply
      have ended : declarations ⟨[], after⟩ = ([], [], after) := by rw [declarations]; rfl
      rw [List.flatMap_singleton, ← List.append_nil line.tokens, PrintLine.gaps, PrintLine.kept]
      cases closed : line.isClosed with
      | true =>
          rw [declarations_closed closed derived, ended]
          exact ⟨_, _, rfl, .cons reads .nil⟩
      | false =>
          rw [declarations_unclosed closed derived (by simp), boundary, ended]
          exact ⟨_, _, rfl, .nil⟩
  | cons_cons line next others ih ih' =>
      obtain ⟨expr, after, derived, reads⟩ := line.derives isEnding supply
      obtain ⟨spaced, apart⟩ := List.isChain_cons_cons.mp apart
      rw [List.flatMap_cons, PrintLine.gaps, PrintLine.kept]
      cases closed : line.isClosed with
      | true =>
          obtain ⟨stmts, last, read, all⟩ := ih' next apart after
          rw [declarations_closed closed derived, read]
          exact ⟨_, _, rfl, .cons reads all⟩
      | false =>
          -- the next line is skipped, so that reading goes on after it
          have closed' : next.isClosed = true := by simpa [closed] using spaced
          obtain ⟨stmts, last, read, all⟩ := ih apart.tail after
          have begins : ∀ token ∈ ((next :: others).flatMap PrintLine.tokens).head?,
              token.kind = .printWord := by
            rw [head?_flatMap_tokens]
            simp [next.isPrint]
          rw [declarations_unclosed closed derived begins, head?_flatMap_tokens, List.flatMap_cons,
            boundary_closed closed', read, PrintLine.gaps, PrintLine.kept, closed']
          exact ⟨_, _, rfl, all⟩

theorem PrintLine.isEnding_of_mem_tokens (line : PrintLine) :
    ∀ token ∈ line.tokens, token.isEnding = false := by
  intro token member
  simp only [tokens, List.mem_cons, List.mem_append, Option.mem_toList] at member
  rcases member with rfl | inValue | isSemicolon
  · simp [Token.isEnding, line.isPrint]
  · exact line.unended token inValue
  · simp [Token.isEnding, line.isSemicolon token isSemicolon]

/-- Of `print` statements, no two in a row without their semicolon, each that lacks it is one fault,
at the token right after its value. Those that are read are the others, except that one right after a
fault is skipped. -/
theorem program_recovers_between_prints (lines : List PrintLine) (apart : Apart lines) (eof : Token)
    (isEnding : eof.isEnding = true) (supply : Supply) :
    let reading := program (lines.flatMap PrintLine.tokens ++ [eof]) supply
    reading.errors = (PrintLine.gaps lines).map (⟨·.getD eof, .expected .printEnd⟩) ∧
      reading.errors.length = lines.countP (!·.isClosed) ∧
      (∀ error ∈ reading.errors, error.fault.message = "Expect ';' after value.") ∧
      List.Forall₂ (PrintLine.Reads eof) (PrintLine.kept true lines) reading.tree := by
  intro reading
  obtain ⟨stmts, last, read, all⟩ := declarations_lines apart isEnding supply
  have unended : ∀ token ∈ lines.flatMap PrintLine.tokens, token.isEnding = false := by
    intro token member
    obtain ⟨line, -, inLine⟩ := List.mem_flatMap.mp member
    exact line.isEnding_of_mem_tokens token inLine
  have whole : reading =
      ⟨stmts, (PrintLine.gaps lines).map (⟨·.getD eof, .expected .printEnd⟩), last⟩ := by
    show program _ supply = _
    rw [program, words_append unended isEnding, ending_append unended isEnding, read]
    dsimp only
    rw [List.map_map]
    rfl
  rw [whole]
  refine ⟨rfl, ?_, ?_, all⟩
  · rw [List.length_map, PrintLine.length_gaps]
  · intro error member
    obtain ⟨place, -, rfl⟩ := List.mem_map.mp member
    rfl

def nilLine (closed : Bool) : PrintLine where
  keyword := ⟨.printWord, "print", none, 1⟩
  value := [⟨.nilWord, "nil", none, 1⟩]
  semicolon := if closed then some ⟨.semicolon, ";", none, 1⟩ else none
  isPrint := rfl
  isSemicolon := by cases closed <;> simp
  unended := by simp [Token.isEnding]
  accepted := ⟨.ending 1, {}, rfl, by cbv⟩

theorem program_recovers_between_prints_of_nil :
    let lines := [nilLine true, nilLine false, nilLine true, nilLine true, nilLine false]
    let reading := program (lines.flatMap PrintLine.tokens ++ [.ending 1]) {}
    Apart lines ∧
      reading.errors =
        [⟨⟨.printWord, "print", none, 1⟩, .expected .printEnd⟩, ⟨.ending 1, .expected .printEnd⟩] ∧
      List.Forall₂ (PrintLine.Reads (.ending 1)) [nilLine true, nilLine true] reading.tree := by
  intro lines reading
  have apart : Apart lines := by simp [lines, Apart, PrintLine.isClosed, nilLine]
  obtain ⟨errors, -, -, read⟩ := program_recovers_between_prints lines apart (.ending 1) rfl {}
  exact ⟨apart, errors, read⟩

end Parse

end Lox
