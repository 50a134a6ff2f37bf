import Mathlib
import Lox.Proofs.Token.Join

/-!
The lexical grammar, apart from any way of scanning.

    operator     "(" | ")" | … | "!" | "!=" | … | "<" | "<="
    string       '"' [^"]* '"'
    number       digit+ ( "." digit+ )?
    word         letter ( letter | digit )*

What is scanned at the front of a source is the longest of its prefixes that is a lexeme. Before that
come blanks and complete comments; and there is a fault only where no prefix is a lexeme, or where a
block comment has no end.
-/

namespace Lox

def operators : List (String × TokenKind) :=
  [("(", .leftParen), (")", .rightParen), ("\x7b", .leftBrace), ("\x7d", .rightBrace), (",", .comma),
    (".", .dot), ("-", .minus), ("+", .plus), (";", .semicolon), ("/", .slash), ("*", .star),
    ("?", .question), (":", .colon), ("!", .bang), ("!=", .bangEqual), ("=", .equal),
    ("==", .equalEqual), (">", .greater), (">=", .greaterEqual), ("<", .less), ("<=", .lessEqual)]

def keywords : List (String × TokenKind) :=
  [("and", .andWord), ("class", .classWord), ("else", .elseWord), ("false", .falseWord),
    ("fun", .funWord), ("for", .forWord), ("if", .ifWord), ("nil", .nilWord), ("or", .orWord),
    ("print", .printWord), ("return", .returnWord), ("super", .superWord), ("this", .thisWord),
    ("true", .trueWord), ("var", .varWord), ("while", .whileWord)]

def Letter (character : Char) : Prop :=
  ('A' ≤ character ∧ character ≤ 'Z') ∨ ('a' ≤ character ∧ character ≤ 'z') ∨ character = '_'

def Digit (character : Char) : Prop := '0' ≤ character ∧ character ≤ '9'

instance : DecidablePred Letter := fun _ => inferInstanceAs (Decidable (_ ∨ _))

instance : DecidablePred Digit := fun _ => inferInstanceAs (Decidable (_ ∧ _))

def Word : List Char → Prop
  | [] => False
  | first :: others => Letter first ∧ ∀ character ∈ others, Letter character ∨ Digit character

instance : DecidablePred Word
  | [] => inferInstanceAs (Decidable False)
  | _ :: others =>
      -- all characters could be tried as well, but there are too many of them
      have := List.decidableBAll (fun character => Letter character ∨ Digit character) others
      inferInstanceAs (Decidable (_ ∧ _))

theorem Word.ne_nil {text : List Char} (word : Word text) : text ≠ [] := by
  rintro rfl
  exact word

/-- The texts that can be tokens, each with the kind of that token. A word is a keyword or, if it is
none, an identifier. -/
inductive Lexeme : TokenKind → List Char → Prop
  | operator {text : String} {kind : TokenKind} : (text, kind) ∈ operators →
      Lexeme kind text.toList
  | string {body : List Char} : '"' ∉ body → Lexeme .string ('"' :: body ++ ['"'])
  | whole {digits : List Char} : digits ≠ [] → (∀ character ∈ digits, Digit character) →
      Lexeme .number digits
  | decimal {digits fraction : List Char} : digits ≠ [] → (∀ character ∈ digits, Digit character) →
      fraction ≠ [] → (∀ character ∈ fraction, Digit character) →
      Lexeme .number (digits ++ '.' :: fraction)
  | keyword {text : String} {kind : TokenKind} : (text, kind) ∈ keywords → Lexeme kind text.toList
  | identifier {text : List Char} : Word text → (∀ kind, (String.ofList text, kind) ∉ keywords) →
      Lexeme .identifier text

/-- A blank or a complete comment that is followed by `after`. -/
inductive Skipped : (text after : List Char) → Prop
  | blank {character : Char} {after : List Char} : character ∈ [' ', '\t', '\r', '\n'] →
      Skipped [character] after
  | line {body after : List Char} : '\n' ∉ body → (after = [] ∨ after.head? = some '\n') →
      Skipped ('/' :: '/' :: body) after
  /-- The end of a comment is the first that follows its beginning. -/
  | block {body after : List Char} : ¬ ['*', '/'] <:+: body ++ ['*'] →
      Skipped ('/' :: '*' :: body ++ ['*', '/']) after

inductive Gap : (text after : List Char) → Prop
  | nil {after : List Char} : Gap [] after
  | cons {text gap after : List Char} : Skipped text (gap ++ after) → Gap gap after →
      Gap (text ++ gap) after

def OpensComment (source : List Char) : Prop :=
  ∃ comment, source = '/' :: '*' :: comment ∧ ¬ ['*', '/'] <:+: comment

theorem isDigit_iff {character : Char} : character.isDigit ↔ Digit character := by
  simp only [Char.isDigit, Bool.and_eq_true, decide_eq_true_eq, ge_iff_le]
  exact .rfl

theorem startsWord_iff {character : Char} : Piece.startsWord character ↔ Letter character := by
  simp only [Piece.startsWord, Char.isAlpha, Char.isUpper, Char.isLower, Bool.or_eq_true,
    Bool.and_eq_true, decide_eq_true_eq, ge_iff_le, or_assoc]
  exact .rfl

theorem continuesWord_iff {character : Char} :
    Piece.continuesWord character ↔ Letter character ∨ Digit character := by
  have letters : Piece.startsWord character ↔ Letter character := startsWord_iff
  simp only [Piece.startsWord, Bool.or_eq_true, decide_eq_true_eq] at letters
  simp only [Piece.continuesWord, Char.isAlphanum, Bool.or_eq_true, decide_eq_true_eq,
    isDigit_iff, ← letters]
  tauto

theorem ofWord_eq (word : String) :
    (word, TokenKind.ofWord word) ∈ keywords ∨
      TokenKind.ofWord word = .identifier ∧ ∀ kind, (word, kind) ∉ keywords := by
  unfold TokenKind.ofWord
  split
  case h_17 =>
    refine .inr ⟨rfl, fun kind member => ?_⟩
    simp only [keywords, List.mem_cons, Prod.mk.injEq, List.not_mem_nil] at member
    tauto
  all_goals
    left
    decide

theorem word_of_mem_keywords {text : String} {kind : TokenKind} (member : (text, kind) ∈ keywords) :
    Word text.toList :=
  (by decide : ∀ entry ∈ keywords, Word entry.1.toList) _ member

theorem head_of_mem_operators {text : String} {kind : TokenKind} {first : Char} {rest : List Char}
    (member : (text, kind) ∈ operators) (begins : text.toList = first :: rest) :
    first ≠ '"' ∧ ¬ Digit first ∧ ¬ Letter first := by
  have heads : ∀ entry ∈ operators, entry.1.toList.head?.all
      fun first => first ≠ '"' ∧ ¬ Digit first ∧ ¬ Letter first := by decide
  simpa [begins] using heads _ member

theorem not_letter_of_digit {character : Char} (isDigit : Digit character) : ¬ Letter character := by
  have below : character ≤ '9' := isDigit.2
  rintro (⟨upper, -⟩ | ⟨lower, -⟩ | rfl)
  · exact absurd (Char.le_trans upper below) (by decide)
  · exact absurd (Char.le_trans lower below) (by decide)
  · exact absurd below (by decide)

namespace Lexeme

variable {kind : TokenKind} {first : Char} {text rest : List Char}

theorem shape (lexeme : Lexeme kind (first :: rest)) :
    (first = '"' ∧ kind = .string ∧ ∃ body, rest = body ++ ['"'] ∧ '"' ∉ body) ∨
      (Digit first ∧ kind = .number ∧ ∃ digits fraction, rest = digits ++ fraction ∧
        (∀ character ∈ digits, Digit character) ∧
        (fraction = [] ∨ ∃ decimals, fraction = '.' :: decimals ∧ decimals ≠ [] ∧
          ∀ character ∈ decimals, Digit character)) ∨
      (Letter first ∧ kind = .ofWord (String.ofList (first :: rest)) ∧
        ∀ character ∈ rest, Letter character ∨ Digit character) ∨
      (String.ofList (first :: rest), kind) ∈ operators := by
  generalize same : first :: rest = text at lexeme
  cases lexeme with
  | operator member => exact .inr (.inr (.inr (by rwa [String.ofList_toList])))
  | string open? =>
      obtain ⟨rfl, rfl⟩ := List.cons.inj same
      exact .inl ⟨rfl, rfl, _, rfl, open?⟩
  | whole _ digits =>
      subst same
      rw [List.forall_mem_cons] at digits
      exact .inr (.inl ⟨digits.1, rfl, rest, [], by simp, digits.2, .inl rfl⟩)
  | @decimal whole decimals present digits some? decimal =>
      cases whole with
      | nil => exact absurd rfl present
      | cons head whole =>
          obtain ⟨rfl, rfl⟩ := List.cons.inj same
          rw [List.forall_mem_cons] at digits
          exact .inr (.inl ⟨digits.1, rfl, whole, _, rfl, digits.2, .inr ⟨_, rfl, some?, decimal⟩⟩)
  | keyword member =>
      have word := word_of_mem_keywords member
      have table : ∀ entry ∈ keywords, entry.2 = .ofWord entry.1 := by decide
      rw [← same] at word ⊢
      exact .inr (.inr (.inl ⟨word.1, by rw [same, String.ofList_toList]; exact table _ member, word.2⟩))
  | identifier word absent =>
      subst same
      rcases ofWord_eq (String.ofList (first :: rest)) with member | ⟨name, -⟩
      · exact absurd member (absent _)
      · exact .inr (.inr (.inl ⟨word.1, name.symm, word.2⟩))

theorem ne_nil (lexeme : Lexeme kind text) : text ≠ [] := by
  have operators : ∀ entry ∈ operators, entry.1.toList ≠ [] := by decide
  cases lexeme with
  | operator member => exact operators _ member
  | string | decimal => simp
  | whole present => exact present
  | keyword member => exact (word_of_mem_keywords member).ne_nil
  | identifier word => exact word.ne_nil

theorem kind_unique {other : TokenKind} (lexeme : Lexeme kind text) (again : Lexeme other text) :
    other = kind := by
  have table : ∀ entry ∈ operators, ∀ entry' ∈ operators, entry'.1 = entry.1 → entry'.2 = entry.2 := by
    decide
  have apart {kind : TokenKind} {first : Char} {rest : List Char}
      (member : (String.ofList (first :: rest), kind) ∈ operators) :=
    head_of_mem_operators member String.toList_ofList
  cases text with
  | nil => exact absurd rfl lexeme.ne_nil
  | cons first rest =>
      rcases lexeme.shape with ⟨rfl, rfl, -⟩ | ⟨isDigit, rfl, -⟩ | ⟨isLetter, rfl, -⟩ | member
      · rcases again.shape with ⟨-, same, -⟩ | ⟨isDigit, -⟩ | ⟨isLetter, -⟩ | member
        · exact same
        · exact absurd isDigit (by decide)
        · exact absurd isLetter (by decide)
        · exact absurd rfl (apart member).1
      · rcases again.shape with ⟨rfl, -⟩ | ⟨-, same, -⟩ | ⟨isLetter, -⟩ | member
        · exact absurd isDigit (by decide)
        · exact same
        · exact absurd isLetter (not_letter_of_digit isDigit)
        · exact absurd isDigit (apart member).2.1
      · rcases again.shape with ⟨rfl, -⟩ | ⟨isDigit, -⟩ | ⟨-, same, -⟩ | member
        · exact absurd isLetter (by decide)
        · exact absurd isLetter (not_letter_of_digit isDigit)
        · exact same
        · exact absurd isLetter (apart member).2.2
      · rcases again.shape with ⟨rfl, -⟩ | ⟨isDigit, -⟩ | ⟨isLetter, -⟩ | member'
        · exact absurd rfl (apart member).1
        · exact absurd isDigit (apart member).2.1
        · exact absurd isLetter (apart member).2.2
        · exact table _ member _ member' rfl

end Lexeme

def Longest (text source : List Char) : Prop :=
  ∀ kind lexeme, Lexeme kind lexeme → lexeme <+: source → lexeme.length ≤ text.length

def Unreadable (source : List Char) : Prop := ∀ kind lexeme, Lexeme kind lexeme → ¬ lexeme <+: source

section Prefixes

variable {first : Char} {rest text : List Char}

theorem Longest.of_tails
    (bounded : ∀ kind tail, Lexeme kind (first :: tail) → tail <+: rest → tail.length ≤ text.length) :
    Longest (first :: text) (first :: rest) := by
  intro kind lexeme isLexeme before
  cases lexeme with
  | nil => exact Nat.zero_le _
  | cons head tail =>
      obtain ⟨rfl, within⟩ := List.cons_prefix_cons.mp before
      exact Nat.succ_le_succ (bounded kind tail isLexeme within)

theorem Unreadable.of_tails
    (refused : ∀ kind tail, Lexeme kind (first :: tail) → ¬ tail <+: rest) :
    Unreadable (first :: rest) := by
  intro kind lexeme isLexeme before
  cases lexeme with
  | nil => exact isLexeme.ne_nil rfl
  | cons head tail =>
      obtain ⟨rfl, within⟩ := List.cons_prefix_cons.mp before
      exact refused kind tail isLexeme within

theorem length_le_takeWhile {p : Char → Bool} (before : text <+: rest)
    (all : ∀ character ∈ text, p character) : text.length ≤ (rest.takeWhile p).length := by
  obtain ⟨others, rfl⟩ := before
  rw [List.takeWhile_append_of_pos all, List.length_append]
  exact Nat.le_add_right _ _

end Prefixes

namespace Piece

variable {first : Char} {rest : List Char} {kind : TokenKind} {literal : Option Literal}
  {length : Nat}

structure Munched (kind : TokenKind) (literal : Option Literal) (text after : List Char) : Prop where
  lexeme : Lexeme kind text
  longest : Longest text (text ++ after)
  quoted : ∀ body, text = '"' :: body ++ ['"'] → literal = some (.string (String.ofList body))

theorem not_quoted (differs : first ≠ '"') (body : List Char)
    (same : first :: rest = '"' :: body ++ ['"']) : literal = some (.string (String.ofList body)) :=
  absurd (List.cons.inj same).1 differs

theorem tail_of_operator (other : first ≠ '"' ∧ ¬ Digit first ∧ ¬ Letter first)
    (lexeme : Lexeme kind (first :: rest)) :
    rest = [] ∨ rest = ['='] ∧ first ∈ ['!', '=', '>', '<'] := by
  have table : ∀ entry ∈ operators, entry.1.toList.tail = [] ∨
      entry.1.toList.tail = ['='] ∧ entry.1.toList.head?.all (· ∈ ['!', '=', '>', '<']) := by
    decide
  rcases lexeme.shape with ⟨isQuote, -⟩ | ⟨isDigit, -⟩ | ⟨isLetter, -⟩ | member
  · exact absurd isQuote other.1
  · exact absurd isDigit other.2.1
  · exact absurd isLetter other.2.2
  · simpa using table _ member

theorem munched_single (member : (String.ofList [first], kind) ∈ operators)
    (single : first ∉ ['!', '=', '>', '<']) : Munched kind none [first] rest where
  lexeme := by simpa using Lexeme.operator member
  longest := by
    refine Longest.of_tails fun kind tail lexeme before => ?_
    rcases tail_of_operator (head_of_mem_operators member String.toList_ofList) lexeme with rfl | ⟨-, double⟩
    · exact Nat.le_refl _
    · exact absurd double single
  quoted := not_quoted (head_of_mem_operators member String.toList_ofList).1

theorem munched_operator {long short : TokenKind}
    (isLong : (String.ofList [first, '='], long) ∈ operators)
    (isShort : (String.ofList [first], short) ∈ operators)
    (front : operator '=' long short rest = (.token kind literal, length)) :
    Munched kind literal (first :: rest.take length) (rest.drop length) := by
  have other := head_of_mem_operators isShort String.toList_ofList
  unfold operator at front
  split at front
  · rename_i follows
    cases front
    obtain ⟨rest, rfl⟩ : ∃ others, rest = '=' :: others := by
      cases rest with
      | nil => cases follows
      | cons head others => exact ⟨others, by cases follows; rfl⟩
    refine ⟨by simpa using Lexeme.operator isLong, ?_, not_quoted other.1⟩
    refine Longest.of_tails fun kind tail lexeme before => ?_
    rcases tail_of_operator other lexeme with rfl | ⟨rfl, -⟩ <;> simp
  · rename_i alone
    cases front
    refine ⟨by simpa using Lexeme.operator isShort, ?_, not_quoted other.1⟩
    refine Longest.of_tails fun kind tail lexeme before => ?_
    rcases tail_of_operator other lexeme with rfl | ⟨rfl, -⟩
    · simp
    · obtain ⟨others, rfl⟩ := before
      simp at alone

theorem munched_slash (front : slash rest = (.token kind literal, length)) :
    Munched kind literal ('/' :: rest.take length) (rest.drop length) := by
  unfold slash at front
  split at front
  · cases front
  · split at front <;> cases front
  · cases front
    exact munched_single (by decide) (by decide)

theorem takeWhile_quote {body : List Char} (open? : '"' ∉ body) (others : List Char) :
    (body ++ '"' :: others).takeWhile (· ≠ '"') = body := by
  rw [List.takeWhile_append_of_pos, List.takeWhile_cons_of_neg, List.append_nil]
  · simp
  · intro character member
    have differs : character ≠ '"' := ne_of_mem_of_not_mem member open?
    simpa using differs

theorem munched_string (front : string rest = (.token kind literal, length)) :
    Munched kind literal ('"' :: rest.take length) (rest.drop length) := by
  simp only [string] at front
  split at front
  · rename_i closed
    cases front
    generalize taken : rest.takeWhile (· ≠ '"') = body at closed
    have open? : '"' ∉ body := by
      intro member
      rw [← taken] at member
      simpa using List.mem_takeWhile_imp member
    obtain ⟨others, rfl⟩ : ∃ others, rest = body ++ '"' :: others := by
      have split := List.takeWhile_append_dropWhile (p := (· ≠ '"')) (l := rest)
      rw [taken] at split
      cases dropped : rest.dropWhile (· ≠ '"') with
      | nil =>
          rw [dropped, List.append_nil] at split
          rw [split] at closed
          exact absurd closed (Nat.lt_irrefl _)
      | cons quote others =>
          have isQuote := List.head?_dropWhile_not (· ≠ '"') rest
          rw [dropped] at isQuote split
          obtain rfl : quote = '"' := by simpa using isQuote
          exact ⟨others, split.symm⟩
    have text : (body ++ '"' :: others).take (body.length + 1) = body ++ ['"'] := by
      rw [List.take_append]
      simp
    rw [text]
    refine ⟨.string open?, ?_, ?_⟩
    · rw [← text, List.cons_append, List.take_append_drop, text]
      refine Longest.of_tails fun kind tail lexeme before => ?_
      rcases lexeme.shape with ⟨-, -, other, rfl, closed⟩ | ⟨isDigit, -⟩ | ⟨isLetter, -⟩ | member
      · obtain ⟨after, same⟩ := before
        have bodies := congrArg (List.takeWhile (· ≠ '"')) same
        rw [List.append_assoc, List.singleton_append, takeWhile_quote closed,
          takeWhile_quote open?] at bodies
        rw [bodies]
      · exact absurd isDigit (by decide)
      · exact absurd isLetter (by decide)
      · exact absurd rfl (head_of_mem_operators member String.toList_ofList).1
    · intro other same
      have same : body ++ ['"'] = other ++ ['"'] := (List.cons.inj same).2
      rw [List.append_cancel_right same]
  · cases front

theorem quote_of_digit (isDigit : Digit first) : first ≠ '"' := by
  rintro rfl
  exact absurd isDigit (by decide)

theorem quote_of_letter (isLetter : Letter first) : first ≠ '"' := by
  rintro rfl
  exact absurd isLetter (by decide)

theorem digit_of_mem_takeWhile {character : Char} (member : character ∈ rest.takeWhile Char.isDigit) :
    Digit character :=
  isDigit_iff.mp (List.mem_takeWhile_imp member)

theorem fractionDigits_spec (rest : List Char) :
    (∀ character ∈ fractionDigits rest, Digit character) ∧
      (fractionDigits rest ≠ [] → '.' :: fractionDigits rest <+: rest) ∧
      ∀ decimals, (∀ character ∈ decimals, Digit character) → '.' :: decimals <+: rest →
        decimals.length ≤ (fractionDigits rest).length := by
  unfold fractionDigits
  split
  · rename_i digit others
    split
    · rename_i isDigit
      have taken : digit :: others.takeWhile Char.isDigit =
          (digit :: others).takeWhile Char.isDigit := by
        rw [List.takeWhile_cons_of_pos isDigit]
      rw [taken]
      refine ⟨fun character => digit_of_mem_takeWhile, fun _ => ?_, fun decimals digits before => ?_⟩
      · exact List.cons_prefix_cons.mpr ⟨rfl, List.takeWhile_prefix _⟩
      · refine length_le_takeWhile (List.cons_prefix_cons.mp before).2 fun character member => ?_
        exact isDigit_iff.mpr (digits character member)
    · rename_i noDigit
      refine ⟨by simp, by simp, fun decimals digits before => ?_⟩
      cases decimals with
      | nil => exact Nat.le_refl _
      | cons head decimals =>
          obtain ⟨rfl, -⟩ := List.cons_prefix_cons.mp (List.cons_prefix_cons.mp before).2
          exact absurd (isDigit_iff.mpr (digits _ List.mem_cons_self)) noDigit
  · rename_i noPoint
    refine ⟨by simp, by simp, fun decimals digits before => ?_⟩
    cases decimals with
    | nil => exact Nat.le_refl _
    | cons head decimals =>
        obtain ⟨others, rfl⟩ := before
        exact (noPoint head (decimals ++ others) rfl).elim

theorem digits_eq {whole others digits decimals : List Char}
    (taken : (whole ++ others).takeWhile Char.isDigit = whole)
    (all : ∀ character ∈ digits, Digit character)
    (before : digits ++ '.' :: decimals <+: whole ++ others) :
    digits = whole ∧ '.' :: decimals <+: others := by
  obtain ⟨after, same⟩ := before
  have run : digits = whole := by
    rw [← taken, ← same, List.append_assoc, List.takeWhile_append_of_pos, List.cons_append,
      List.takeWhile_cons_of_neg (by decide), List.append_nil]
    exact fun character member => isDigit_iff.mpr (all character member)
  subst run
  rw [List.append_assoc] at same
  exact ⟨rfl, after, List.append_cancel_left same⟩

theorem munched_number (isDigit : Digit first)
    (front : number first rest = (.token kind literal, length)) :
    Munched kind literal (first :: rest.take length) (rest.drop length) := by
  have bound : length ≤ rest.length := by
    have within : (number first rest).2 ≤ rest.length := number_length_le
    rwa [front] at within
  generalize taken : rest.takeWhile Char.isDigit = whole at front
  obtain ⟨others, rfl⟩ : ∃ others, rest = whole ++ others :=
    ⟨_, (taken ▸ List.takeWhile_append_dropWhile).symm⟩
  have digits : ∀ character ∈ first :: whole, Digit character := by
    rw [List.forall_mem_cons]
    exact ⟨isDigit, fun character member => digit_of_mem_takeWhile (taken ▸ member)⟩
  obtain ⟨decimal, point, most⟩ := fractionDigits_spec others
  simp only [number, taken, List.drop_left] at front
  generalize fractionDigits others = fraction at front decimal point most
  obtain ⟨rfl, -⟩ := Piece.token.inj (Prod.mk.inj front).1
  have size := (Prod.mk.inj front).2
  refine ⟨?_, ?_, not_quoted (quote_of_digit isDigit)⟩
  · cases fraction with
    | nil =>
        obtain rfl : whole.length = length := by simpa using size
        rw [List.take_left]
        exact .whole (by simp) digits
    | cons head fraction =>
        obtain ⟨after, rfl⟩ := point (by simp)
        have text : (whole ++ ('.' :: head :: fraction ++ after)).take length =
            whole ++ '.' :: head :: fraction := by
          rw [← size, ← List.append_assoc]
          exact List.take_left' (by simp)
        rw [text, ← List.cons_append]
        exact .decimal (by simp) digits (by simp) decimal
  · rw [List.cons_append, List.take_append_drop]
    refine Longest.of_tails fun kind tail lexeme before => ?_
    rw [List.length_take_of_le bound, ← size]
    rcases lexeme.shape with ⟨isQuote, -⟩ | ⟨-, -, run, part, rfl, all, none | ⟨decimals, rfl, some?, few⟩⟩ |
      ⟨isLetter, -⟩ | member
    · exact absurd isQuote (quote_of_digit isDigit)
    · subst none
      rw [List.append_nil] at before ⊢
      have run_le := length_le_takeWhile (p := Char.isDigit) before fun character member =>
        isDigit_iff.mpr (all character member)
      rw [taken] at run_le
      exact run_le.trans (Nat.le_add_right _ _)
    · obtain ⟨rfl, rest⟩ := digits_eq taken all before
      have few := most decimals few rest
      have present : fraction.isEmpty = false := by
        cases fraction with
        | nil => exact absurd (List.length_eq_zero_iff.mp (Nat.le_zero.mp few)) some?
        | cons => rfl
      rw [present, List.length_append, List.length_cons]
      simpa using few
    · exact absurd isLetter (not_letter_of_digit isDigit)
    · exact absurd isDigit (head_of_mem_operators member String.toList_ofList).2.1

theorem munched_word (isLetter : Letter first)
    (front : word first rest = (.token kind literal, length)) :
    Munched kind literal (first :: rest.take length) (rest.drop length) := by
  have begun : rest.takeWhile continuesWord <+: rest := List.takeWhile_prefix _
  have taken := List.prefix_iff_eq_take.mp begun
  have kinds := kind_of_word front
  have size : (rest.takeWhile continuesWord).length = length := (Prod.mk.inj front).2
  rw [size] at taken
  refine ⟨?_, ?_, not_quoted (quote_of_letter isLetter)⟩
  · have isWord : Word (first :: rest.take length) := by
      refine ⟨isLetter, fun character member => ?_⟩
      rw [← taken] at member
      exact continuesWord_iff.mp (List.mem_takeWhile_imp member)
    rcases ofWord_eq (String.ofList (first :: rest.take length)) with member | ⟨name, absent⟩
    · rw [← kinds] at member
      simpa using Lexeme.keyword member
    · rw [kinds, name]
      exact .identifier isWord absent
  · rw [List.cons_append, List.take_append_drop]
    refine Longest.of_tails fun kind tail lexeme before => ?_
    rw [← taken]
    rcases lexeme.shape with ⟨isQuote, -⟩ | ⟨isDigit, -⟩ | ⟨-, -, others⟩ | member
    · exact absurd isQuote (quote_of_letter isLetter)
    · exact absurd isLetter (not_letter_of_digit isDigit)
    · exact length_le_takeWhile before fun character member =>
        continuesWord_iff.mpr (others character member)
    · exact absurd isLetter (head_of_mem_operators member String.toList_ofList).2.2

theorem munched_of_atFront (front : atFront first rest = (.token kind literal, length)) :
    Munched kind literal (first :: rest.take length) (rest.drop length) := by
  unfold atFront at front
  split at front
  case h_1 | h_2 | h_3 | h_4 | h_5 | h_6 | h_7 | h_8 | h_9 | h_10 | h_11 | h_12 =>
    cases front
    exact munched_single (by decide) (by decide)
  case h_13 | h_14 | h_15 | h_16 => exact munched_operator (by decide) (by decide) front
  case h_17 | h_18 | h_19 | h_20 => cases front
  case h_21 => exact munched_slash front
  case h_22 => exact munched_string front
  case h_23 =>
    split at front
    · rename_i isDigit
      exact munched_number (isDigit_iff.mp isDigit) front
    · split at front
      · rename_i isLetter
        exact munched_word (startsWord_iff.mp isLetter) front
      · cases front

theorem infix_commentEnd_cons {character : Char} {text : List Char}
    (open? : character = '*' → text.head? ≠ some '/') :
    ['*', '/'] <:+: character :: text ↔ ['*', '/'] <:+: text := by
  rw [List.infix_cons_iff, or_iff_right]
  intro before
  obtain ⟨rfl, within⟩ := List.cons_prefix_cons.mp before
  obtain ⟨others, rfl⟩ := within
  exact open? rfl rfl

theorem commentLength?_eq_some (found : commentLength? rest = some length) :
    ∃ body after, rest = body ++ '*' :: '/' :: after ∧ length = body.length + 2 ∧
      ¬ ['*', '/'] <:+: body ++ ['*'] := by
  fun_induction commentLength? rest generalizing length with
  | case1 rest =>
      obtain rfl : 2 = length := by simpa using found
      exact ⟨[], rest, rfl, rfl, by decide⟩
  | case2 head rest open? ih =>
      obtain ⟨inner, inside, rfl⟩ := Option.map_eq_some_iff.mp found
      obtain ⟨body, after, rfl, rfl, first⟩ := ih inside
      refine ⟨head :: body, after, rfl, by simp, ?_⟩
      rw [List.cons_append, infix_commentEnd_cons]
      · exact first
      · intro isStar slash
        cases body with
        | nil => simp at slash
        | cons next body =>
            obtain rfl : next = '/' := by simpa using slash
            exact open? _ isStar rfl
  | case3 => cases found

theorem commentLength?_eq_none (missing : commentLength? rest = none) : ¬ ['*', '/'] <:+: rest := by
  fun_induction commentLength? rest with
  | case1 => cases missing
  | case2 head rest open? ih =>
      rw [infix_commentEnd_cons]
      · exact ih (Option.map_eq_none_iff.mp missing)
      · intro isStar slash
        cases rest with
        | nil => cases slash
        | cons next rest => exact open? rest isStar (by cases slash; rfl)
  | case3 => simp

theorem head?_dropWhile_newline (text : List Char) :
    text.dropWhile (· ≠ '\n') = [] ∨ (text.dropWhile (· ≠ '\n')).head? = some '\n' := by
  have stops := List.head?_dropWhile_not (· ≠ '\n') text
  cases dropped : text.dropWhile (· ≠ '\n') with
  | nil => exact .inl rfl
  | cons head rest =>
      rw [dropped] at stops
      exact .inr (by simpa using stops)

theorem skipped_of_slash (front : slash rest = (.gap, length)) :
    Skipped ('/' :: rest.take length) (rest.drop length) := by
  unfold slash at front
  split at front
  · rename_i comment
    obtain rfl := (Prod.mk.inj front).2
    have split := List.takeWhile_append_dropWhile (p := (· ≠ '\n')) (l := comment)
    have rest := head?_dropWhile_newline comment
    have inside : '\n' ∉ comment.takeWhile (· ≠ '\n') := by
      intro member
      simpa using List.mem_takeWhile_imp member
    generalize comment.takeWhile (· ≠ '\n') = body at split inside
    rw [← split, Nat.add_comm 1, List.take_succ_cons, List.drop_succ_cons, List.take_left, List.drop_left]
    exact .line inside rest
  · rename_i comment
    split at front
    · rename_i inner found
      obtain rfl := (Prod.mk.inj front).2
      obtain ⟨body, after, rfl, rfl, first⟩ := commentLength?_eq_some found
      have text : (body ++ '*' :: '/' :: after).take (body.length + 2) = body ++ ['*', '/'] := by
        rw [List.take_append]
        simp
      rw [Nat.add_comm 1, List.take_succ_cons, text]
      exact .block first
    · cases front
  · cases front

theorem skipped_of_atFront (front : atFront first rest = (.gap, length)) :
    Skipped (first :: rest.take length) (rest.drop length) := by
  unfold atFront at front
  split at front
  case h_1 | h_2 | h_3 | h_4 | h_5 | h_6 | h_7 | h_8 | h_9 | h_10 | h_11 | h_12 => cases front
  case h_13 | h_14 | h_15 | h_16 =>
    unfold operator at front
    split at front <;> cases front
  case h_17 | h_18 | h_19 | h_20 =>
    cases front
    exact .blank (by decide)
  case h_21 => exact skipped_of_slash front
  case h_22 =>
    unfold string at front
    dsimp only at front
    split at front <;> cases front
  case h_23 =>
    split at front
    · cases front
    · split at front <;> cases front

/-- What stands where a fault is found: a character that begins nothing, or a string or a comment that
goes on to the end of the source. -/
inductive Refused : LexicalFault → (text after : List Char) → Prop
  | character {character : Char} {after : List Char} : Unreadable (character :: after) →
      character ∉ [' ', '\t', '\r', '\n'] → Refused (.unexpectedCharacter character) [character] after
  | string {body : List Char} : '"' ∉ body → Refused .unterminatedString ('"' :: body) []
  | comment {body : List Char} : ¬ ['*', '/'] <:+: body →
      Refused .unterminatedComment ('/' :: '*' :: body) []

theorem refused_of_slash {fault : LexicalFault} (front : slash rest = (.fault fault, length)) :
    Refused fault ('/' :: rest.take length) (rest.drop length) := by
  unfold slash at front
  split at front
  · cases front
  · rename_i comment
    split at front
    · cases front
    · rename_i missing
      cases front
      rw [Nat.add_comm 1, List.take_succ_cons, List.drop_succ_cons, List.take_length, List.drop_length]
      exact .comment (commentLength?_eq_none missing)
  · cases front

theorem refused_of_string {fault : LexicalFault} (front : string rest = (.fault fault, length)) :
    Refused fault ('"' :: rest.take length) (rest.drop length) := by
  simp only [string] at front
  split at front
  · cases front
  · rename_i open?
    cases front
    have begun : rest.takeWhile (· ≠ '"') <+: rest := List.takeWhile_prefix _
    have whole := begun.eq_of_length_le (Nat.le_of_not_lt open?)
    rw [List.take_length, List.drop_length]
    refine .string fun member => ?_
    rw [← whole] at member
    simpa using List.mem_takeWhile_imp member

theorem refused_of_atFront {fault : LexicalFault}
    (front : atFront first rest = (.fault fault, length)) :
    Refused fault (first :: rest.take length) (rest.drop length) := by
  unfold atFront at front
  split at front
  case h_1 | h_2 | h_3 | h_4 | h_5 | h_6 | h_7 | h_8 | h_9 | h_10 | h_11 | h_12 => cases front
  case h_13 | h_14 | h_15 | h_16 =>
    unfold operator at front
    split at front <;> cases front
  case h_17 | h_18 | h_19 | h_20 => cases front
  case h_21 => exact refused_of_slash front
  case h_22 => exact refused_of_string front
  case h_23 =>
    split at front
    · cases front
    · rename_i noDigit
      split at front
      · cases front
      · rename_i noLetter
        cases front
        refine .character (Unreadable.of_tails fun kind tail lexeme before => ?_) ?_
        · have heads : ∀ entry ∈ operators, entry.1.toList.head?.all
              (· ∈ "()\x7b\x7d,.-+;/*?:!=><".toList) := by decide
          rcases lexeme.shape with ⟨isQuote, -⟩ | ⟨isDigit, -⟩ | ⟨isLetter, -⟩ | member
          · contradiction
          · exact noDigit (isDigit_iff.mpr isDigit)
          · exact noLetter (startsWord_iff.mpr isLetter)
          · have begins := heads _ member
            simp only [String.toList_ofList, List.head?_cons, Option.all_some, decide_eq_true_eq,
              String.reduceToList, List.mem_cons, List.not_mem_nil, or_false] at begins
            tauto
        · simp only [List.mem_cons, List.not_mem_nil]
          tauto

theorem Refused.unreadable {fault : LexicalFault} {text after : List Char}
    (refused : Refused fault text after) :
    OpensComment (text ++ after) ∨ Unreadable (text ++ after) := by
  cases refused with
  | character unreadable _ => exact .inr unreadable
  | comment missing => exact .inl ⟨_, by simp, missing⟩
  | string open? =>
      refine .inr (Unreadable.of_tails fun kind tail lexeme before => ?_)
      rcases lexeme.shape with ⟨-, -, body, rfl, -⟩ | ⟨isDigit, -⟩ | ⟨isLetter, -⟩ | member
      · exact open? (by simpa using before.subset (List.mem_append_right _ List.mem_cons_self))
      · exact absurd isDigit (by decide)
      · exact absurd isLetter (by decide)
      · exact absurd rfl (head_of_mem_operators member String.toList_ofList).1

end Piece

end Lox
