import Mathlib
import Lox.Proofs.Token.Layout

/-!
Scanning what has been scanned. A lexeme that was taken from a source is taken again where a blank
follows it, or nothing, whatever has followed it in the source. So the lexemes of a source, with
single blanks between them, are scanned to the same tokens.
-/

namespace Lox

def Delimited (after : List Char) : Prop := ∀ character ∈ after.head?, character = ' '

theorem delimited_nil : Delimited [] := by simp [Delimited]

theorem delimited_blank (after : List Char) : Delimited (' ' :: after) := by simp [Delimited]

theorem Delimited.takeWhile_append {after text : List Char} {p : Char → Bool}
    (delimited : Delimited after) (stops : p ' ' = false) (all : ∀ character ∈ text, p character) :
    (text ++ after).takeWhile p = text := by
  rw [List.takeWhile_append_of_pos all]
  cases after with
  | nil => simp
  | cons character after =>
      obtain rfl : character = ' ' := delimited character rfl
      rw [List.takeWhile_cons_of_neg (by simp [stops]), List.append_nil]

namespace Piece

variable {first : Char} {rest after : List Char} {kind : TokenKind} {literal : Option Literal}
  {length : Nat} (delimited : Delimited after)

include delimited

theorem operator_delimited {long short : TokenKind}
    (front : operator '=' long short rest = (.token kind literal, length)) :
    operator '=' long short (rest.take length ++ after) = (.token kind literal, length) := by
  unfold operator at front ⊢
  split at front
  · rename_i follows
    cases front
    obtain ⟨others, rfl⟩ := List.head?_eq_some_iff.mp follows
    simp
  · cases front
    have alone : after.head? ≠ some '=' := fun follows => absurd (delimited '=' follows) (by decide)
    rw [List.take_zero, List.nil_append, if_neg alone]

theorem slash_delimited (front : slash rest = (.token kind literal, length)) :
    slash (rest.take length ++ after) = (.token kind literal, length) := by
  have alone : slash after = (.token .slash none, 0) := by
    cases after with
    | nil => rfl
    | cons character after =>
        obtain rfl : character = ' ' := delimited character rfl
        rfl
  unfold slash at front
  split at front
  · cases front
  · split at front <;> cases front
  · cases front
    exact alone

omit delimited in
theorem string_closed (front : string rest = (.token kind literal, length)) (after : List Char) :
    string (rest.take length ++ after) = (.token kind literal, length) := by
  have munched := munched_string front
  have lexeme := munched.lexeme
  rw [kind_of_string front] at lexeme
  rcases lexeme.shape with ⟨-, -, body, closed, open?⟩ | ⟨isDigit, -⟩ | ⟨isLetter, -⟩ | member
  · have value := munched.quoted body (by rw [closed]; rfl)
    have size : length = body.length + 1 := by
      have bound : length ≤ rest.length := by
        have within : (string rest).2 ≤ rest.length := string_length_le
        rwa [front] at within
      rw [← List.length_take_of_le bound, closed]
      simp
    have taken : (body ++ '"' :: after).takeWhile (· ≠ '"') = body := takeWhile_quote open? after
    rw [closed, List.append_assoc, List.singleton_append, kind_of_string front, value, size]
    simp only [string, taken]
    rw [if_pos (by simp)]
  · exact absurd isDigit (by decide)
  · exact absurd isLetter (by decide)
  · exact absurd rfl (head_of_mem_operators member String.toList_ofList).1

def pointed (fraction : List Char) : List Char := if fraction.isEmpty then [] else '.' :: fraction

omit delimited in
theorem length_pointed (fraction : List Char) :
    (pointed fraction).length = if fraction.isEmpty then 0 else fraction.length + 1 := by
  unfold pointed
  split <;> rfl

theorem fractionDigits_delimited {fraction : List Char}
    (digits : ∀ character ∈ fraction, Digit character) :
    fractionDigits (pointed fraction ++ after) = fraction := by
  cases fraction with
  | nil =>
      cases after with
      | nil => rfl
      | cons character after =>
          obtain rfl : character = ' ' := delimited character rfl
          exact fractionDigits_of_ne (by decide)
  | cons digit others =>
      obtain ⟨isDigit, all⟩ := List.forall_mem_cons.mp digits
      have run : (others ++ after).takeWhile Char.isDigit = others :=
        delimited.takeWhile_append (by decide) fun character member =>
          isDigit_iff.mpr (all character member)
      show (if digit.isDigit then digit :: (others ++ after).takeWhile Char.isDigit else []) = _
      rw [if_pos (isDigit_iff.mpr isDigit), run]

theorem number_pointed {whole fraction : List Char} (digits : ∀ character ∈ whole, Digit character)
    (decimal : ∀ character ∈ fraction, Digit character) :
    number first (whole ++ (pointed fraction ++ after)) =
      (.token .number (some (.number
        (.ofDecimal (Nat.ofDigitChars 10 (first :: whole ++ fraction) 0) fraction.length))),
        whole.length + if fraction.isEmpty then 0 else fraction.length + 1) := by
  have run : (whole ++ (pointed fraction ++ after)).takeWhile Char.isDigit = whole := by
    rw [List.takeWhile_append_of_pos fun character member => isDigit_iff.mpr (digits character member)]
    unfold pointed
    split
    · simpa using delimited.takeWhile_append (p := Char.isDigit) (by decide) (List.forall_mem_nil _)
    · simp
  simp only [number, run, List.drop_left, fractionDigits_delimited delimited decimal]

theorem number_delimited (front : number first rest = (.token kind literal, length)) :
    number first (rest.take length ++ after) = (.token kind literal, length) := by
  generalize taken : rest.takeWhile Char.isDigit = whole at front
  obtain ⟨others, rfl⟩ : ∃ others, rest = whole ++ others :=
    ⟨_, (taken ▸ List.takeWhile_append_dropWhile).symm⟩
  obtain ⟨decimal, point, -⟩ := fractionDigits_spec others
  simp only [number, taken, List.drop_left] at front
  generalize fractionDigits others = fraction at front decimal point
  have size : (whole ++ pointed fraction).length = length := by
    rw [List.length_append, length_pointed]
    exact (Prod.mk.inj front).2
  have text : (whole ++ others).take length = whole ++ pointed fraction := by
    have before : whole ++ pointed fraction <+: whole ++ others := by
      rw [List.prefix_append_right_inj]
      unfold pointed
      split
      · exact List.nil_prefix
      · rename_i present
        exact point (by simpa using present)
    rw [← size]
    exact (List.prefix_iff_eq_take.mp before).symm
  rw [text, List.append_assoc, number_pointed delimited (fun character member =>
    digit_of_mem_takeWhile (taken ▸ member)) decimal]
  exact front

theorem word_delimited (front : word first rest = (.token kind literal, length)) :
    word first (rest.take length ++ after) = (.token kind literal, length) := by
  have begun : rest.takeWhile continuesWord <+: rest := List.takeWhile_prefix _
  have taken := List.prefix_iff_eq_take.mp begun
  have size : (rest.takeWhile continuesWord).length = length := (Prod.mk.inj front).2
  rw [size] at taken
  have run : (rest.take length ++ after).takeWhile continuesWord =
      rest.takeWhile continuesWord := by
    rw [← taken]
    exact delimited.takeWhile_append (by decide) fun character => List.mem_takeWhile_imp
  simp only [word, run]
  exact front

theorem atFront_delimited (front : atFront first rest = (.token kind literal, length)) :
    atFront first (rest.take length ++ after) = (.token kind literal, length) := by
  unfold atFront at front ⊢
  split at front
  case h_1 | h_2 | h_3 | h_4 | h_5 | h_6 | h_7 | h_8 | h_9 | h_10 | h_11 | h_12 => exact front
  case h_13 | h_14 | h_15 | h_16 => exact operator_delimited delimited front
  case h_17 | h_18 | h_19 | h_20 => cases front
  case h_21 => exact slash_delimited delimited front
  case h_22 => exact string_closed front after
  case h_23 =>
    split at front
    · rename_i isDigit
      simpa [isDigit] using number_delimited delimited front
    · rename_i noDigit
      split at front
      · rename_i isLetter
        simpa [noDigit, isLetter] using word_delimited delimited front
      · cases front

end Piece

namespace Token

/-- The token is scanned from its lexeme wherever that is delimited. -/
def Stands (token : Token) : Prop :=
  ∃ first rest, token.lexeme.toList = first :: rest ∧ ∀ after, Delimited after →
    Piece.atFront first (rest ++ after) = (.token token.kind token.literal, rest.length)

theorem stands_of_atFront {first : Char} {rest : List Char} {kind : TokenKind}
    {literal : Option Literal} {length : Nat}
    (front : Piece.atFront first rest = (.token kind literal, length)) (line : Nat) :
    Stands ⟨kind, String.ofList (first :: rest.take length), literal, line⟩ := by
  have bound : length ≤ rest.length := by
    have within := Piece.atFront_length_le first rest
    rwa [front] at within
  refine ⟨first, rest.take length, String.toList_ofList, fun after delimited => ?_⟩
  rw [Piece.atFront_delimited delimited front, List.length_take_of_le bound]

theorem stands_of_mem_scanFrom (line : Nat) (source : List Char) (token : Token)
    (member : .ok token ∈ scanFrom line source) : token.kind = .eof ∨ token.Stands := by
  match source with
  | [] =>
      rw [scanFrom, List.mem_singleton] at member
      cases member
      exact .inl rfl
  | first :: rest =>
      rcases front : Piece.atFront first rest with ⟨piece, length⟩
      rw [scanFrom_cons front, List.mem_append] at member
      rcases member with here | later
      · cases piece with
        | gap => cases here
        | fault fault => simp [Piece.items] at here
        | token kind literal =>
            obtain rfl := Except.ok.inj (List.mem_singleton.mp here)
            exact .inr (stands_of_atFront front _)
      · exact stands_of_mem_scanFrom _ (rest.drop length) token later
termination_by source.length
decreasing_by simp only [List.length_drop, List.length_cons]; omega

/-- What a token says apart from the line on which it stands. -/
def content (token : Token) : TokenKind × String × Option Literal :=
  (token.kind, token.lexeme, token.literal)

def spaced (tokens : List Token) : String := " ".intercalate (tokens.map lexeme)

theorem scanFrom_stands {token : Token} (stands : token.Stands) (line : Nat) {after : List Char}
    (delimited : Delimited after) :
    ∃ again : Token, again.content = token.content ∧
      scanFrom line (token.lexeme.toList ++ after) = .ok again :: scanFrom again.line after := by
  obtain ⟨first, rest, text, front⟩ := stands
  have lexeme : String.ofList (first :: rest) = token.lexeme := by rw [← text, String.ofList_toList]
  refine ⟨⟨token.kind, String.ofList (first :: rest), token.literal,
    line + (first :: rest).count '\n'⟩, by rw [content, content, lexeme], ?_⟩
  rw [text, List.cons_append, scanFrom_cons (front after delimited), List.take_left, List.drop_left]
  rfl

theorem scanFrom_blank (line : Nat) (rest : List Char) :
    scanFrom line (' ' :: rest) = scanFrom line rest := by
  have front : Piece.atFront ' ' rest = (.gap, 0) := rfl
  rw [scanFrom_cons front]
  rfl

theorem scanFrom_spaced {tokens : List Token} (stand : ∀ token ∈ tokens, token.Stands)
    (line : Nat) :
    ∃ (again : List Token) (last : Nat),
      scanFrom line (spaced tokens).toList = again.map .ok ++ [.ok (ending last)] ∧
      again.map content = tokens.map content := by
  induction tokens generalizing line with
  | nil => exact ⟨[], line, by rw [show (spaced []).toList = [] from rfl, scanFrom]; rfl, rfl⟩
  | cons token tokens ih =>
      obtain ⟨stands, others⟩ := List.forall_mem_cons.mp stand
      cases tokens with
      | nil =>
          obtain ⟨again, same, scanned⟩ := scanFrom_stands stands line delimited_nil
          refine ⟨[again], again.line, ?_, by simp [same]⟩
          have alone : (spaced [token]).toList = token.lexeme.toList ++ [] := by simp [spaced]
          rw [alone, scanned, scanFrom]
          rfl
      | cons next tokens =>
          have text : (spaced (token :: next :: tokens)).toList =
              token.lexeme.toList ++ ' ' :: (spaced (next :: tokens)).toList := by
            simp [spaced, String.intercalate_cons_cons]
          obtain ⟨again, same, scanned⟩ := scanFrom_stands stands line (delimited_blank _)
          obtain ⟨rest, last, scanned', same'⟩ := ih others again.line
          refine ⟨again :: rest, last, ?_, by rw [List.map_cons, List.map_cons, same, same']⟩
          rw [text, scanned, scanFrom_blank, scanned']
          rfl

theorem stands_of_mem_words {source : String} {token : Token}
    (member : token ∈ Parse.words (ofSource source)) : token.Stands := by
  have scanned : .ok token ∈ scan source := by
    obtain ⟨item, listed, same⟩ := List.mem_filterMap.mp (List.takeWhile_subset _ member)
    cases item with
    | error fault => cases same
    | ok item =>
        cases same
        exact listed
  have inner : token.isEnding = false := by simpa using List.mem_takeWhile_imp member
  rcases stands_of_mem_scanFrom 1 source.toList token scanned with isEnding | stands
  · exact absurd isEnding (of_decide_eq_false inner)
  · exact stands

/-- Scanning the lexemes of a source, with single blanks between them, finds no fault and gives the
same tokens, though on other lines, whether the source has faults or not. -/
theorem rescanning_is_identity (source : String) :
    ∃ (again : List Token) (last : Nat),
      scan (spaced (Parse.words (ofSource source))) = again.map .ok ++ [.ok (ending last)] ∧
      again.map content = (Parse.words (ofSource source)).map content :=
  scanFrom_spaced (fun _ => stands_of_mem_words) 1

end Token

end Lox
