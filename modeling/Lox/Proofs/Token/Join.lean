import Lox.Parse.Program
import Lox.Proofs.Scoping.Words

/-!
Scanning a source that is followed by a newline and another source. No piece without a fault runs over
the newline, so the tokens are those of the two sources, those of the second further down.
-/

namespace Lox

namespace Piece

variable {first : Char} {rest more : List Char}

theorem takeWhile_newline {p : Char → Bool} (stops : p '\n' = false) :
    (rest ++ '\n' :: more).takeWhile p = rest.takeWhile p := by
  rw [List.takeWhile_append]
  split
  · rename_i whole
    rw [List.takeWhile_cons_of_neg (by simp [stops]), List.append_nil]
    exact ((List.takeWhile_prefix p).eq_of_length whole).symm
  · rfl

theorem operator_newline (long short : TokenKind) :
    operator '=' long short (rest ++ '\n' :: more) = operator '=' long short rest := by
  cases rest <;> simp [operator]

theorem commentLength?_append {length : Nat} (closed : commentLength? rest = some length) :
    commentLength? (rest ++ more) = some length := by
  fun_induction commentLength? rest generalizing length with
  | case1 rest => exact closed
  | case2 head rest open? ih =>
      obtain ⟨inner, found, rfl⟩ := Option.map_eq_some_iff.mp closed
      have longer := ih found
      cases rest with
      | nil => simp [commentLength?] at found
      | cons next rest =>
          rw [List.cons_append, List.cons_append, commentLength?, ← List.cons_append, longer]
          · rfl
          · intro after star
            rintro ⟨rfl, -⟩
            exact open? rest star rfl
  | case3 => simp at closed

theorem commentLength?_le {length : Nat} (closed : commentLength? rest = some length) :
    length ≤ rest.length := by
  fun_induction commentLength? rest generalizing length with
  | case1 rest =>
      obtain rfl : 2 = length := by simpa using closed
      simp
  | case2 head rest _ ih =>
      obtain ⟨inner, found, rfl⟩ := Option.map_eq_some_iff.mp closed
      have bound := ih found
      simp only [List.length_cons]
      omega
  | case3 => simp at closed

theorem slash_newline (clean : ∀ fault, (slash rest).1 ≠ .fault fault) :
    slash (rest ++ '\n' :: more) = slash rest := by
  unfold slash at clean ⊢
  split at clean
  · simp only [List.cons_append]
    rw [takeWhile_newline (by decide)]
  · rename_i comment
    simp only [List.cons_append]
    cases closed : commentLength? comment with
    | some length => rw [commentLength?_append closed]
    | none => simp [closed] at clean
  · rename_i noLine noBlock
    cases rest with
    | nil => rfl
    | cons head rest =>
        split
        · rename_i same
          rw [List.cons_append, List.cons.injEq] at same
          exact (noLine rest (by rw [same.1])).elim
        · rename_i same
          rw [List.cons_append, List.cons.injEq] at same
          exact (noBlock rest (by rw [same.1])).elim
        · rfl

theorem slash_length_le : (slash rest).2 ≤ rest.length := by
  unfold slash
  split
  · rename_i comment
    have bound := (List.takeWhile_prefix (· ≠ '\n') (l := comment)).length_le
    simp only [List.length_cons]
    omega
  · rename_i comment
    split
    · rename_i length closed
      have bound := commentLength?_le closed
      simp only [List.length_cons]
      omega
    · simp only [List.length_cons]
      omega
  · exact Nat.zero_le _

theorem string_newline (clean : ∀ fault, (string rest).1 ≠ .fault fault) :
    string (rest ++ '\n' :: more) = string rest := by
  simp only [string] at clean ⊢
  split at clean
  · rename_i closed
    have same : (rest ++ '\n' :: more).takeWhile (· ≠ '"') = rest.takeWhile (· ≠ '"') := by
      rw [List.takeWhile_append, if_neg (by omega)]
    rw [same, if_pos closed, if_pos (by rw [List.length_append]; omega)]
  · simp at clean

theorem string_length_le : (string rest).2 ≤ rest.length := by
  simp only [string]
  split
  · rename_i closed
    exact closed
  · exact le_rfl

theorem fractionDigits_of_ne (isOther : first ≠ '.') : fractionDigits (first :: rest) = [] := by
  unfold fractionDigits
  split
  · rename_i same
    exact (isOther (List.cons.inj same).1).elim
  · rfl

theorem fractionDigits_newline : fractionDigits (rest ++ '\n' :: more) = fractionDigits rest := by
  cases rest with
  | nil => rfl
  | cons head rest =>
      by_cases isPoint : head = '.'
      · subst isPoint
        cases rest with
        | nil => rfl
        | cons digit rest =>
            simp only [List.cons_append, fractionDigits]
            rw [takeWhile_newline (by decide)]
      · rw [List.cons_append, fractionDigits_of_ne isPoint, fractionDigits_of_ne isPoint]

theorem fractionDigits_length_le (rest : List Char) :
    (if (fractionDigits rest).isEmpty then 0 else (fractionDigits rest).length + 1) ≤ rest.length := by
  unfold fractionDigits
  split
  · rename_i digit rest
    have bound := (List.takeWhile_prefix Char.isDigit (l := rest)).length_le
    split <;> simp only [List.isEmpty_cons, List.isEmpty_nil, List.length_cons] <;> simp
    omega
  · simp

theorem number_newline : number first (rest ++ '\n' :: more) = number first rest := by
  have bound := (List.takeWhile_prefix Char.isDigit (l := rest)).length_le
  simp only [number]
  rw [takeWhile_newline (by decide), List.drop_append_of_le_length bound, fractionDigits_newline]

theorem number_length_le : (number first rest).2 ≤ rest.length := by
  have whole := (List.takeWhile_prefix Char.isDigit (l := rest)).length_le
  have fraction := fractionDigits_length_le (rest.drop (rest.takeWhile Char.isDigit).length)
  rw [List.length_drop] at fraction
  simp only [number]
  omega

theorem word_newline : word first (rest ++ '\n' :: more) = word first rest := by
  simp only [word]
  rw [takeWhile_newline (by decide)]

theorem atFront_newline (clean : ∀ fault, (atFront first rest).1 ≠ .fault fault) :
    atFront first (rest ++ '\n' :: more) = atFront first rest := by
  unfold atFront at clean ⊢
  split <;> try rfl
  case h_13 | h_14 | h_15 | h_16 => exact operator_newline _ _
  case h_21 => exact slash_newline clean
  case h_22 => exact string_newline clean
  case h_23 =>
    split
    · exact number_newline
    · split
      · exact word_newline
      · rfl

theorem atFront_length_le (first : Char) (rest : List Char) :
    (atFront first rest).2 ≤ rest.length := by
  have word_le : (word first rest).2 ≤ rest.length :=
    (List.takeWhile_prefix continuesWord (l := rest)).length_le
  unfold atFront
  split <;> try exact Nat.zero_le _
  case h_13 | h_14 | h_15 | h_16 => cases rest <;> simp only [operator] <;> split <;> simp_all
  case h_21 => exact slash_length_le
  case h_22 => exact string_length_le
  case h_23 =>
    split
    · exact number_length_le
    · split
      · exact word_le
      · exact Nat.zero_le _

theorem ofWord_ne_eof (word : String) : TokenKind.ofWord word ≠ .eof := by
  unfold TokenKind.ofWord
  split <;> nofun

theorem ne_eof_of_atFront {kind : TokenKind} {literal : Option Literal} {length : Nat}
    (front : atFront first rest = (.token kind literal, length)) : kind ≠ .eof := by
  unfold atFront at front
  split at front
  case h_1 | h_2 | h_3 | h_4 | h_5 | h_6 | h_7 | h_8 | h_9 | h_10 | h_11 | h_12 =>
    cases front
    nofun
  case h_13 | h_14 | h_15 | h_16 => rcases kind_of_operator front with rfl | rfl <;> nofun
  case h_17 | h_18 | h_19 | h_20 => cases front
  case h_21 =>
    rw [kind_of_slash front]
    nofun
  case h_22 =>
    rw [kind_of_string front]
    nofun
  case h_23 =>
    split at front
    · cases front
      nofun
    · split at front
      · rw [kind_of_word front]
        exact ofWord_ne_eof _
      · cases front

def items (text : List Char) (line : Nat) : Piece → List (Except LexicalError Token)
  | .gap => []
  | .token kind literal => [.ok ⟨kind, String.ofList text, literal, line⟩]
  | .fault found => [.error ⟨line, found⟩]

end Piece

namespace Token

def down (lines : Nat) (token : Token) : Token := { token with line := token.line + lines }

theorem scanFrom_cons {first : Char} {rest : List Char} {piece : Piece} {length : Nat}
    (front : Piece.atFront first rest = (piece, length)) (line : Nat) :
    scanFrom line (first :: rest) =
      piece.items (first :: rest.take length) (line + (first :: rest.take length).count '\n') ++
        scanFrom (line + (first :: rest.take length).count '\n') (rest.drop length) := by
  rw [scanFrom, front]
  cases piece <;> rfl

theorem split_append (items others : List (Except LexicalError Token)) :
    split (items ++ others) =
      ((split items).1 ++ (split others).1, (split items).2 ++ (split others).2) := by
  simp only [split, List.filterMap_append]

theorem split_scanFrom_down (lines line : Nat) (source : List Char) :
    (split (scanFrom (line + lines) source)).1 =
        (split (scanFrom line source)).1.map (down lines) ∧
      ((split (scanFrom (line + lines) source)).2 = [] ↔ (split (scanFrom line source)).2 = []) := by
  match source with
  | [] =>
      rw [scanFrom, scanFrom]
      exact ⟨rfl, .rfl⟩
  | first :: rest =>
      rcases front : Piece.atFront first rest with ⟨piece, length⟩
      obtain ⟨tokens, faults⟩ := split_scanFrom_down lines
        (line + (first :: rest.take length).count '\n') (rest.drop length)
      rw [scanFrom_cons front, scanFrom_cons front, split_append, split_append, Nat.add_right_comm,
        tokens, List.map_append, List.append_eq_nil_iff, List.append_eq_nil_iff, faults]
      cases piece <;> exact ⟨rfl, by simp [split, Piece.items]⟩
termination_by source.length
decreasing_by simp only [List.length_drop, List.length_cons]; omega

theorem scanFrom_newline (line : Nat) (source more : List Char)
    (clean : (split (scanFrom line source)).2 = []) :
    ∃ tokens : List Token, (∀ token ∈ tokens, token.isEnding = false) ∧
      scanFrom line source = tokens.map .ok ++ [.ok (ending (line + source.count '\n'))] ∧
      scanFrom line (source ++ '\n' :: more) =
        tokens.map .ok ++ scanFrom (line + source.count '\n' + 1) more := by
  match source with
  | [] =>
      refine ⟨[], by simp, by simp [scanFrom], ?_⟩
      have front : Piece.atFront '\n' more = (.gap, 0) := rfl
      rw [List.nil_append, scanFrom_cons front]
      rfl
  | first :: rest =>
      rcases front : Piece.atFront first rest with ⟨piece, length⟩
      rw [scanFrom_cons front, split_append, List.append_eq_nil_iff] at clean
      have tame : ∀ fault, piece ≠ .fault fault := by
        rintro fault rfl
        simp [split, Piece.items] at clean
      have bound : length ≤ rest.length := by
        have within := Piece.atFront_length_le first rest
        rwa [front] at within
      have longer : Piece.atFront first (rest ++ '\n' :: more) = (piece, length) := by
        rw [Piece.atFront_newline (by rwa [front]), front]
      obtain ⟨tokens, words, scanned, joined⟩ := scanFrom_newline
        (line + (first :: rest.take length).count '\n') (rest.drop length) more clean.2
      have count : line + (first :: rest.take length).count '\n' + (rest.drop length).count '\n' =
          line + (first :: rest).count '\n' := by
        rw [Nat.add_assoc, ← List.count_append, List.cons_append, List.take_append_drop]
      rw [List.cons_append, scanFrom_cons front, scanFrom_cons longer,
        List.take_append_of_le_length bound, List.drop_append_of_le_length bound, joined, scanned,
        count, ← List.append_assoc, ← List.append_assoc]
      cases piece with
      | gap => exact ⟨tokens, words, rfl, rfl⟩
      | fault fault => exact (tame fault rfl).elim
      | token kind literal =>
          refine ⟨_ :: tokens, List.forall_mem_cons.mpr ⟨?_, words⟩, rfl, rfl⟩
          exact decide_eq_false (Piece.ne_eof_of_atFront front)
termination_by source.length
decreasing_by simp only [List.length_drop, List.length_cons]; omega

def ofSource (source : String) : List Token := (split (scan source)).1

theorem split_map_ok (tokens : List Token) :
    split (tokens.map .ok) = (tokens, []) := by
  induction tokens with
  | nil => rfl
  | cons token tokens ih =>
      simp only [split, Prod.mk.injEq] at ih
      simp [split, ih]

theorem words_append {tokens : List Token} (words : ∀ token ∈ tokens, token.isEnding = false)
    (others : List Token) : Parse.words (tokens ++ others) = tokens ++ Parse.words others := by
  apply List.takeWhile_append_of_pos
  intro token member
  simp [words token member]

theorem words_map_down (lines : Nat) (tokens : List Token) :
    Parse.words (tokens.map (down lines)) = (Parse.words tokens).map (down lines) := by
  rw [Parse.words, List.takeWhile_map]
  rfl

theorem down_down (lines more : Nat) (token : Token) :
    (token.down lines).down more = token.down (lines + more) := by
  simp only [down, Nat.add_assoc]

theorem down_ne {lines : Nat} (positive : 0 < lines) (token : Token) : token.down lines ≠ token := by
  intro same
  have line : token.line + lines = token.line := congrArg Token.line same
  omega

theorem down_injective (lines : Nat) : Function.Injective (down lines) := by
  rintro ⟨kind, lexeme, literal, line⟩ ⟨kind', lexeme', literal', line'⟩ same
  simpa only [down, mk.injEq, Nat.add_right_cancel_iff] using same

theorem map_down_down (lines more : Nat) (tokens : List Token) :
    (tokens.map (down lines)).map (down more) = tokens.map (down (lines + more)) := by
  simp only [List.map_map, Function.comp_def, down_down]

theorem words_joined {first : String} (clean : (split (scan first)).2 = []) (second : String) :
    Parse.words (ofSource (first ++ "\n" ++ second)) = Parse.words (ofSource first) ++
        (Parse.words (ofSource second)).map (down (first.toList.count '\n' + 1)) ∧
      ((split (scan (first ++ "\n" ++ second))).2 = [] ↔ (split (scan second)).2 = []) := by
  obtain ⟨tokens, words, scanned, joined⟩ :=
    scanFrom_newline 1 first.toList second.toList clean
  obtain ⟨moved, faults⟩ :=
    split_scanFrom_down (first.toList.count '\n' + 1) 1 second.toList
  have whole : scan (first ++ "\n" ++ second) =
      tokens.map .ok ++ scanFrom (1 + (first.toList.count '\n' + 1)) second.toList := by
    rw [← Nat.add_assoc, ← joined]
    simp [scan]
  have alone : Parse.words (ofSource first) = tokens := by
    rw [ofSource, scan, scanned, split_append, split_map_ok, words_append words]
    exact List.append_nil tokens
  rw [alone, ofSource, whole, split_append, split_map_ok]
  refine ⟨?_, faults⟩
  rw [words_append words, moved, words_map_down]
  rfl

def newlines (count : Nat) : String := String.ofList (List.replicate count '\n')

theorem words_below {first : String} (clean : (split (scan first)).2 = []) (gap : Nat)
    (second : String) :
    Parse.words (ofSource (first ++ newlines (gap + 1) ++ second)) = Parse.words (ofSource first) ++
        (Parse.words (ofSource second)).map (down (first.toList.count '\n' + 1 + gap)) ∧
      ((split (scan (first ++ newlines (gap + 1) ++ second))).2 = [] ↔
        (split (scan second)).2 = []) := by
  induction gap generalizing second with
  | zero => exact words_joined clean second
  | succ gap ih =>
      have longer : first ++ newlines (gap + 1 + 1) ++ second =
          first ++ newlines (gap + 1) ++ ("" ++ "\n" ++ second) := by
        rw [← String.toList_inj]
        simp [newlines, List.replicate_succ' (n := gap + 1)]
      have blank : Parse.words (ofSource "") = [] := by cbv
      have scanned : (split (scan "")).2 = [] := by cbv
      obtain ⟨words, faults⟩ := ih ("" ++ "\n" ++ second)
      obtain ⟨words', faults'⟩ := words_joined scanned second
      rw [longer, words, words', blank]
      have lines : "".toList.count '\n' + 1 + (first.toList.count '\n' + 1 + gap) =
          first.toList.count '\n' + 1 + (gap + 1) := by
        simp only [String.toList_empty, List.count_nil]
        omega
      rw [List.nil_append, map_down_down, lines]
      exact ⟨rfl, faults.trans faults'⟩

end Token

end Lox
