import Mathlib
import Lox.Value
import Lox.Proofs.Number.Shortest
import Lox.Proofs.Token.Rescan

/-!
Numbers as texts. Digits with a point among them spell a quotient, and are scanned as the number to which
that quotient is rounded. The texts of a finite number, behind its sign, spell quotients that are rounded
to its magnitude, so a text tells the number; and for a whole number below `10 ^ 15` the digits of the
integer are those of the shortest decimal.
-/

namespace Lox

open Piece (pointed)

/-- The text has digits and, behind a point, others or none, and stands for the quotient. -/
def Numeral (text : List Char) (quotient : ℚ) : Prop :=
  ∃ whole fraction, whole ≠ [] ∧ (∀ character ∈ whole ++ fraction, Digit character) ∧
    text = whole ++ pointed fraction ∧
    quotient = Nat.ofDigitChars 10 (whole ++ fraction) 0 / 10 ^ fraction.length

/-- The text is scanned as this number and nothing else. -/
def Number.ScannedFrom (number : Number) (text : List Char) : Prop :=
  Token.scan (String.ofList text) =
    [.ok ⟨.number, String.ofList text, some (.number number), 1⟩, .ok (Token.ending 1)]

theorem Number.ScannedFrom.unique {number other : Number} {text : List Char}
    (scanned : number.ScannedFrom text) (scanned' : other.ScannedFrom text) : number = other := by
  have same := scanned.symm.trans scanned'
  simpa using same

theorem Piece.atFront_digit {first : Char} (isDigit : Digit first) (rest : List Char) :
    atFront first rest = number first rest := by
  unfold atFront
  split
  case h_23 => rw [if_pos (isDigit_iff.mpr isDigit)]
  all_goals exact absurd isDigit (by decide)

namespace Numeral

variable {text : List Char} {quotient : ℚ}

theorem of_lexeme (lexeme : Lexeme .number text) : ∃ quotient, Numeral text quotient := by
  have others : ∀ entry ∈ operators ++ keywords, entry.2 ≠ .number := by decide
  cases lexeme with
  | operator member => exact absurd rfl (others _ (List.mem_append_left _ member))
  | whole some digits =>
      exact ⟨_, text, [], some, by rwa [List.append_nil], by rw [pointed]; simp, rfl⟩
  | @decimal whole fraction some digits some' decimal =>
      refine ⟨_, whole, fraction, some, List.forall_mem_append.mpr ⟨digits, decimal⟩, ?_, rfl⟩
      rw [pointed, if_neg (by simpa using some')]
  | keyword member => exact absurd rfl (others _ (List.mem_append_right _ member))

theorem count_newline (numeral : Numeral text quotient) : text.count '\n' = 0 := by
  obtain ⟨whole, fraction, -, all, rfl, -⟩ := numeral
  have inner : '\n' ∉ whole ++ fraction := fun member => absurd (all _ member) (by decide)
  rw [List.mem_append, not_or] at inner
  refine List.count_eq_zero.mpr fun member => ?_
  rcases List.mem_append.mp member with member | member
  · exact inner.1 member
  · unfold pointed at member
    split at member
    · cases member
    · exact inner.2 ((List.mem_cons.mp member).resolve_left (by decide))

theorem lexeme (numeral : Numeral text quotient) : Lexeme .number text := by
  obtain ⟨whole, fraction, some, all, rfl, -⟩ := numeral
  obtain ⟨digits, decimal⟩ := List.forall_mem_append.mp all
  cases fraction with
  | nil => simpa [pointed] using Lexeme.whole some digits
  | cons first others => exact .decimal some digits (List.cons_ne_nil _ _) decimal

theorem digit_of_head (numeral : Numeral text quotient) : ∀ first ∈ text.head?, Digit first := by
  obtain ⟨whole, fraction, some, all, rfl, -⟩ := numeral
  obtain ⟨first, whole, rfl⟩ := List.exists_cons_of_ne_nil some
  rintro _ ⟨⟩
  exact all _ List.mem_cons_self

theorem scannedFrom (numeral : Numeral text quotient) :
    ∃ numerator denominator : Nat, 0 < denominator ∧ quotient = numerator / denominator ∧
      (Number.nearest numerator denominator).ScannedFrom text := by
  have oneLine := numeral.count_newline
  obtain ⟨whole, fraction, some, all, rfl, rfl⟩ := numeral
  obtain ⟨first, whole, rfl⟩ := List.exists_cons_of_ne_nil some
  obtain ⟨digits, decimal⟩ := List.forall_mem_append.mp all
  obtain ⟨isDigit, digits⟩ := List.forall_mem_cons.mp digits
  refine ⟨_, 10 ^ fraction.length, by positivity, by push_cast; rfl, ?_⟩
  have front := (Piece.atFront_digit isDigit _).trans
    (Piece.number_pointed delimited_nil digits decimal)
  rw [← Piece.length_pointed, ← List.length_append, List.append_nil] at front
  rw [List.cons_append] at oneLine
  rw [Number.ScannedFrom, Token.scan, String.toList_ofList, List.cons_append, Token.scanFrom_cons front,
    List.take_length, List.drop_length, oneLine, Token.scanFrom]
  rfl

theorem scannedFrom_iff (numeral : Numeral text quotient) {number : Number} (finite : number.isFinite) :
    number.abs.ScannedFrom text ↔ Pattern.Rounds quotient number.pattern := by
  obtain ⟨numerator, denominator, positive, rfl, scanned⟩ := numeral.scannedFrom
  rw [← Number.nearest_eq_abs_iff positive finite]
  exact ⟨scanned.unique, fun same => same ▸ scanned⟩

end Numeral

namespace Decimal

theorem digit_of_mem_toDigits {digits : Nat} : ∀ character ∈ Nat.toDigits 10 digits, Digit character :=
  fun _ member => isDigit_iff.mp (Nat.isDigit_of_mem_toDigits (by decide) (by decide) member)

theorem digit_of_mem_zeros (count : Nat) : ∀ character ∈ List.replicate count '0', Digit character :=
  fun _ member => List.eq_of_mem_replicate member ▸ by decide

theorem numeral_positional (decimal : Decimal) : Numeral decimal.positional decimal.value := by
  obtain ⟨digits, exponent⟩ := decimal
  have read : Nat.ofDigitChars 10 (Nat.toDigits 10 digits) 0 = digits :=
    Nat.ofDigitChars_toDigits (by decide) (by decide)
  have present : Nat.toDigits 10 digits ≠ [] := Nat.toDigits_ne_nil
  have all : ∀ character ∈ Nat.toDigits 10 digits, Digit character := digit_of_mem_toDigits
  unfold positional pointPosition digitText value
  dsimp only
  generalize Nat.toDigits 10 digits = text at read present all
  cases exponent with
  | ofNat zeros =>
      refine ⟨text ++ List.replicate zeros '0', [], by simp [present], ?_, by simp [pointed], ?_⟩
      · rw [List.append_nil]
        exact List.forall_mem_append.mpr ⟨all, digit_of_mem_zeros _⟩
      · rw [List.append_nil, Nat.ofDigitChars_append, read, Nat.ofDigitChars_replicate_zero]
        simp [mul_comm]
  | negSucc places =>
      dsimp only
      have value_eq : (digits : ℚ) * 10 ^ Int.negSucc places = digits / 10 ^ (places + 1) := by
        rw [zpow_negSucc, div_eq_mul_inv]
      rw [value_eq]
      split
      · rename_i point position
        simp only [Int.negSucc_eq, Int.ofNat_eq_natCast] at position
        have size : (text.drop (point + 1)).length = places + 1 := by
          rw [List.length_drop]
          omega
        have behind : text.drop (point + 1) ≠ [] := List.length_pos_iff.mp (by omega)
        refine ⟨text.take (point + 1), text.drop (point + 1), by simpa using present, ?_, ?_, ?_⟩
        · rwa [List.take_append_drop]
        · rw [pointed, if_neg (by simpa using behind)]
        · rw [List.take_append_drop, read, size]
      · rename_i outside
        simp only [Int.negSucc_eq, Int.ofNat_eq_natCast] at outside ⊢
        have size : ((text.length : Int) + -(places + 1)).natAbs + text.length = places + 1 := by
          have below : ¬ 0 < (text.length : Int) + -(places + 1) := fun above =>
            outside ((text.length : Int) + -(places + 1) - 1).toNat (by omega)
          omega
        generalize ((text.length : Int) + -(places + 1)).natAbs = zeros at size
        refine ⟨['0'], List.replicate zeros '0' ++ text, List.cons_ne_nil _ _, ?_, ?_, ?_⟩
        · rw [List.singleton_append]
          exact List.forall_mem_cons.mpr
            ⟨by decide, List.forall_mem_append.mpr ⟨digit_of_mem_zeros _, all⟩⟩
        · rw [pointed, if_neg (by simp [present])]
          rfl
        · rw [List.length_append, List.length_replicate, size, List.singleton_append,
            Nat.ofDigitChars_cons, Nat.ofDigitChars_append, Nat.ofDigitChars_replicate_zero]
          simpa using congrArg (fun digits : Nat => (digits : ℚ) / 10 ^ (places + 1)) read.symm

end Decimal

namespace Number

variable {number : Number}

theorem whole?_eq_some_iff {magnitude : Nat} :
    number.whole? = some magnitude ↔
      number.isFinite ∧ Pattern.value number.pattern = magnitude := by
  unfold whole?
  rw [value_pattern]
  split
  · rename_i finite
    split
    · rename_i power exponent_eq
      rw [exponent_eq, Option.some_inj]
      simp only [finite, true_and, Int.ofNat_eq_natCast, zpow_natCast, Nat.pow_eq]
      exact_mod_cast Iff.rfl
    · rename_i power exponent_eq
      have scale : (2 : ℚ) ^ (power + 1) ≠ 0 := by positivity
      rw [exponent_eq, zpow_negSucc, ← div_eq_mul_inv, div_eq_iff scale]
      have positive : 0 < 2 ^ (power + 1) := by positivity
      have natural : (number.significand : ℚ) = magnitude * 2 ^ (power + 1) ↔
          number.significand = magnitude * 2 ^ (power + 1) := by exact_mod_cast Iff.rfl
      simp only [finite, true_and, natural, Nat.pow_eq]
      split
      · rename_i divides
        rw [Option.some_inj, Nat.div_eq_iff_eq_mul_left positive (Nat.dvd_of_mod_eq_zero divides)]
      · rename_i fractional
        refine ⟨fun none => absurd none (Option.some_ne_none _).symm, fun same => absurd ?_ fractional⟩
        rw [same, Nat.mul_mod_left]
  · rename_i infinite
    simp [infinite]

/-- Behind the sign of the number, the text spells a quotient that is rounded to its magnitude. -/
def Shows (number : Number) (text : List Char) : Prop :=
  ∃ body quotient, text = number.signText ++ body ∧ Numeral body quotient ∧
    Pattern.Rounds quotient number.pattern

theorem shortestText_of_finite (finite : number.isFinite) :
    number.shortestText = number.signText ++
      if number.significand = 0 then ['0'] else (number.shortest .upper).positional := by
  have notNaN : number.isNaN = false := by
    simp only [isFinite, decide_eq_true_eq] at finite
    simp [isNaN, finite.ne]
  rw [shortestText, if_neg (by simp [notNaN]), if_neg (by simp [finite]), ← apply_ite]

theorem shows_shortestText (finite : number.isFinite) : number.Shows number.shortestText := by
  rw [shortestText_of_finite finite]
  split
  · rename_i zero
    have numeral : Numeral ['0'] 0 :=
      ⟨['0'], [], List.cons_ne_nil _ _, Decimal.digit_of_mem_zeros 1, rfl,
        by simp [Nat.ofDigitChars_cons]⟩
    refine ⟨['0'], 0, rfl, numeral, ?_⟩
    rw [significand_eq_zero_iff.mp zero]
    exact .zero (Pattern.half_pos 0).le
  · rename_i nonzero
    exact ⟨_, _, rfl, Decimal.numeral_positional _, rounds_shortest nonzero .upper⟩

theorem shows_literalText (finite : number.isFinite) : number.Shows number.literalText := by
  unfold literalText
  split
  · rename_i magnitude whole
    refine ⟨Nat.toDigits 10 magnitude ++ ['.', '0'], magnitude, List.append_assoc _ _ _,
      ⟨Nat.toDigits 10 magnitude, ['0'], Nat.toDigits_ne_nil, ?_, rfl, ?_⟩, ?_⟩
    · exact List.forall_mem_append.mpr
        ⟨Decimal.digit_of_mem_toDigits, Decimal.digit_of_mem_zeros 1⟩
    · rw [Nat.ofDigitChars_append, Nat.ofDigitChars_toDigits (by decide) (by decide)]
      simp [Nat.ofDigitChars_cons]
    · rw [← (whole?_eq_some_iff.mp whole).2]
      exact .self _
  · exact shows_shortestText finite

theorem toDigits_mul_pow {digits : Nat} (positive : 0 < digits) (zeros : Nat) :
    Nat.toDigits 10 (digits * 10 ^ zeros) = Nat.toDigits 10 digits ++ List.replicate zeros '0' := by
  induction zeros with
  | zero => simp
  | succ zeros ih =>
      have next := Nat.toDigits_append_toDigits (b := 10) (n := digits * 10 ^ zeros) (d := 0)
        (by decide) (by positivity) (by decide)
      rw [show digits * 10 ^ (zeros + 1) = 10 * (digits * 10 ^ zeros) + 0 by ring, ← next, ih,
        List.replicate_succ', List.append_assoc]
      rfl

theorem positional_shortest_of_whole {magnitude : Nat} (positive : 0 < magnitude)
    (small : magnitude < 10 ^ 15) (whole : Pattern.value number.pattern = magnitude) :
    (number.shortest .upper).positional = Nat.toDigits 10 magnitude := by
  obtain ⟨nonneg, value_eq⟩ := shortest_of_whole .upper positive (small.trans (by decide)) whole
  generalize number.shortest .upper = decimal at nonneg value_eq
  obtain ⟨digits, exponent⟩ := decimal
  obtain ⟨zeros, rfl⟩ := Int.eq_ofNat_of_zero_le nonneg
  have same : digits * 10 ^ zeros = magnitude := by
    rw [Decimal.value, zpow_natCast] at value_eq
    exact_mod_cast value_eq
  have digits_pos : 0 < digits := by
    rw [← same] at positive
    exact Nat.pos_of_mul_pos_right positive
  rw [← same, toDigits_mul_pow digits_pos]
  rfl

theorem displayText_eq (number : Number) : number.displayText = number.shortestText := by
  unfold displayText
  split
  · rename_i magnitude found
    split
    · rename_i small
      obtain ⟨finite, whole⟩ := whole?_eq_some_iff.mp found
      rw [shortestText_of_finite finite]
      split
      · rename_i zero
        rw [value_pattern, zero, Nat.cast_zero, zero_mul] at whole
        obtain rfl : magnitude = 0 := by exact_mod_cast whole.symm
        rfl
      · rename_i nonzero
        have positive : 0 < magnitude := by
          have value_pos := value_pos nonzero
          rw [whole] at value_pos
          exact_mod_cast value_pos
        rw [positional_shortest_of_whole positive (of_decide_eq_true small) whole]
    · rfl
  · rfl

theorem Shows.unique {other : Number} {text : List Char} (shows : number.Shows text)
    (shows' : other.Shows text) (finite : number.isFinite) (finite' : other.isFinite) :
    number = other := by
  obtain ⟨body, quotient, rfl, numeral, rounds⟩ := shows
  obtain ⟨body', quotient', same, numeral', rounds'⟩ := shows'
  obtain ⟨sign, rfl⟩ : number.isNegative = other.isNegative ∧ body = body' := by
    have digit := numeral.digit_of_head
    have digit' := numeral'.digit_of_head
    unfold signText at same
    revert same
    cases number.isNegative <;> cases other.isNegative <;> intro same
    · exact ⟨rfl, same⟩
    · obtain rfl : body = '-' :: body' := same
      exact absurd (digit _ rfl) (by decide)
    · obtain rfl : body' = '-' :: body := same.symm
      exact absurd (digit' _ rfl) (by decide)
    · exact ⟨rfl, List.tail_eq_of_cons_eq same⟩
  have scanned := (numeral.scannedFrom_iff finite).mpr rounds
  have scanned' := (numeral'.scannedFrom_iff finite').mpr rounds'
  refine ext_sign sign ?_
  rw [← pattern_abs, scanned.unique scanned', pattern_abs]

def toInt64 (number : Number) : Int64 :=
  .ofIntClamp (if number.isNegative then -(number.gridFloor 0 : Int) else number.gridFloor 0)

/-- The text of a small whole number through the integer, which has no negative zero. -/
def integerText (number : Number) : String :=
  if number.significand = 0 ∧ number.isNegative then "-0" else toString number.toInt64

theorem display_eq_integerText {magnitude : Nat} (finite : number.isFinite)
    (whole : Pattern.value number.pattern = magnitude) (small : magnitude < 10 ^ 15) :
    number.display = number.integerText := by
  have found := whole?_eq_some_iff.mpr ⟨finite, whole⟩
  have display_eq : number.display = String.ofList (number.signText ++ Nat.toDigits 10 magnitude) := by
    have short : isShortWhole magnitude = true := decide_eq_true small
    simp only [display, displayText, found, short, if_true]
  have floor_eq : number.gridFloor 0 = magnitude := by
    obtain ⟨above, below⟩ := number.gridFloor_spec 0
    rw [zpow_zero, mul_one, whole] at above below
    have le : number.gridFloor 0 ≤ magnitude := by exact_mod_cast above
    have lt : magnitude < number.gridFloor 0 + 1 := by exact_mod_cast below
    omega
  have toInt64_eq (whole : Int) (within : whole.natAbs < 10 ^ 15) :
      toString (Int64.ofIntClamp whole) = toString whole := by
    show toString (Int64.ofIntClamp whole).toInt = _
    rw [Int64.toInt_ofIntClamp]
    · change -9223372036854775808 ≤ whole
      omega
    · change whole ≤ 9223372036854775807
      omega
  rw [display_eq, integerText, toInt64, signText, floor_eq]
  cases number.isNegative with
  | false =>
      rw [if_neg (by simp), if_neg (by simp), if_neg (by simp), toInt64_eq _ (by simpa using small)]
      rfl
  | true =>
      rw [if_pos rfl, if_pos rfl]
      cases magnitude with
      | zero =>
          have zero : number.significand = 0 := by
            rw [value_pattern, Nat.cast_zero] at whole
            simpa [(Pattern.two_zpow_pos _).ne'] using whole
          rw [if_pos ⟨zero, rfl⟩]
          rfl
      | succ less =>
          have nonzero : number.significand ≠ 0 := by
            intro zero
            rw [value_pattern, zero, Nat.cast_zero, zero_mul] at whole
            exact absurd whole.symm (Nat.cast_ne_zero.mpr (Nat.succ_ne_zero less))
          rw [if_neg (by simp [nonzero]), toInt64_eq _ (by omega), String.ofList_append]
          show _ = "-" ++ (less + 1).repr
          rw [Nat.repr_eq_ofList_toDigits]

end Number

/-- Digits, with a fraction or without, are scanned as one number, to which the quotient that they spell
is rounded. If it is finite, the text of the literal is again a lexeme of a number, and is scanned as the
number with the same bits. -/
theorem number_literals_are_rescanned (text : String) (lexeme : Lexeme .number text.toList) :
    ∃ (number : Number) (quotient : ℚ), Numeral text.toList quotient ∧ number.isNegative = false ∧
      (∀ other : Number, other.isFinite →
        (number = other.abs ↔ Pattern.Rounds quotient other.pattern)) ∧
      Token.scan text = [.ok ⟨.number, text, some (.number number), 1⟩, .ok (Token.ending 1)] ∧
      (number.isFinite → Lexeme .number (Literal.number number).text.toList ∧
        Token.scan (Literal.number number).text =
          [.ok ⟨.number, (Literal.number number).text, some (.number number), 1⟩,
            .ok (Token.ending 1)]) := by
  obtain ⟨quotient, numeral⟩ := Numeral.of_lexeme lexeme
  obtain ⟨numerator, denominator, divides, rfl, scanned⟩ := numeral.scannedFrom
  rw [Number.ScannedFrom, String.ofList_toList] at scanned
  have positive := Number.isNegative_nearest numerator denominator
  refine ⟨_, _, numeral, positive, fun other => Number.nearest_eq_abs_iff divides, scanned,
    fun finite => ?_⟩
  obtain ⟨body, _, shown, numeral, rounds⟩ := Number.shows_literalText finite
  have scanned' := (numeral.scannedFrom_iff finite).mpr rounds
  rw [Number.signText, positive, if_neg Bool.false_ne_true, List.nil_append] at shown
  rw [Number.abs_eq_self positive, ← shown] at scanned'
  refine ⟨?_, scanned'⟩
  rw [Literal.text, Number.literal, String.toList_ofList, shown]
  exact numeral.lexeme

theorem number_literals_are_rescanned_of_tenth :
    Lexeme .number "0.1".toList ∧ ∃ (number : Number) (quotient : ℚ), number.isFinite ∧
      Numeral "0.1".toList quotient ∧ Pattern.Rounds quotient number.pattern ∧
      Token.scan "0.1" = [.ok ⟨.number, "0.1", some (.number number), 1⟩, .ok (Token.ending 1)] ∧
      Token.scan (Literal.number number).text =
        [.ok ⟨.number, (Literal.number number).text, some (.number number), 1⟩,
          .ok (Token.ending 1)] := by
  have lexeme : Lexeme .number "0.1".toList :=
    Numeral.lexeme ⟨['0'], ['1'], List.cons_ne_nil _ _, by simp [Digit], rfl, rfl⟩
  obtain ⟨number, quotient, numeral, -, rounds, scanned, rescanned⟩ :=
    number_literals_are_rescanned "0.1" lexeme
  have read : Token.scan "0.1" =
      [.ok ⟨.number, "0.1", some (.number ⟨0x3FB999999999999A⟩), 1⟩, .ok (Token.ending 1)] := by
    decide +kernel
  obtain rfl : number = ⟨0x3FB999999999999A⟩ := by
    have same := scanned.symm.trans read
    simpa using same
  have finite : (⟨0x3FB999999999999A⟩ : Number).isFinite := by decide
  exact ⟨lexeme, _, quotient, finite, numeral, (rounds _ finite).mp (by decide), scanned,
    (rescanned finite).2⟩

/-- A number is shown by the fewest digits that are scanned as its magnitude, written out without a power
of ten. -/
def Number.ShownShortest (number : Number) (text : List Char) : Prop :=
  ∃ decimal : Decimal, text = number.signText ++ decimal.positional ∧
    number.abs.ScannedFrom decimal.positional ∧
    ∀ other : Decimal, number.abs.ScannedFrom other.positional →
      decimal.digitText.length ≤ other.digitText.length

theorem Number.shownShortest {number : Number} (finite : number.isFinite) :
    number.ShownShortest number.shortestText := by
  rw [shortestText_of_finite finite]
  have scanned_iff (decimal : Decimal) := decimal.numeral_positional.scannedFrom_iff finite
  split
  · rename_i zero
    refine ⟨⟨0, 0⟩, rfl, (scanned_iff _).mpr ?_, fun other _ => ?_⟩
    · rw [significand_eq_zero_iff.mp zero]
      exact .zero (by simpa [Decimal.value] using (Pattern.half_pos 0).le)
    · exact List.length_pos_iff.mpr Nat.toDigits_ne_nil
  · rename_i nonzero
    exact ⟨_, rfl, (scanned_iff _).mpr (rounds_shortest nonzero .upper), fun other scanned =>
      length_shortest_le nonzero .upper ((scanned_iff other).mp scanned)⟩

/-- The text of a small whole number through the integer is that of its shortest decimal, so all numbers
are shown by their shortest decimals, and two finite numbers with one text are the same. -/
theorem integer_texts_are_shortest :
    (∀ (number : Number) (magnitude : Nat), number.isFinite →
      Pattern.value number.pattern = magnitude → magnitude < 10 ^ 15 →
      (Value.number number).text = number.integerText ∧
        number.integerText.toList = number.shortestText) ∧
      (∀ number : Number, (Value.number number).text.toList = number.shortestText) ∧
      (∀ number : Number, number.isFinite → number.ShownShortest (Value.number number).text.toList) ∧
      ∀ number other : Number, number.isFinite → other.isFinite →
        (Value.number number).text = (Value.number other).text → number = other := by
  have shown (number : Number) : (Value.number number).text.toList = number.shortestText := by
    rw [Value.text, Number.display, String.toList_ofList, Number.displayText_eq]
  refine ⟨fun number magnitude finite whole small => ?_, shown, fun number finite => ?_,
    fun number other finite finite' same => ?_⟩
  · have fast : (Value.number number).text = number.integerText :=
      Number.display_eq_integerText finite whole small
    exact ⟨fast, fast ▸ shown number⟩
  · rw [shown]
    exact Number.shownShortest finite
  · have shows := Number.shows_shortestText finite
    rw [← shown, same, shown] at shows
    exact shows.unique (Number.shows_shortestText finite') finite finite'

theorem integer_texts_are_shortest_of_negative_zero :
    let zero : Number := ⟨0x8000000000000000⟩
    zero.isFinite ∧ Pattern.value zero.pattern = (0 : Nat) ∧
      (Value.number zero).text = zero.integerText ∧ zero.integerText = "-0" ∧
      zero.integerText.toList = zero.shortestText ∧
      zero.ShownShortest (Value.number zero).text.toList ∧
      ∀ other : Number, other.isFinite → (Value.number other).text = "-0" → other = zero := by
  intro zero
  have finite : zero.isFinite := by decide
  have whole : Pattern.value zero.pattern = (0 : Nat) := by
    have none : zero.significand = 0 := by decide
    rw [Number.value_pattern, none, Nat.cast_zero, zero_mul]
  obtain ⟨integers, -, shortest, injective⟩ := integer_texts_are_shortest
  obtain ⟨fast, same⟩ := integers zero 0 finite whole (by decide)
  have text : zero.integerText = "-0" := by decide
  refine ⟨finite, whole, fast, text, same, shortest zero finite, fun other finite' shown => ?_⟩
  exact injective other zero finite' finite (shown.trans (fast.trans text).symm)

end Lox
