import Mathlib
import Lox.Number.Text
import Lox.Proofs.Number.Rounding

/-!
The shortest decimal. The grid points around a number are the ones to try, because the decimals that are
read as the number lie around it without a gap; on the grid of seventeen digits one of them is near
enough. Hence the search finds a decimal that is read as the number, and no decimal of fewer digits is.
-/

namespace Lox

namespace Decimal

def value (decimal : Decimal) : ℚ := decimal.digits * 10 ^ decimal.exponent

theorem ten_zpow_pos (power : Int) : (0 : ℚ) < 10 ^ power := zpow_pos (by norm_num) power

theorem ten_zpow_mono {low high : Int} (le : low ≤ high) : (10 : ℚ) ^ low ≤ 10 ^ high :=
  zpow_le_zpow_right₀ (by norm_num) le

theorem ten_zpow_add (low high : Int) : (10 : ℚ) ^ (low + high) = 10 ^ low * 10 ^ high :=
  zpow_add₀ (by norm_num) low high

theorem value_normalize (decimal : Decimal) : decimal.normalize.value = decimal.value := by
  fun_induction normalize decimal with
  | case1 decimal zero ih =>
      have digits_eq : decimal.digits = decimal.digits / 10 * 10 := by omega
      rw [ih, value, value, ten_zpow_add, zpow_one]
      nth_rewrite 2 [digits_eq]
      push_cast
      ring
  | case2 => rfl

theorem exponent_le_normalize (decimal : Decimal) :
    decimal.exponent ≤ decimal.normalize.exponent := by
  fun_induction normalize decimal with
  | case1 decimal zero ih => exact (Int.le_add_one le_rfl).trans ih
  | case2 => exact le_rfl

theorem digits_normalize_le (decimal : Decimal) : decimal.normalize.digits ≤ decimal.digits := by
  fun_induction normalize decimal with
  | case1 decimal zero ih => exact ih.trans (Nat.div_le_self _ _)
  | case2 => exact le_rfl

theorem digits_normalize_lt {decimal : Decimal} {count : Nat} (some : 0 < count)
    (few : decimal.digits ≤ 10 ^ count) : decimal.normalize.digits < 10 ^ count := by
  rcases few.lt_or_eq with less | full
  · exact (digits_normalize_le decimal).trans_lt less
  · have next : 10 ^ count = 10 * 10 ^ (count - 1) := by
      rw [← Nat.pow_succ', Nat.succ_eq_add_one, Nat.sub_add_cancel some]
    have positive : 0 < 10 ^ (count - 1) := by positivity
    have zero : decimal.digits ≠ 0 ∧ decimal.digits % 10 = 0 := by omega
    rw [normalize, if_pos zero]
    refine (digits_normalize_le _).trans_lt ?_
    dsimp only
    omega

end Decimal

namespace Number

open Decimal (ten_zpow_pos ten_zpow_mono ten_zpow_add)

variable {number : Number}

theorem gridFloor_spec (number : Number) (power : Int) :
    number.gridFloor power * (10 : ℚ) ^ power ≤ Pattern.value number.pattern ∧
      Pattern.value number.pattern < (number.gridFloor power + 1) * (10 : ℚ) ^ power := by
  have scale := ten_zpow_pos power
  have floor_eq : number.gridFloor power = ⌊Pattern.value number.pattern / (10 : ℚ) ^ power⌋₊ := by
    rw [gridFloor, ← Nat.floor_div_eq_div (K := ℚ), value_pattern, ← Nat.cast_ofNat (R := ℚ),
      ← raise_div 2 two_pos, ← Nat.cast_ofNat (R := ℚ), ← raise_div 10 (by decide)]
    push_cast
    congr 1
    field_simp
  have nonneg : 0 ≤ Pattern.value number.pattern / (10 : ℚ) ^ power := by
    rw [value_pattern]
    positivity
  rw [floor_eq, ← le_div_iff₀ scale, ← div_lt_iff₀ scale]
  exact ⟨Nat.floor_le nonneg, Nat.lt_floor_add_one _⟩

theorem value_pos (nonzero : number.significand ≠ 0) : 0 < Pattern.value number.pattern := by
  rw [value_pattern]
  exact mul_pos (Nat.cast_pos.mpr (Nat.pos_of_ne_zero nonzero)) (Pattern.two_zpow_pos _)

theorem half_pattern {previous : Nat} (pattern_eq : number.pattern = previous + 1) :
    Pattern.half previous =
        (4 * number.significand - number.lowerMargin : Nat) * 2 ^ (number.exponent - 2) ∧
      Pattern.half (previous + 1) = (4 * number.significand + 2 : Nat) * 2 ^ (number.exponent - 2) := by
  have nonzero : number.significand ≠ 0 := by
    rw [Ne, significand_eq_zero_iff]
    omega
  have value_eq := value_pattern number
  have quarters : (2 : ℚ) ^ number.exponent = 4 * 2 ^ (number.exponent - 2) := by
    rw [zpow_sub₀ two_ne_zero]
    norm_num
    ring
  have finer : (2 : ℚ) ^ Pattern.unit previous = 2 * number.lowerMargin * 2 ^ (number.exponent - 2) := by
    have unit_eq : Pattern.unit previous =
        number.exponent - if number.lowerMargin = 1 then 1 else 0 := by
      simp only [lowerMargin, exponent_eq, Pattern.unit, fractionField_eq, exponentField_eq,
        pattern_eq]
      split <;> simp only [if_true, OfNat.ofNat_ne_one, if_false] <;> omega
    rw [unit_eq]
    unfold lowerMargin
    split
    · rw [if_pos rfl, show number.exponent - 1 = number.exponent - 2 + 1 by ring,
        zpow_add_one₀ two_ne_zero]
      push_cast
      ring
    · rw [if_neg (by decide), sub_zero, quarters]
      push_cast
      ring
  have margin : number.lowerMargin ≤ 4 * number.significand := by
    unfold lowerMargin
    split <;> omega
  rw [Pattern.half_succ_eq, Pattern.half_eq, ← pattern_eq, ← exponent_eq, value_eq, finer, quarters,
    Nat.cast_sub margin]
  constructor
  · push_cast
    ring
  · push_cast
    ring

theorem readsBack_iff (nonzero : number.significand ≠ 0) (decimal : Decimal) :
    number.readsBack decimal ↔ Pattern.Rounds decimal.value number.pattern := by
  obtain ⟨previous, pattern_eq⟩ := Nat.exists_eq_succ_of_ne_zero
    (significand_eq_zero_iff.not.mp nonzero)
  obtain ⟨lower_eq, upper_eq⟩ := half_pattern pattern_eq
  have parity : number.significand % 2 = 0 ↔ Even (previous + 1) := by
    rw [Nat.even_iff, ← Nat.succ_eq_add_one, ← pattern_eq, significand_eq, Pattern.steps]
    split <;> omega
  rw [pattern_eq, Pattern.Rounds.succ_iff, lower_eq, upper_eq]
  unfold readsBack
  extract_lets unit position scale lower upper
  -- all is compared over the product of the denominators
  generalize common_eq : (raise 10 (-decimal.exponent) * raise 2 (-unit) : ℚ) = common
  have common_pos : 0 < common := by
    rw [← common_eq]
    exact_mod_cast Nat.mul_pos (raise_pos 10 (by decide) _) (raise_pos 2 two_pos _)
  have value_eq : decimal.value = position / common := by
    have ten := zpow_mul_raise 10 (by decide) decimal.exponent
    push_cast at ten
    rw [eq_div_iff common_pos.ne', Decimal.value, Nat.cast_mul, Nat.cast_mul, ← ten, ← common_eq]
    ring
  have bound_eq (quarters : Nat) :
      quarters * (2 : ℚ) ^ (number.exponent - 2) = (quarters * scale : Nat) / common := by
    have two := zpow_mul_raise 2 two_pos unit
    push_cast at two
    rw [eq_div_iff common_pos.ne', Nat.cast_mul, Nat.cast_mul, ← two, ← common_eq]
    ring
  rw [value_eq, bound_eq, bound_eq]
  simp only [div_le_div_iff_of_pos_right common_pos, div_lt_div_iff_of_pos_right common_pos,
    Nat.cast_le, Nat.cast_lt, ← parity]
  split <;> rw [Bool.and_eq_true, decide_eq_true_iff, decide_eq_true_iff]

theorem onGrid?_cases (tie : Decimal.Tie) (number : Number) (power : Int) :
    (number.readsBack ⟨number.gridFloor power, power⟩ = false ∧
        number.readsBack ⟨number.gridFloor power + 1, power⟩ = false ∧
        number.onGrid? tie power = none) ∨
      ∃ digits ≤ number.gridFloor power + 1, number.readsBack ⟨digits, power⟩ ∧
        number.onGrid? tie power = some ⟨digits, power⟩ := by
  unfold onGrid?
  extract_lets index below above
  cases reads : number.readsBack below with
  | false =>
      cases reads' : number.readsBack above with
      | false => exact .inl ⟨rfl, rfl, rfl⟩
      | true => exact .inr ⟨index + 1, le_rfl, reads', rfl⟩
  | true =>
      cases reads' : number.readsBack above with
      | false => exact .inr ⟨index, Nat.le_succ _, reads, rfl⟩
      | true =>
          have lower : ∃ digits ≤ index + 1, number.readsBack ⟨digits, power⟩ ∧
              some below = some ⟨digits, power⟩ := ⟨index, Nat.le_succ _, reads, rfl⟩
          have upper : ∃ digits ≤ index + 1, number.readsBack ⟨digits, power⟩ ∧
              some above = some ⟨digits, power⟩ := ⟨index + 1, le_rfl, reads', rfl⟩
          refine .inr ?_
          dsimp only
          rcases number.nearerBelow? index power with _ | _ | _
          · cases tie with
            | upper => exact upper
            | even =>
                dsimp only
                split
                · exact lower
                · exact upper
          · exact upper
          · exact lower

theorem exists_onGrid? (nonzero : number.significand ≠ 0) (tie : Decimal.Tie) {power : Int}
    {index : Nat} (rounds : Pattern.Rounds (index * 10 ^ power) number.pattern) :
    ∃ digits, number.onGrid? tie power = some ⟨digits, power⟩ := by
  rcases onGrid?_cases tie number power with ⟨missed, missed', -⟩ | ⟨digits, -, -, found⟩
  · obtain ⟨above, below⟩ := number.gridFloor_spec power
    have scale := ten_zpow_pos power
    rw [Bool.eq_false_iff, Ne, readsBack_iff nonzero] at missed missed'
    have self := Pattern.Rounds.self number.pattern
    rcases Nat.lt_or_ge (number.gridFloor power) index with past | before
    · refine absurd (self.between rounds ?_ ?_) missed'
      · simpa [Decimal.value] using below.le
      · exact mul_le_mul_of_nonneg_right (Nat.cast_le.mpr past) scale.le
    · refine absurd (rounds.between self ?_ above) missed
      exact mul_le_mul_of_nonneg_right (Nat.cast_le.mpr before) scale.le
  · exact ⟨digits, found⟩

theorem length_toDigits_spec {digits : Nat} (positive : 0 < digits) :
    10 ^ ((Nat.toDigits 10 digits).length - 1) ≤ digits ∧
      digits < 10 ^ (Nat.toDigits 10 digits).length := by
  have some : 0 < (Nat.toDigits 10 digits).length :=
    List.length_pos_iff.mpr Nat.toDigits_ne_nil
  refine ⟨?_, (Nat.length_toDigits_le_iff (by decide) some).mp le_rfl⟩
  rcases Nat.eq_zero_or_pos ((Nat.toDigits 10 digits).length - 1) with one | more
  · rwa [one]
  · by_contra less
    have := (Nat.length_toDigits_le_iff (by decide) more).mpr (Nat.lt_of_not_ge less)
    omega

theorem decimalOrder_spec (nonzero : number.significand ≠ 0) :
    (10 : ℚ) ^ (number.decimalOrder - 1) ≤ Pattern.value number.pattern ∧
      Pattern.value number.pattern < 10 ^ number.decimalOrder := by
  obtain ⟨above, below⟩ := number.gridFloor_spec (-340)
  unfold decimalOrder
  generalize number.gridFloor (-340) = index at above below ⊢
  have least : (1 : ℚ) * 10 ^ (-340 : Int) ≤ Pattern.value number.pattern := by
    have smallest : Pattern.value 1 ≤ Pattern.value number.pattern :=
      Pattern.value_strictMono.monotone
        (Nat.one_le_iff_ne_zero.mpr (significand_eq_zero_iff.not.mp nonzero))
    refine le_trans ?_ smallest
    have powers : (2 : ℚ) ^ 1074 ≤ 10 ^ 340 := by exact_mod_cast (by decide +kernel : 2 ^ 1074 ≤ 10 ^ 340)
    have value_eq : Pattern.value 1 = ((2 : ℚ) ^ 1074)⁻¹ := by
      norm_num [Pattern.value, Pattern.steps, Pattern.unit]
    rw [value_eq, one_mul, zpow_neg, inv_le_inv₀ (ten_zpow_pos _) (by positivity)]
    exact_mod_cast powers
  have positive : 0 < index := by
    have : (1 : ℚ) < index + 1 := lt_of_mul_lt_mul_right (least.trans_lt below) (ten_zpow_pos _).le
    exact Nat.lt_of_succ_lt_succ (by exact_mod_cast this)
  obtain ⟨low, high⟩ := length_toDigits_spec positive
  have some : 0 < (Nat.toDigits 10 index).length := List.length_pos_iff.mpr Nat.toDigits_ne_nil
  generalize (Nat.toDigits 10 index).length = length at low high some
  constructor
  · refine le_trans ?_ above
    rw [show (length : Int) - 340 - 1 = (length - 1 : Nat) + (-340) by omega, ten_zpow_add,
      zpow_natCast]
    gcongr
    exact_mod_cast low
  · refine below.trans_le ?_
    rw [sub_eq_add_neg, ten_zpow_add, zpow_natCast]
    gcongr
    exact_mod_cast high

/-- What is nearer to the magnitude than its seventeenth digit counts is rounded to it. -/
theorem rounds_of_near (nonzero : number.significand ≠ 0) (quotient : ℚ)
    (near : |quotient - Pattern.value number.pattern| ≤ 10 ^ (number.decimalOrder - 17) / 2) :
    Pattern.Rounds quotient number.pattern := by
  obtain ⟨large, -⟩ := decimalOrder_spec nonzero
  obtain ⟨previous, pattern_eq⟩ := Nat.exists_eq_succ_of_ne_zero
    (significand_eq_zero_iff.not.mp nonzero)
  rw [pattern_eq] at near large ⊢
  have scaled : 10 ^ 16 * (10 : ℚ) ^ (number.decimalOrder - 17) ≤ Pattern.value (previous + 1) := by
    rwa [← zpow_natCast, ← ten_zpow_add, show ((16 : Nat) : Int) + (number.decimalOrder - 17) =
      number.decimalOrder - 1 by ring]
  generalize (10 : ℚ) ^ (number.decimalOrder - 17) = grid at near scaled
  have finer (gap : ℚ) (positive : 0 < gap) (bound : Pattern.value (previous + 1) ≤ 2 ^ 53 * gap) :
      grid < gap := by
    linarith
  have coarse : Pattern.value (previous + 1) ≤ 2 ^ 53 * 2 ^ Pattern.unit previous := by
    have few : ((Pattern.steps previous : ℚ) + 1) ≤ 2 ^ 53 := by
      exact_mod_cast Pattern.steps_lt previous
    rw [Pattern.value_succ, Pattern.value, ← add_one_mul]
    gcongr
  have coarse' : Pattern.value (previous + 1) ≤ 2 ^ 53 * 2 ^ Pattern.unit (previous + 1) := by
    have few : (Pattern.steps (previous + 1) : ℚ) ≤ 2 ^ 53 := by
      exact_mod_cast (Pattern.steps_lt (previous + 1)).le
    rw [Pattern.value]
    gcongr
  have below := finer _ (Pattern.two_zpow_pos _) coarse
  have above := finer _ (Pattern.two_zpow_pos _) coarse'
  obtain ⟨low, high⟩ := abs_le.mp near
  have lower : Pattern.half previous < quotient := by
    rw [Pattern.half_succ_eq]
    linarith
  have upper : quotient < Pattern.half (previous + 1) := by
    rw [Pattern.half_eq]
    linarith
  exact .of_succ lower.le upper.le (fun same => absurd same lower.ne) fun same => absurd same upper.ne

theorem exists_seventeen_digits (nonzero : number.significand ≠ 0) :
    ∃ index : Nat, Pattern.Rounds (index * 10 ^ (number.decimalOrder - 17)) number.pattern := by
  obtain ⟨above, below⟩ := number.gridFloor_spec (number.decimalOrder - 17)
  have near := rounds_of_near nonzero
  generalize number.gridFloor (number.decimalOrder - 17) = index at above below
  generalize (10 : ℚ) ^ (number.decimalOrder - 17) = grid at near above below
  rcases le_total (Pattern.value number.pattern - index * grid) (grid / 2) with close | far
  · refine ⟨index, near _ (abs_le.mpr ⟨?_, ?_⟩)⟩ <;> linarith
  · refine ⟨index + 1, near _ (abs_le.mpr ⟨?_, ?_⟩)⟩ <;> push_cast <;> linarith

theorem gridFloor_lt (nonzero : number.significand ≠ 0) (count : Nat) :
    number.gridFloor (number.decimalOrder - count) < 10 ^ count := by
  obtain ⟨-, less⟩ := decimalOrder_spec nonzero
  obtain ⟨above, -⟩ := number.gridFloor_spec (number.decimalOrder - count)
  have bound : (number.gridFloor (number.decimalOrder - count) : ℚ) < 10 ^ count := by
    refine lt_of_mul_lt_mul_right (above.trans_lt ?_) (ten_zpow_pos (number.decimalOrder - count)).le
    rwa [← zpow_natCast, ← ten_zpow_add, add_sub_cancel]
  exact_mod_cast bound

theorem shortest_spec (nonzero : number.significand ≠ 0) (tie : Decimal.Tie) :
    ∃ count digits : Nat, 0 < count ∧ count ≤ 17 ∧ digits ≤ 10 ^ count ∧
      Pattern.Rounds (Decimal.value ⟨digits, number.decimalOrder - count⟩) number.pattern ∧
      number.shortest tie = Decimal.normalize ⟨digits, number.decimalOrder - count⟩ ∧
      ∀ fewer, 0 < fewer → fewer < count → number.onGrid? tie (number.decimalOrder - fewer) = none := by
  obtain ⟨index, rounds⟩ := exists_seventeen_digits nonzero
  obtain ⟨last, on⟩ := exists_onGrid? nonzero tie rounds
  unfold shortest
  extract_lets order found
  cases search : found with
  | none =>
      have missed := List.findSome?_eq_none_iff.mp search 16 (by decide)
      exact absurd (on.symm.trans missed) (Option.some_ne_none _)
  | some decimal =>
      obtain ⟨before, count, after, range_eq, taken, earlier⟩ := List.findSome?_eq_some_iff.mp search
      have count_lt : count < 17 := List.mem_range.mp (range_eq ▸ by simp)
      -- what the range has before its element is all that is less
      have coarser (fewer : Nat) (less : fewer < count) : fewer ∈ before := by
        have sorted : (before ++ count :: after).Pairwise (· < ·) := range_eq ▸ List.pairwise_lt_range
        have listed : fewer ∈ before ++ count :: after :=
          range_eq ▸ List.mem_range.mpr (less.trans count_lt)
        rcases List.mem_append.mp listed with member | member
        · exact member
        · have le : ∀ other ∈ count :: after, count ≤ other := by
            rw [List.forall_mem_cons]
            exact ⟨le_rfl, fun other member =>
              (List.rel_of_pairwise_cons (List.pairwise_append.mp sorted).2.1 member).le⟩
          exact absurd (le fewer member) less.not_ge
      rcases onGrid?_cases tie number (order - (count + 1 : Nat)) with ⟨-, -, none⟩ |
        ⟨digits, few, reads, on⟩
      · exact absurd (taken.symm.trans none) (Option.some_ne_none _)
      · obtain rfl : decimal = ⟨digits, order - (count + 1 : Nat)⟩ := Option.some.inj (taken.symm.trans on)
        refine ⟨count + 1, digits, Nat.succ_pos _, count_lt, ?_, (readsBack_iff nonzero _).mp reads, rfl,
          fun fewer some less => ?_⟩
        · exact few.trans (gridFloor_lt nonzero (count + 1))
        · have none := earlier _ (coarser (fewer - 1) (by omega))
          rwa [Nat.sub_add_cancel some] at none

theorem rounds_shortest (nonzero : number.significand ≠ 0) (tie : Decimal.Tie) :
    Pattern.Rounds (number.shortest tie).value number.pattern := by
  obtain ⟨count, digits, -, -, -, rounds, shortest_eq, -⟩ := shortest_spec nonzero tie
  rwa [shortest_eq, Decimal.value_normalize]

/-- A decimal that is rounded to the number leaves a trace on the grid of its count of digits: either it
is a point of that grid, or a power of ten lies between it and the number. -/
theorem exists_index_of_rounds (nonzero : number.significand ≠ 0) {decimal : Decimal}
    (rounds : Pattern.Rounds decimal.value number.pattern) :
    ∃ index : Nat, Pattern.Rounds
      (index * 10 ^ (number.decimalOrder - (decimal.digitText.length : Nat))) number.pattern := by
  have some : 0 < decimal.digitText.length := List.length_pos_iff.mpr Nat.toDigits_ne_nil
  have few : decimal.digits < 10 ^ decimal.digitText.length :=
    (Nat.length_toDigits_le_iff (by decide) some).mp le_rfl
  generalize decimal.digitText.length = length at some few
  rcases le_or_gt (number.decimalOrder - length) decimal.exponent with coarse | fine
  · refine ⟨decimal.digits * 10 ^ (decimal.exponent - (number.decimalOrder - length)).toNat, ?_⟩
    rw [Nat.cast_mul, Nat.cast_pow, mul_assoc, Nat.cast_ofNat, ← zpow_natCast, ← ten_zpow_add,
      show (((decimal.exponent - (number.decimalOrder - length)).toNat : Nat) : Int) +
        (number.decimalOrder - length) = decimal.exponent by omega]
    exact rounds
  · refine ⟨10 ^ (length - 1), ?_⟩
    rw [Nat.cast_pow, Nat.cast_ofNat, ← zpow_natCast, ← ten_zpow_add,
      show ((length - 1 : Nat) : Int) + (number.decimalOrder - length) = number.decimalOrder - 1 by
        omega]
    refine rounds.between (Pattern.Rounds.self _) ?_ (decimalOrder_spec nonzero).1
    calc decimal.value ≤ (10 : ℚ) ^ length * 10 ^ decimal.exponent := by
          unfold Decimal.value
          gcongr
          exact_mod_cast few.le
      _ = 10 ^ (length + decimal.exponent) := by rw [ten_zpow_add, zpow_natCast]
      _ ≤ 10 ^ (number.decimalOrder - 1) := ten_zpow_mono (by omega)

theorem length_shortest_le (nonzero : number.significand ≠ 0) (tie : Decimal.Tie) {decimal : Decimal}
    (rounds : Pattern.Rounds decimal.value number.pattern) :
    (number.shortest tie).digitText.length ≤ decimal.digitText.length := by
  obtain ⟨count, digits, some, -, few, -, shortest_eq, coarsest⟩ := shortest_spec nonzero tie
  have length_le : (number.shortest tie).digitText.length ≤ count := by
    rw [shortest_eq]
    exact (Nat.length_toDigits_le_iff (by decide) some).mpr (Decimal.digits_normalize_lt some few)
  refine length_le.trans (Nat.le_of_not_lt fun less => ?_)
  obtain ⟨index, rounds'⟩ := exists_index_of_rounds nonzero rounds
  obtain ⟨found, on⟩ := exists_onGrid? nonzero tie rounds'
  have none := coarsest _ (List.length_pos_iff.mpr Nat.toDigits_ne_nil) less
  exact absurd (on.symm.trans none) (Option.some_ne_none _)

theorem eq_of_rounds_whole {magnitude other : Nat} (small : magnitude < 2 ^ 52)
    (whole : Pattern.value number.pattern = magnitude)
    (rounds : Pattern.Rounds other number.pattern) : other = magnitude := by
  have unit_le : Pattern.unit number.pattern ≤ 0 := by
    by_contra coarse
    have many : 2 ^ 52 ≤ Pattern.steps number.pattern := by
      unfold Pattern.unit at coarse
      unfold Pattern.steps
      split <;> omega
    have large : (2 : ℚ) ^ 52 * 1 ≤ magnitude := by
      rw [← whole, Pattern.value]
      gcongr
      · exact_mod_cast many
      · exact one_le_zpow₀ one_le_two (by omega)
    rw [mul_one] at large
    exact small.not_ge (by exact_mod_cast large)
  have gap : (2 : ℚ) ^ Pattern.unit number.pattern ≤ 1 := zpow_le_one_of_nonpos₀ one_le_two unit_le
  have near := rounds.near (Nat.cast_nonneg other)
  rw [whole] at near
  have close : |(other : ℚ) - magnitude| < 1 := by linarith
  have same : (other : Int) - magnitude = 0 := Int.abs_lt_one_iff.mp (by exact_mod_cast close)
  omega

/-- The shortest decimal of a whole number below `2 ^ 52` is the number itself. -/
theorem shortest_of_whole (tie : Decimal.Tie) {magnitude : Nat} (positive : 0 < magnitude)
    (small : magnitude < 2 ^ 52) (whole : Pattern.value number.pattern = magnitude) :
    0 ≤ (number.shortest tie).exponent ∧ (number.shortest tie).value = magnitude := by
  have nonzero : number.significand ≠ 0 := by
    intro zero
    rw [value_pattern, zero, Nat.cast_zero, zero_mul] at whole
    exact positive.ne (by exact_mod_cast whole)
  obtain ⟨count, digits, some, -, -, rounds, shortest_eq, coarsest⟩ := shortest_spec nonzero tie
  have order_pos : 0 < number.decimalOrder := by
    by_contra below
    have less := (decimalOrder_spec nonzero).2.trans_le (ten_zpow_mono (not_lt.mp below))
    rw [whole, zpow_zero] at less
    exact positive.not_ge (Nat.le_of_lt_succ (by exact_mod_cast less))
  have exponent_nonneg : 0 ≤ number.decimalOrder - count := by
    by_contra fine
    have on := coarsest number.decimalOrder.toNat (by omega) (by omega)
    have self : Pattern.Rounds ((magnitude : ℚ) * 10 ^ (0 : Int)) number.pattern := by
      rw [zpow_zero, mul_one, ← whole]
      exact .self _
    obtain ⟨found, on'⟩ := exists_onGrid? nonzero tie self
    rw [Int.toNat_of_nonneg order_pos.le, sub_self] at on
    exact absurd (on'.symm.trans on) (Option.some_ne_none _)
  rw [shortest_eq, Decimal.value_normalize]
  refine ⟨exponent_nonneg.trans (Decimal.exponent_le_normalize _), ?_⟩
  obtain ⟨zeros, zeros_eq⟩ := Int.eq_ofNat_of_zero_le exponent_nonneg
  have value_eq : Decimal.value ⟨digits, number.decimalOrder - count⟩ = (digits * 10 ^ zeros : Nat) := by
    rw [Decimal.value, zeros_eq, zpow_natCast]
    push_cast
    rfl
  rw [value_eq] at rounds ⊢
  rw [eq_of_rounds_whole small whole rounds]

end Number

end Lox
