import Mathlib
import Lox.Number.Nearest

/-!
The magnitudes in order. A bit pattern without its sign counts the magnitudes from zero upwards, past
the largest finite one as well if the exponent had no bound. Half-way between a magnitude and the next
lies the last quotient that may be rounded to it, so the intervals of the patterns cover the quotients
and overlap nowhere: reading a quotient finds the one pattern to which it is rounded.
-/

namespace Lox

namespace Pattern

def steps (pattern : Nat) : Nat :=
  if pattern / 2 ^ 52 = 0 then pattern % 2 ^ 52 else 2 ^ 52 + pattern % 2 ^ 52

def unit (pattern : Nat) : Int := (max (pattern / 2 ^ 52) 1 : Nat) - 1075

def value (pattern : Nat) : ℚ := steps pattern * 2 ^ unit pattern

def half (pattern : Nat) : ℚ := (value pattern + value (pattern + 1)) / 2

theorem steps_succ (pattern : Nat) :
    (steps (pattern + 1) = steps pattern + 1 ∧ unit (pattern + 1) = unit pattern) ∨
      (2 * steps (pattern + 1) = steps pattern + 1 ∧ unit (pattern + 1) = unit pattern + 1 ∧
        steps (pattern + 1) = 2 ^ 52) := by
  unfold steps unit
  split <;> split <;> omega

theorem steps_lt (pattern : Nat) : steps pattern < 2 ^ 53 := by
  unfold steps
  split <;> omega

theorem two_zpow_pos (power : Int) : (0 : ℚ) < 2 ^ power := zpow_pos two_pos power

theorem value_succ (pattern : Nat) : value (pattern + 1) = value pattern + 2 ^ unit pattern := by
  unfold value
  rcases steps_succ pattern with ⟨steps_eq, unit_eq⟩ | ⟨steps_eq, unit_eq, -⟩
  · rw [steps_eq, unit_eq]
    push_cast
    ring
  · have doubled : 2 * (steps (pattern + 1) : ℚ) = steps pattern + 1 := by exact_mod_cast steps_eq
    rw [unit_eq, zpow_add_one₀ two_ne_zero]
    linear_combination (2 : ℚ) ^ unit pattern * doubled

theorem value_strictMono : StrictMono value :=
  strictMono_nat_of_lt_succ fun pattern => by
    rw [value_succ]
    exact lt_add_of_pos_right _ (two_zpow_pos _)

theorem half_eq (pattern : Nat) : half pattern = value pattern + 2 ^ unit pattern / 2 := by
  rw [half, value_succ]
  ring

theorem half_succ_eq (pattern : Nat) :
    half pattern = value (pattern + 1) - 2 ^ unit pattern / 2 := by
  rw [half, value_succ]
  ring

theorem half_strictMono : StrictMono half := fun lower upper less => by
  have first := value_strictMono less
  have second := value_strictMono (Nat.succ_lt_succ less)
  unfold half
  linarith

theorem value_lt_half (pattern : Nat) : value pattern < half pattern := by
  rw [half_eq]
  exact lt_add_of_pos_right _ (half_pos (two_zpow_pos _))

theorem half_lt_value (pattern : Nat) : half pattern < value (pattern + 1) := by
  rw [half_succ_eq]
  exact sub_lt_self _ (half_pos (two_zpow_pos _))

theorem half_pos (pattern : Nat) : 0 < half pattern := by
  have nonneg : 0 ≤ value pattern := mul_nonneg (Nat.cast_nonneg _) (two_zpow_pos _).le
  exact nonneg.trans_lt (value_lt_half pattern)

/-- The quotient lies between the points half-way to the neighbours; such a point itself goes to the
even one of the two. -/
structure Rounds (quotient : ℚ) (pattern : Nat) : Prop where
  above : ∀ below < pattern, half below ≤ quotient
  below : quotient ≤ half pattern
  even_above : ∀ below < pattern, half below = quotient → Even pattern
  even_below : quotient = half pattern → Even pattern

namespace Rounds

variable {quotient : ℚ} {pattern other : Nat}

theorem of_succ (above : half pattern ≤ quotient) (below : quotient ≤ half (pattern + 1))
    (even_above : half pattern = quotient → Even (pattern + 1))
    (even_below : quotient = half (pattern + 1) → Even (pattern + 1)) :
    Rounds quotient (pattern + 1) where
  above := fun _ less =>
    (half_strictMono.monotone (Nat.le_of_lt_succ less)).trans above
  below := below
  even_above := fun _ less same => even_above <|
    above.antisymm (same ▸ half_strictMono.monotone (Nat.le_of_lt_succ less))
  even_below := even_below

theorem succ_iff : Rounds quotient (pattern + 1) ↔
    if Even (pattern + 1) then half pattern ≤ quotient ∧ quotient ≤ half (pattern + 1)
    else half pattern < quotient ∧ quotient < half (pattern + 1) := by
  constructor
  · intro rounds
    have above := rounds.above pattern (Nat.lt_succ_self pattern)
    split
    · exact ⟨above, rounds.below⟩
    · rename_i odd
      exact ⟨above.lt_of_ne fun same => odd (rounds.even_above _ (Nat.lt_succ_self _) same),
        rounds.below.lt_of_ne fun same => odd (rounds.even_below same)⟩
  · intro bounds
    split at bounds
    · rename_i even
      exact of_succ bounds.1 bounds.2 (fun _ => even) fun _ => even
    · exact of_succ bounds.1.le bounds.2.le (fun same => absurd same bounds.1.ne)
        fun same => absurd same bounds.2.ne

theorem zero (below : quotient ≤ half 0) : Rounds quotient 0 where
  above := by simp
  below := below
  even_above := by simp
  even_below := fun _ => Even.zero

theorem not_lt (rounds : Rounds quotient pattern) (rounds' : Rounds quotient other) :
    ¬ pattern < other := by
  intro less
  have same : quotient = half pattern := rounds.below.antisymm (rounds'.above pattern less)
  have even := rounds.even_below same
  have even' := rounds'.even_above pattern less same.symm
  -- both are even, so there is a third pattern between them
  have between : pattern + 1 < other := by
    rcases Nat.lt_or_eq_of_le (Nat.succ_le_of_lt less) with between | rfl
    · exact between
    · exact absurd even' (by simpa [Nat.even_add_one] using even)
  have above : half (pattern + 1) ≤ half pattern := same ▸ rounds'.above _ between
  exact above.not_gt (half_strictMono (Nat.lt_succ_self pattern))

theorem unique (rounds : Rounds quotient pattern) (rounds' : Rounds quotient other) :
    pattern = other :=
  le_antisymm (Nat.le_of_not_lt (rounds'.not_lt rounds)) (Nat.le_of_not_lt (rounds.not_lt rounds'))

theorem between {low high : ℚ} (rounds : Rounds low pattern) (rounds' : Rounds high pattern)
    (above : low ≤ quotient) (below : quotient ≤ high) : Rounds quotient pattern where
  above := fun lower less => (rounds.above lower less).trans above
  below := below.trans rounds'.below
  even_above := fun lower less same =>
    rounds.even_above lower less ((rounds.above lower less).antisymm (same ▸ above))
  even_below := fun same => rounds'.even_below (rounds'.below.antisymm (same ▸ below))

theorem near (rounds : Rounds quotient pattern) (nonneg : 0 ≤ quotient) :
    |quotient - value pattern| ≤ 2 ^ unit pattern / 2 := by
  have below := half_eq pattern ▸ rounds.below
  refine abs_sub_le_iff.mpr ⟨by linarith, ?_⟩
  cases pattern with
  | zero =>
      have zero : value 0 = 0 := by simp [value, steps]
      linarith [two_zpow_pos (unit 0)]
  | succ previous =>
      have above := half_succ_eq previous ▸ rounds.above previous (Nat.lt_succ_self previous)
      have coarser : (2 : ℚ) ^ unit previous ≤ 2 ^ unit (previous + 1) := by
        refine zpow_le_zpow_right₀ one_le_two ?_
        rcases steps_succ previous with ⟨-, same⟩ | ⟨-, next, -⟩ <;> omega
      linarith

theorem self (pattern : Nat) : Rounds (value pattern) pattern where
  above := fun below less =>
    ((half_lt_value below).trans_le (value_strictMono.monotone less)).le
  below := (value_lt_half pattern).le
  even_above := fun below less same =>
    absurd same ((half_lt_value below).trans_le (value_strictMono.monotone less)).ne
  even_below := fun same => absurd same (value_lt_half pattern).ne

end Rounds

end Pattern

namespace Number

theorem raise_div (base : Nat) (positive : 0 < base) (power : Int) :
    (raise base power : ℚ) / raise base (-power) = (base : ℚ) ^ power := by
  have nonzero : (base : ℚ) ≠ 0 := Nat.cast_ne_zero.mpr positive.ne'
  have split : (power.toNat : Int) - (-power).toNat = power := by omega
  calc (raise base power : ℚ) / raise base (-power)
      = (base : ℚ) ^ (power.toNat : Int) / (base : ℚ) ^ ((-power).toNat : Int) := by
        rw [zpow_natCast, zpow_natCast]
        exact_mod_cast rfl
    _ = (base : ℚ) ^ power := by rw [← zpow_sub₀ nonzero, split]

theorem zpow_mul_raise (base : Nat) (positive : 0 < base) (power : Int) :
    (base : ℚ) ^ power * raise base (-power) = raise base power := by
  have nonzero : (raise base (-power) : ℚ) ≠ 0 :=
    Nat.cast_ne_zero.mpr (Nat.pow_pos positive).ne'
  rw [← raise_div base positive, div_mul_cancel₀ _ nonzero]

theorem raise_pos (base : Nat) (positive : 0 < base) (power : Int) : 0 < raise base power :=
  Nat.pow_pos positive

theorem roundQuotient_spec (numerator : Nat) {denominator : Nat} (positive : 0 < denominator) :
    let rounded := roundQuotient numerator denominator
    let quotient : ℚ := numerator / denominator
    rounded - 1 / 2 ≤ quotient ∧ quotient ≤ rounded + 1 / 2 ∧
      (rounded - 1 / 2 = quotient ∨ quotient = rounded + 1 / 2 → Even rounded) := by
  intro rounded quotient
  have scale : (0 : ℚ) < denominator := Nat.cast_pos.mpr positive
  obtain ⟨whole, rest, less, rfl⟩ : ∃ whole rest, rest < denominator ∧
      numerator = denominator * whole + rest :=
    ⟨_, _, Nat.mod_lt numerator positive, (Nat.div_add_mod _ _).symm⟩
  have quotient_eq : quotient = whole + rest / denominator := by
    simp only [quotient]
    push_cast
    field_simp
  have rounded_eq : rounded = if 2 * rest < denominator then whole
      else if denominator < 2 * rest then whole + 1 else whole + whole % 2 := by
    simp only [rounded, roundQuotient, Nat.mul_add_mod, Nat.mod_eq_of_lt less,
      Nat.mul_add_div positive, Nat.div_eq_of_lt less, Nat.add_zero]
  have nonneg : (0 : ℚ) ≤ rest / denominator := by positivity
  have lt_one : (rest : ℚ) / denominator < 1 := (div_lt_one scale).mpr (Nat.cast_lt.mpr less)
  rw [quotient_eq, rounded_eq]
  split
  · rename_i small
    have small : (rest : ℚ) / denominator < 1 / 2 := by
      rw [div_lt_div_iff₀ scale two_pos]
      exact_mod_cast (by omega : rest * 2 < 1 * denominator)
    exact ⟨by linarith, by linarith, by rintro (same | same) <;> linarith⟩
  · split
    · rename_i large
      have large : 1 / 2 < (rest : ℚ) / denominator := by
        rw [div_lt_div_iff₀ two_pos scale]
        exact_mod_cast (by omega : 1 * denominator < rest * 2)
      push_cast
      exact ⟨by linarith, by linarith, by rintro (same | same) <;> linarith⟩
    · have tie : (rest : ℚ) / denominator = 1 / 2 := by
        rw [div_eq_div_iff scale.ne' two_ne_zero]
        exact_mod_cast (by omega : rest * 2 = 1 * denominator)
      have parity : ((whole % 2 : Nat) : ℚ) ≤ 1 := by exact_mod_cast (by omega : whole % 2 ≤ 1)
      have parity' : (0 : ℚ) ≤ ((whole % 2 : Nat) : ℚ) := Nat.cast_nonneg _
      push_cast at parity parity' ⊢
      refine ⟨by linarith, by linarith, fun _ => ?_⟩
      rw [Nat.even_iff]
      omega

theorem binaryOrder_spec {numerator denominator : Nat} (nonzero : 0 < numerator)
    (positive : 0 < denominator) :
    (2 : ℚ) ^ binaryOrder numerator denominator ≤ numerator / denominator ∧
      (numerator : ℚ) / denominator < 2 ^ (binaryOrder numerator denominator + 1) := by
  have scale : (0 : ℚ) < denominator := Nat.cast_pos.mpr positive
  have low (number : Nat) (nonzero : 0 < number) : (2 : ℚ) ^ (number.log2 : Int) ≤ number := by
    rw [zpow_natCast]
    exact_mod_cast Nat.log2_self_le nonzero.ne'
  have high (number : Nat) : (number : ℚ) < 2 ^ ((number.log2 : Int) + 1) := by
    have bound : number < 2 ^ (number.log2 + 1) := Nat.lt_log2_self
    exact_mod_cast bound
  unfold binaryOrder
  extract_lets guess
  have raised : (denominator * raise 2 guess ≤ numerator * raise 2 (-guess)) ↔
      (2 : ℚ) ^ guess ≤ numerator / denominator := by
    have other : (0 : ℚ) < raise 2 (-guess) := Nat.cast_pos.mpr (raise_pos 2 two_pos _)
    rw [← Nat.cast_ofNat (R := ℚ), ← raise_div 2 two_pos guess, div_le_div_iff₀ other scale,
      mul_comm (raise 2 guess : ℚ)]
    exact_mod_cast Iff.rfl
  split
  · rename_i reached
    refine ⟨raised.mp reached, ?_⟩
    rw [div_lt_iff₀ scale]
    calc (numerator : ℚ) < 2 ^ ((numerator.log2 : Int) + 1) := high numerator
      _ = 2 ^ (guess + 1) * 2 ^ (denominator.log2 : Int) := by
        rw [← zpow_add₀ two_ne_zero]
        congr 1
        omega
      _ ≤ 2 ^ (guess + 1) * denominator := by gcongr; exact low denominator positive
  · rename_i missed
    rw [sub_add_cancel]
    refine ⟨?_, lt_of_not_ge fun reached => missed (raised.mpr reached)⟩
    rw [le_div_iff₀ scale]
    calc (2 : ℚ) ^ (guess - 1) * denominator
        ≤ 2 ^ (guess - 1) * 2 ^ ((denominator.log2 : Int) + 1) := by gcongr; exact (high denominator).le
      _ = 2 ^ (numerator.log2 : Int) := by
        rw [← zpow_add₀ two_ne_zero]
        congr 1
        omega
      _ ≤ numerator := low numerator nonzero

/-- The pattern that is read from a quotient, if the exponent had no bound. -/
def nearestPattern (numerator denominator : Nat) : Nat :=
  if numerator = 0 then 0
  else
    let unit : Int := max (binaryOrder numerator denominator - 52) (-1074)
    (unit + 1074).toNat * 2 ^ 52 +
      roundQuotient (numerator * raise 2 (-unit)) (denominator * raise 2 unit)

theorem nearest_eq (numerator denominator : Nat) :
    nearest numerator denominator =
      ⟨UInt64.ofNat (min (nearestPattern numerator denominator) infinityBits)⟩ := by
  unfold nearest nearestPattern
  split <;> rfl

end Number

namespace Pattern

theorem unit_add {exponent count : Nat} (few : count < 2 ^ 53)
    (many : 0 < exponent → 2 ^ 52 ≤ count) :
    unit (exponent * 2 ^ 52 + count) = (exponent : Int) - 1074 := by
  unfold unit
  omega

/-- Steps of a unit as they are counted into a pattern: the leading one of normal steps goes into the
exponent, and one step more than there are begins the next binade. -/
theorem value_add {exponent count : Nat} (few : count ≤ 2 ^ 53) (many : 0 < exponent → 2 ^ 52 ≤ count) :
    value (exponent * 2 ^ 52 + count) = count * 2 ^ ((exponent : Int) - 1074) := by
  unfold value
  rcases Nat.lt_or_eq_of_le few with less | rfl
  · have steps_eq : steps (exponent * 2 ^ 52 + count) = count := by
      unfold steps
      split <;> omega
    rw [steps_eq, unit_add less many]
  · have steps_eq : steps (exponent * 2 ^ 52 + 2 ^ 53) = 2 ^ 52 := by
      unfold steps
      split <;> omega
    have unit_eq : unit (exponent * 2 ^ 52 + 2 ^ 53) = (exponent : Int) - 1074 + 1 := by
      unfold unit
      omega
    rw [steps_eq, unit_eq, zpow_add_one₀ two_ne_zero]
    push_cast
    ring

theorem Rounds.of_steps (exponent : Nat) {count : Nat} {scaled : ℚ}
    (few : scaled < 2 ^ 53) (many : 0 < exponent → 2 ^ 52 ≤ scaled)
    (above : count - 1 / 2 ≤ scaled) (below : scaled ≤ count + 1 / 2)
    (even : count - 1 / 2 = scaled ∨ scaled = count + 1 / 2 → Even count) :
    Rounds (scaled * 2 ^ ((exponent : Int) - 1074)) (exponent * 2 ^ 52 + count) := by
  have count_le : count ≤ 2 ^ 53 := by
    have : (count : ℚ) < 2 ^ 53 + 1 := by linarith
    exact Nat.le_of_lt_succ (by exact_mod_cast this)
  have le_count (positive : 0 < exponent) : 2 ^ 52 ≤ count := by
    have : (2 : ℚ) ^ 52 < count + 1 := by linarith [many positive]
    exact Nat.le_of_lt_succ (by exact_mod_cast this)
  have parity : Even count → Even (exponent * 2 ^ 52 + count) :=
    (Even.mul_left (by decide) exponent).add
  have value_eq := value_add count_le le_count
  generalize scale_eq : (2 : ℚ) ^ ((exponent : Int) - 1074) = scale at value_eq ⊢
  have scale_pos : 0 < scale := scale_eq ▸ two_zpow_pos _
  have unit_le : scale ≤ 2 ^ unit (exponent * 2 ^ 52 + count) := by
    rw [← scale_eq]
    refine zpow_le_zpow_right₀ one_le_two ?_
    unfold unit
    omega
  have below' : scaled * scale ≤ (count + 1 / 2) * scale := by gcongr
  have half_ge : (count + 1 / 2) * scale ≤ half (exponent * 2 ^ 52 + count) := by
    rw [half_eq, value_eq, add_mul, one_div_mul_eq_div]
    gcongr
  have upper := below'.trans half_ge
  have even_upper : scaled * scale = half (exponent * 2 ^ 52 + count) →
      Even (exponent * 2 ^ 52 + count) := by
    intro same
    have reached : (count + 1 / 2) * scale ≤ scaled * scale := same ▸ half_ge
    exact parity (even (.inr (below.antisymm (le_of_mul_le_mul_right reached scale_pos))))
  rcases eq : exponent * 2 ^ 52 + count with _ | previous
  · rw [eq] at upper
    exact .zero upper
  · rw [eq] at upper even_upper value_eq parity
    by_cases first : 0 < exponent ∧ count = 2 ^ 52
    · -- the neighbour below has a finer unit, but the quotient is not below the magnitude
      have reached : value (previous + 1) ≤ scaled * scale := by
        rw [value_eq, first.2]
        push_cast
        gcongr
        exact many first.1
      have less := (half_lt_value previous).trans_le reached
      exact .of_succ less.le upper (fun same => absurd same less.ne) even_upper
    · have unit_eq : (2 : ℚ) ^ unit previous = scale := by
        have previous_eq : previous = exponent * 2 ^ 52 + (count - 1) := by omega
        rw [previous_eq, unit_add (by omega) (by omega), scale_eq]
      have half_eq : half previous = (count - 1 / 2) * scale := by
        rw [half_succ_eq, value_eq, unit_eq]
        ring
      refine .of_succ ?_ upper (fun same => parity (even (.inl ?_))) even_upper
      · rw [half_eq]
        gcongr
      · exact mul_right_cancel₀ scale_pos.ne' (half_eq.symm.trans same)

end Pattern

namespace Number

theorem rounds_nearestPattern (numerator : Nat) {denominator : Nat} (positive : 0 < denominator) :
    Pattern.Rounds (numerator / denominator : ℚ) (nearestPattern numerator denominator) := by
  unfold nearestPattern
  split
  · rename_i none
    rw [none, Nat.cast_zero, zero_div]
    exact .zero (Pattern.half_pos 0).le
  · rename_i some
    obtain ⟨low, high⟩ := binaryOrder_spec (Nat.pos_of_ne_zero some) positive
    generalize binaryOrder numerator denominator = order at low high ⊢
    extract_lets unit
    obtain ⟨exponent, exponent_eq⟩ : ∃ exponent : Nat, unit = (exponent : Int) - 1074 :=
      ⟨(unit + 1074).toNat, by omega⟩
    have scale : (0 : ℚ) < 2 ^ unit := Pattern.two_zpow_pos unit
    have raised : ((numerator * raise 2 (-unit) : Nat) : ℚ) / (denominator * raise 2 unit : Nat) =
        numerator / denominator / 2 ^ unit := by
      rw [← Nat.cast_ofNat (R := ℚ), ← raise_div 2 two_pos unit]
      push_cast
      rw [div_div_div_eq]
    obtain ⟨above, below, even⟩ := roundQuotient_spec (numerator * raise 2 (-unit))
      (Nat.mul_pos positive (raise_pos 2 two_pos unit))
    rw [raised] at above below even
    have rounds := Pattern.Rounds.of_steps exponent ?_ ?_ above below even
    · rw [← exponent_eq, div_mul_cancel₀ _ scale.ne'] at rounds
      rwa [show (unit + 1074).toNat = exponent by omega]
    · rw [div_lt_iff₀ scale, ← zpow_natCast, ← zpow_add₀ two_ne_zero]
      exact high.trans_le (zpow_le_zpow_right₀ one_le_two (by omega))
    · intro normal
      rw [le_div_iff₀ scale, ← zpow_natCast, ← zpow_add₀ two_ne_zero]
      exact le_trans (zpow_le_zpow_right₀ one_le_two (by omega)) low

def pattern (number : Number) : Nat := number.bits.toNat % 2 ^ 63

def abs (number : Number) : Number := ⟨UInt64.ofNat number.pattern⟩

variable {number other : Number}

theorem pattern_lt (number : Number) : number.pattern < 2 ^ 63 := Nat.mod_lt _ (by decide)

theorem exponentField_eq (number : Number) : number.exponentField = number.pattern / 2 ^ 52 := by
  simp only [exponentField, pattern, Nat.pow_eq]
  omega

theorem fractionField_eq (number : Number) : number.fractionField = number.pattern % 2 ^ 52 := by
  simp only [fractionField, pattern, Nat.pow_eq]
  omega

theorem isFinite_iff : number.isFinite = true ↔ number.pattern < infinityBits := by
  simp only [isFinite, exponentField_eq, infinityBits, Nat.pow_eq, decide_eq_true_eq]
  omega

theorem significand_eq (number : Number) : number.significand = Pattern.steps number.pattern := by
  simp only [significand, exponentField_eq, fractionField_eq, Pattern.steps, Nat.pow_eq]

theorem exponent_eq (number : Number) : number.exponent = Pattern.unit number.pattern := by
  simp only [exponent, exponentField_eq, Pattern.unit]

theorem value_pattern (number : Number) :
    Pattern.value number.pattern = number.significand * 2 ^ number.exponent := by
  rw [Pattern.value, significand_eq, exponent_eq]

theorem significand_eq_zero_iff : number.significand = 0 ↔ number.pattern = 0 := by
  rw [significand_eq, Pattern.steps]
  split <;> omega

@[ext] theorem ext_sign (sign : number.isNegative = other.isNegative)
    (same : number.pattern = other.pattern) : number = other := by
  simp only [isNegative, pattern, Nat.pow_eq, decide_eq_decide] at sign same
  have first := number.bits.toNat_lt
  have second := other.bits.toNat_lt
  obtain ⟨bits⟩ := number
  obtain ⟨bits'⟩ := other
  have bits_eq : bits.toNat = bits'.toNat := by
    dsimp only at first second sign same
    omega
  rw [UInt64.toNat_inj.mp bits_eq]

theorem toNat_bits_abs (number : Number) : number.abs.bits.toNat = number.pattern :=
  UInt64.toNat_ofNat_of_lt' (number.pattern_lt.trans (by decide))

@[simp] theorem pattern_abs (number : Number) : number.abs.pattern = number.pattern := by
  rw [pattern, toNat_bits_abs, Nat.mod_eq_of_lt number.pattern_lt]

@[simp] theorem isNegative_abs (number : Number) : number.abs.isNegative = false := by
  rw [isNegative, toNat_bits_abs, decide_eq_false_iff_not, not_le]
  exact number.pattern_lt

theorem abs_eq_self (positive : number.isNegative = false) : number.abs = number :=
  ext_sign (by rw [isNegative_abs, positive]) number.pattern_abs

/-- A quotient is read as a finite number if and only if it is rounded to it. -/
theorem nearest_eq_abs_iff {numerator denominator : Nat} (positive : 0 < denominator)
    (finite : number.isFinite) :
    nearest numerator denominator = number.abs ↔
      Pattern.Rounds (numerator / denominator : ℚ) number.pattern := by
  have rounds := rounds_nearestPattern numerator positive
  rw [isFinite_iff] at finite
  rw [nearest_eq]
  constructor
  · intro read
    have same : min (nearestPattern numerator denominator) infinityBits = number.pattern := by
      rw [← toNat_bits_abs, ← read]
      exact (UInt64.toNat_ofNat_of_lt' ((Nat.min_le_right _ _).trans_lt (by decide))).symm
    rwa [← (by omega : nearestPattern numerator denominator = number.pattern)]
  · intro rounds'
    rw [rounds.unique rounds', Nat.min_eq_left finite.le]
    rfl

theorem isNegative_nearest (numerator denominator : Nat) :
    (nearest numerator denominator).isNegative = false := by
  have bounded : min (nearestPattern numerator denominator) infinityBits < 2 ^ 63 :=
    (Nat.min_le_right _ _).trans_lt (by decide)
  rw [nearest_eq, isNegative, UInt64.toNat_ofNat_of_lt' (bounded.trans (by decide)),
    decide_eq_false_iff_not, not_le]
  exact bounded

end Number

end Lox
