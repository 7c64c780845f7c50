import Mathlib.Data.Int.Log
import Mathlib.Data.Rat.Floor
import Mathlib.Tactic.Ring
import Mathlib.Tactic.Linarith
import Mathlib.Tactic.Positivity

/-!
# Rounding to 53 bits

The result of an operation on doubles is the exact result, rounded to the
nearest number with 53 significant bits.  The integers up to `2 ^ 53` are such
numbers, and rounding does not carry a number across one of them.  Beyond them
only even integers are left.  There is no largest exponent here.
-/

namespace Rounding

/-- The nearest integer, of two that are equally near the even one. -/
def roundEven (x : ℚ) : ℤ :=
  let below := ⌊x⌋
  if x - below < 1 / 2 then below
  else if 1 / 2 < x - below then below + 1
  else if below % 2 = 0 then below else below + 1

theorem le_roundEven {m : ℤ} {x : ℚ} (below : (m : ℚ) ≤ x) :
    m ≤ roundEven x := by
  have floor : m ≤ ⌊x⌋ := Int.le_floor.mpr below
  unfold roundEven
  simp only
  split_ifs <;> omega

theorem roundEven_le {m : ℤ} {x : ℚ} (above : x ≤ m) : roundEven x ≤ m := by
  have floor : ⌊x⌋ ≤ m := Int.cast_le.mp ((Int.floor_le x).trans above)
  rcases floor.eq_or_lt with same | less
  · have whole : x - ⌊x⌋ < 1 / 2 := by
      rw [same]
      linarith
    simp only [roundEven, whole, if_true]
    exact floor
  · unfold roundEven
    simp only
    split_ifs <;> omega

/-- The exponent of the last of 53 bits. -/
def lastBit (x : ℚ) : ℤ := max (Int.log 2 x - 52) (-1074)

/-- The nearest number with 53 bits to one that is positive. -/
def roundPositive (x : ℚ) : ℚ := roundEven (x / 2 ^ lastBit x) * 2 ^ lastBit x

/-- The nearest number with 53 bits. -/
def roundDouble (x : ℚ) : ℚ :=
  if x = 0 then 0 else if 0 < x then roundPositive x else -roundPositive (-x)

/-- A number that 53 bits hold. -/
def IsDouble (x : ℚ) : Prop := roundDouble x = x

instance (x : ℚ) : Decidable (IsDouble x) := inferInstanceAs (Decidable (_ = _))

section Positive

variable {x : ℚ}

theorem ulp_pos (e : ℤ) : (0 : ℚ) < 2 ^ e := zpow_pos two_pos e

theorem le_roundPositive {m : ℤ} (below : m * 2 ^ lastBit x ≤ x) :
    m * 2 ^ lastBit x ≤ roundPositive x := by
  have scaled : (m : ℚ) ≤ x / 2 ^ lastBit x :=
    (le_div_iff₀ (ulp_pos _)).mpr below
  apply mul_le_mul_of_nonneg_right _ (ulp_pos _).le
  exact_mod_cast le_roundEven scaled

theorem roundPositive_le {m : ℤ} (above : x ≤ m * 2 ^ lastBit x) :
    roundPositive x ≤ m * 2 ^ lastBit x := by
  have scaled : x / 2 ^ lastBit x ≤ m := (div_le_iff₀ (ulp_pos _)).mpr above
  apply mul_le_mul_of_nonneg_right _ (ulp_pos _).le
  exact_mod_cast roundEven_le scaled

theorem multiple_of_small (small : lastBit x ≤ 0) (m : ℤ) :
    ∃ k : ℤ, (m : ℚ) = k * 2 ^ lastBit x := by
  obtain ⟨places, same⟩ := Int.exists_eq_neg_ofNat small
  refine ⟨m * 2 ^ places, ?_⟩
  rw [same, zpow_neg, zpow_natCast]
  push_cast
  field_simp

theorem lastBit_small (positive : 0 < x) (below : x < 2 ^ 53) :
    lastBit x ≤ 0 := by
  have log : Int.log 2 x < 53 := by
    apply (Int.lt_zpow_iff_log_lt (by decide) positive).mp
    exact_mod_cast below
  unfold lastBit
  omega

theorem leading_bit (large : 2 ^ 53 ≤ x) :
    1 ≤ lastBit x ∧ (2 : ℚ) ^ 53 ≤ 2 ^ 52 * 2 ^ lastBit x ∧
      2 ^ 52 * 2 ^ lastBit x ≤ x := by
  have positive : 0 < x := lt_of_lt_of_le (by positivity) large
  have log : 53 ≤ Int.log 2 x := by
    apply (Int.zpow_le_iff_le_log (by decide) positive).mp
    exact_mod_cast large
  have last : lastBit x = Int.log 2 x - 52 := by
    unfold lastBit
    omega
  have product : (2 : ℚ) ^ 52 * 2 ^ lastBit x = 2 ^ Int.log 2 x := by
    rw [last, ← zpow_natCast, ← zpow_add₀ (by decide)]
    congr 1
    omega
  refine ⟨by omega, ?_, ?_⟩
  · rw [product, ← zpow_natCast]
    exact zpow_le_zpow_right₀ (by decide) log
  · rw [product]
    exact_mod_cast Int.zpow_log_le_self (b := 2) (by decide) positive

theorem le_roundPositive_nat {m : ℤ} (small : m ≤ 2 ^ 53) (positive : 0 < x)
    (below : m ≤ x) :
    m ≤ roundPositive x := by
  by_cases large : 2 ^ 53 ≤ x
  · obtain ⟨-, leading, inside⟩ := leading_bit large
    have kept :=
      le_roundPositive (x := x) (m := 2 ^ 52) (by exact_mod_cast inside)
    have bound : (m : ℚ) ≤ 2 ^ 53 := by exact_mod_cast small
    push_cast at kept
    linarith
  · obtain ⟨k, same⟩ :=
      multiple_of_small (lastBit_small positive (not_le.mp large)) m
    rw [same] at below ⊢
    exact le_roundPositive below

theorem roundPositive_le_nat {m : ℤ} (small : m ≤ 2 ^ 53) (positive : 0 < x)
    (above : x ≤ m) :
    roundPositive x ≤ m := by
  have bound : (m : ℚ) ≤ 2 ^ 53 := by exact_mod_cast small
  by_cases large : 2 ^ 53 ≤ x
  · obtain ⟨-, leading, inside⟩ := leading_bit large
    have whole : x = ((2 ^ 52 : ℤ) : ℚ) * 2 ^ lastBit x := by
      push_cast
      linarith
    exact (roundPositive_le whole.le).trans (whole ▸ above)
  · obtain ⟨k, same⟩ :=
      multiple_of_small (lastBit_small positive (not_le.mp large)) m
    rw [same] at above ⊢
    exact roundPositive_le above

theorem roundPositive_even (large : 2 ^ 53 ≤ x) : ∃ k : ℤ,
    roundPositive x = (2 * k : ℤ) := by
  obtain ⟨integral, -, -⟩ := leading_bit large
  obtain ⟨places, same⟩ :=
    Int.eq_ofNat_of_zero_le (a := lastBit x - 1) (by omega)
  refine ⟨roundEven (x / 2 ^ lastBit x) * 2 ^ places, ?_⟩
  have split : lastBit x = places + 1 := by
    change lastBit x - 1 = (places : ℤ) at same
    omega
  rw [roundPositive, split, zpow_add₀ (by decide), zpow_natCast]
  push_cast
  ring

end Positive

section Double

variable {x : ℚ} {m : ℤ}

theorem le_roundDouble (lower : -2 ^ 53 ≤ m) (upper : m ≤ 2 ^ 53)
    (below : m ≤ x) :
    m ≤ roundDouble x := by
  unfold roundDouble
  split_ifs with zero positive
  · rwa [zero] at below
  · exact le_roundPositive_nat upper positive below
  · have negative : 0 < -x := by
      rcases lt_trichotomy x 0 with less | same | greater
      · linarith
      · exact absurd same zero
      · exact absurd greater positive
    have bounded : roundPositive (-x) ≤ ((-m : ℤ) : ℚ) := by
      apply roundPositive_le_nat (by omega) negative
      push_cast
      linarith
    push_cast at bounded
    linarith

theorem roundDouble_le (lower : -2 ^ 53 ≤ m) (upper : m ≤ 2 ^ 53)
    (above : x ≤ m) :
    roundDouble x ≤ m := by
  unfold roundDouble
  split_ifs with zero positive
  · rwa [zero] at above
  · exact roundPositive_le_nat upper positive above
  · have negative : 0 < -x := by
      rcases lt_trichotomy x 0 with less | same | greater
      · linarith
      · exact absurd same zero
      · exact absurd greater positive
    have bounded : ((-m : ℤ) : ℚ) ≤ roundPositive (-x) := by
      apply le_roundPositive_nat (by omega) negative
      push_cast
      linarith
    push_cast at bounded
    linarith

theorem roundDouble_int (lower : -2 ^ 53 ≤ m) (upper : m ≤ 2 ^ 53) :
    roundDouble m = m :=
  le_antisymm (roundDouble_le lower upper le_rfl)
    (le_roundDouble lower upper le_rfl)

theorem roundDouble_even (large : 2 ^ 53 ≤ |x|) : ∃ k : ℤ,
    roundDouble x = (2 * k : ℤ) := by
  unfold roundDouble
  split_ifs with zero positive
  · exact ⟨0, by simp⟩
  · rw [abs_of_pos positive] at large
    exact roundPositive_even large
  · rw [abs_of_nonpos (not_lt.mp positive)] at large
    obtain ⟨k, same⟩ := roundPositive_even large
    refine ⟨-k, ?_⟩
    rw [same]
    push_cast
    ring

theorem roundDouble_ne_odd {z : ℤ} (odd : z % 2 = 1)
    (large : z < -2 ^ 53 ∨ 2 ^ 53 < z) :
    roundDouble x ≠ z := by
  intro same
  by_cases small : |x| < 2 ^ 53
  · obtain ⟨lower, upper⟩ := abs_lt.mp small
    have above := le_roundDouble (x := x) (m := -2 ^ 53) le_rfl (by omega) (by
      push_cast
      linarith)
    have below := roundDouble_le (x := x) (m := 2 ^ 53) (by omega) le_rfl (by
      push_cast
      linarith)
    rw [same] at above below
    have above' : -2 ^ 53 ≤ z := by exact_mod_cast above
    have below' : z ≤ 2 ^ 53 := by exact_mod_cast below
    omega
  · obtain ⟨k, even⟩ := roundDouble_even (not_lt.mp small)
    rw [same] at even
    have equal : z = 2 * k := by exact_mod_cast even
    omega

theorem roundDouble_integral (m : ℤ) : ∃ k : ℤ, roundDouble m = k := by
  by_cases small : |(m : ℚ)| < 2 ^ 53
  · obtain ⟨lower, upper⟩ := abs_lt.mp small
    refine ⟨m, roundDouble_int ?_ ?_⟩
    · exact_mod_cast lower.le
    · exact_mod_cast upper.le
  · obtain ⟨k, even⟩ := roundDouble_even (not_lt.mp small)
    exact ⟨_, even⟩

end Double

example : roundDouble (2 ^ 53 + 1) = 2 ^ 53 := by
  decide +kernel

end Rounding
