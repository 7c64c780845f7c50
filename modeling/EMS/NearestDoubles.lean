import EMS.IntegerDoubles
import Mathlib.Tactic.Linarith

/-!
# Rounding to the nearest double

The double that a number is rounded to is no farther from it than any other
double.  The exponent is chosen such that the leading bit of the number becomes
that of the mantissa; a double with a smaller exponent is then below the least
number of that bit, and of the doubles with this exponent or a greater one the
rounded mantissa gives the nearest.  The file shows this for sums of doubles and
for integers, in the logical model of `Float`.
-/

namespace Doubles

open Float.Model Float.Model.UnpackedFloat

/-! ## The rounded mantissa -/

theorem shiftRight_bits (mantissa k : Nat) :
    ((ExtendedMantissa.mk mantissa false false >>> k).roundBit = true ↔
      2 ^ k ≤ 2 * (mantissa % 2 ^ k)) ∧
    ((ExtendedMantissa.mk mantissa false false >>> k).stickyBit = true ↔
      mantissa % 2 ^ k ≠ 0 ∧ 2 * (mantissa % 2 ^ k) ≠ 2 ^ k) := by
  induction k with
  | zero => simp [HShiftRight.hShiftRight, Nat.repeat, Nat.mod_one]
  | succ k induction =>
      have digit : mantissa % 2 ^ (k + 1) =
          mantissa % 2 ^ k + 2 ^ k * (mantissa / 2 ^ k % 2) := by
        rw [Nat.pow_succ, Nat.mod_mul]
      have below : mantissa % 2 ^ k < 2 ^ k := Nat.mod_lt _ (by positivity)
      have bit := Nat.mod_two_eq_zero_or_one (mantissa / 2 ^ k)
      rw [shiftRight_succ, ExtendedMantissa.shiftRightOne, digit, Nat.pow_succ]
      simp only [shiftRight_mantissa, bne_iff_ne, Bool.or_eq_true, induction.1,
        induction.2]
      rcases bit with even | odd
      · rw [even]
        omega
      · rw [odd]
        omega

/-- The rounded mantissa is at most half a unit away. -/
theorem roundedMantissa_near (mantissa k : Nat) :
    2 * ((ExtendedMantissa.mk mantissa false false >>> k).roundedMantissa *
      2 ^ k) ≤
        2 * mantissa + 2 ^ k ∧
      2 * mantissa ≤
        2 * ((ExtendedMantissa.mk mantissa false false >>> k).roundedMantissa *
          2 ^ k) + 2 ^ k := by
  obtain ⟨round, sticky⟩ := shiftRight_bits mantissa k
  have quotient := shiftRight_mantissa (.mk mantissa false false) k
  have division := Nat.div_add_mod mantissa (2 ^ k)
  have below : mantissa % 2 ^ k < 2 ^ k := Nat.mod_lt _ (by positivity)
  generalize ExtendedMantissa.mk mantissa false false >>> k = shifted at *
  obtain ⟨shifted, roundBit, stickyBit⟩ := shifted
  simp only at round sticky quotient
  rw [← quotient, Nat.mul_comm] at division
  generalize mantissa % 2 ^ k = rest at *
  generalize 2 ^ k = unit at *
  cases roundBit <;> cases stickyBit <;>
    simp only [ExtendedMantissa.roundedMantissa, ExtendedMantissa.accuracy,
      Accuracy.roundToNearestEven, Bool.false_eq_true, false_iff, true_iff]
        at round sticky ⊢
  · omega
  · omega
  · rcases Nat.mod_two_eq_zero_or_one shifted with even | odd
    · rw [even, Nat.add_zero]
      omega
    · rw [odd, Nat.add_mul]
      omega
  · rw [Nat.add_mul]
    omega

/-! ## The nearest number of a mantissa and an exponent -/

/-- The numbers of canonical mantissas and exponents, zero among them. -/
def OnGrid (q : ℚ) : Prop :=
  ∃ (sign : Sign) (mantissa : Nat) (exponent : Int),
    Canonical mantissa exponent ∧ q = (sign.apply mantissa : ℤ) * 2 ^ exponent

theorem nearest_multiple {q unit : ℚ} (positive : 0 < unit) {r : Int}
    (near : 2 * |r * unit - q| ≤ unit) (j : Int) :
    |r * unit - q| ≤ |j * unit - q| := by
  by_cases same : j = r
  · rw [same]
  · have apart : (1 : ℚ) ≤ |(j : ℚ) - r| := by
      rw [← Int.cast_sub, ← Int.cast_abs]
      exact_mod_cast Int.one_le_abs (sub_ne_zero.mpr same)
    have distance : unit ≤ |j * unit - r * unit| := by
      rw [← sub_mul, abs_mul, abs_of_pos positive]
      exact le_mul_of_one_le_left positive.le apart
    have triangle := abs_sub_le (j * unit) q (r * unit)
    rw [abs_sub_comm q] at triangle
    linarith

theorem apply_le (sign : Sign) (mantissa : Nat) :
    |(sign.apply mantissa : ℤ)| = mantissa := by
  cases sign <;> simp [Sign.apply]

theorem below_binade {mantissa : Nat} {exponent shift : Int}
    (canonical : Canonical mantissa exponent)
    (smaller : exponent < shift) (sign : Sign) :
    ((sign.apply mantissa : ℤ) : ℚ) * 2 ^ exponent ≤ 2 ^ 52 * 2 ^ shift := by
  have magnitude : ((sign.apply mantissa : ℤ) : ℚ) ≤ mantissa := by
    have bound := le_abs_self (sign.apply mantissa : ℤ)
    rw [apply_le] at bound
    exact_mod_cast bound
  have below : (mantissa : ℚ) ≤ 2 ^ 53 := by exact_mod_cast canonical.below.le
  calc ((sign.apply mantissa : ℤ) : ℚ) * 2 ^ exponent ≤ 2 ^ 53 * 2 ^ exponent :=
        mul_le_mul_of_nonneg_right (magnitude.trans below) (by positivity)
    _ ≤ 2 ^ 53 * 2 ^ (shift - 1) :=
        mul_le_mul_of_nonneg_left (zpow_le_zpow_right₀ (by norm_num) (by omega))
          (by positivity)
    _ = 2 ^ 52 * 2 ^ shift := by
        rw [zpow_sub_one₀ (by norm_num)]
        ring

/-- What is rounded in the unit of its leading bit is rounded to the nearest
number. -/
theorem nearest_grid {q g : ℚ} {shift : Int} {r : Int}
    (near : 2 * |(r : ℚ) * 2 ^ shift - q| ≤ 2 ^ shift)
    (large : 2 ^ 52 * 2 ^ shift ≤ q)
    (grid : OnGrid g) : |(r : ℚ) * 2 ^ shift - q| ≤ |g - q| := by
  have unit : (0 : ℚ) < 2 ^ shift := by positivity
  obtain ⟨sign, mantissa, exponent, canonical, rfl⟩ := grid
  rcases lt_or_ge exponent shift with smaller | greater
  · have below := below_binade canonical smaller sign
    calc |(r : ℚ) * 2 ^ shift - q| ≤ |((2 ^ 52 : ℤ) : ℚ) * 2 ^ shift - q| :=
          nearest_multiple unit near (2 ^ 52)
      _ = q - 2 ^ 52 * 2 ^ shift := by
          rw [abs_sub_comm]
          push_cast
          exact abs_of_nonneg (by linarith)
      _ ≤ q - ((sign.apply mantissa : ℤ) : ℚ) * 2 ^ exponent := by linarith
      _ ≤ |((sign.apply mantissa : ℤ) : ℚ) * 2 ^ exponent - q| := by
          rw [abs_sub_comm]
          exact le_abs_self _
  · obtain ⟨k, rfl⟩ : ∃ k : Nat, exponent = shift + k :=
      ⟨(exponent - shift).toNat, by omega⟩
    have multiple : ((sign.apply mantissa : ℤ) : ℚ) * 2 ^ (shift + k) =
        ((sign.apply mantissa * 2 ^ k : ℤ) : ℚ) * 2 ^ shift := by
      rw [zpow_add₀ (by norm_num), zpow_natCast]
      push_cast
      ring
    rw [multiple]
    exact nearest_multiple unit near _

/-- The value is on the grid, and as near to the number as anything on it. -/
structure NearestOnGrid (r q : ℚ) : Prop where
  grid : OnGrid r
  nearest : ∀ g, OnGrid g → |r - q| ≤ |g - q|

theorem OnGrid.neg {q : ℚ} (grid : OnGrid q) : OnGrid (-q) := by
  obtain ⟨sign, mantissa, exponent, canonical, rfl⟩ := grid
  refine ⟨-sign, mantissa, exponent, canonical, ?_⟩
  have flipped : ((-sign).apply mantissa : ℤ) = -sign.apply mantissa := by
    cases sign with
    | positive => rfl
    | negative => exact (Int.neg_neg _).symm
  rw [flipped, Int.cast_neg, neg_mul]

theorem NearestOnGrid.neg {r q : ℚ} (nearest : NearestOnGrid r q) :
    NearestOnGrid (-r) (-q) := by
  refine ⟨nearest.grid.neg, ?_⟩
  intro g grid
  have flipped := nearest.nearest (-g) grid.neg
  rw [← abs_neg, ← abs_neg (g - -q)]
  convert flipped using 2 <;> ring

theorem NearestOnGrid.self {q : ℚ} (grid : OnGrid q) : NearestOnGrid q q :=
  ⟨grid, fun g _ => by rw [sub_self, abs_zero]; exact abs_nonneg _⟩

theorem NearestOnGrid.signed {mantissa mantissa' : Nat}
    {exponent exponent' : Int}
    (nearest : NearestOnGrid (mantissa' * 2 ^ exponent')
      (mantissa * 2 ^ exponent)) (sign : Sign) :
    NearestOnGrid ((sign.apply mantissa' : ℤ) * 2 ^ exponent')
      ((sign.apply mantissa : ℤ) * 2 ^ exponent) := by
  cases sign with
  | positive => simpa [Sign.apply] using nearest
  | negative => simpa [Sign.apply] using nearest.neg

theorem onGrid_natural {mantissa : Nat} {exponent : Int}
    (canonical : Canonical mantissa exponent) :
    OnGrid (mantissa * 2 ^ exponent) :=
  ⟨.positive, mantissa, exponent, canonical, by simp [Sign.apply]⟩

/-- Digits that are shifted out are rounded to the nearest number. -/
theorem roundWithAccuracy_nearest (sign : Sign) {mantissa k : Nat}
    {exponent : Int}
    (bits : mantissa.log2 = 52 + k) (least : -1074 ≤ exponent + k) :
    ∃ mantissa' exponent' positive,
      roundWithAccuracy Format.binary64 sign mantissa exponent .exact =
        .finite sign mantissa' exponent' positive ∧
          Canonical mantissa' exponent' ∧
      NearestOnGrid (mantissa' * 2 ^ exponent') (mantissa * 2 ^ exponent) := by
  obtain ⟨mantissa', exponent', positive, rounded, canonical, amount⟩ :=
    roundWithAccuracy_long sign bits least
  refine ⟨mantissa', exponent', positive, rounded, canonical,
    onGrid_natural canonical, ?_⟩
  obtain ⟨low, -⟩ :=
    (Nat.log2_eq_iff (by rintro rfl; simp at bits; omega)).mp bits
  obtain ⟨above, below⟩ := roundedMantissa_near mantissa k
  generalize (ExtendedMantissa.mk mantissa false false >>> k).roundedMantissa =
    r at *
  have power : (2 : ℚ) ^ exponent * 2 ^ k = 2 ^ (exponent + k) := by
    rw [zpow_add₀ (by norm_num), zpow_natCast]
  have unit : (0 : ℚ) < 2 ^ exponent := by positivity
  have split : ((r : ℤ) : ℚ) * 2 ^ (exponent + k) - mantissa * 2 ^ exponent =
      (r * 2 ^ k - mantissa) * 2 ^ exponent := by
    rw [← power]
    push_cast
    ring
  have above' : 2 * ((r : ℚ) * 2 ^ k) ≤ 2 * mantissa + 2 ^ k := by
    exact_mod_cast above
  have below' : 2 * (mantissa : ℚ) ≤ 2 * (r * 2 ^ k) + 2 ^ k := by
    exact_mod_cast below
  have close : 2 * |(r : ℚ) * 2 ^ k - mantissa| ≤ 2 ^ k := by
    rw [← abs_two, ← abs_mul, abs_le, abs_two]
    constructor <;> linarith
  have near : 2 * |((r : ℤ) : ℚ) * 2 ^ (exponent + k) - mantissa *
      2 ^ exponent| ≤
      2 ^ (exponent + k) := by
    calc 2 * |((r : ℤ) : ℚ) * 2 ^ (exponent + k) - mantissa * 2 ^ exponent|
          = 2 * |(r : ℚ) * 2 ^ k - mantissa| * 2 ^ exponent := by
          rw [split, abs_mul, abs_of_pos unit, mul_assoc]
      _ ≤ 2 ^ k * 2 ^ exponent := mul_le_mul_of_nonneg_right close unit.le
      _ = 2 ^ (exponent + k) := by rw [mul_comm, power]
  have large : (2 : ℚ) ^ 52 * 2 ^ (exponent + k) ≤ mantissa * 2 ^ exponent := by
    rw [← power, mul_comm ((2 : ℚ) ^ exponent), ← mul_assoc, ← pow_add]
    exact mul_le_mul_of_nonneg_right (by exact_mod_cast low) unit.le
  intro g grid
  rw [amount]
  exact nearest_grid near large grid

theorem round_nearest (sign : Sign) {mantissa : Nat} {exponent : Int}
    (positive : 0 < mantissa)
    (least : -1074 ≤ exponent) :
    ∃ mantissa' exponent' positive',
      round Format.binary64 sign mantissa exponent =
        .finite sign mantissa' exponent' positive' ∧
          Canonical mantissa' exponent' ∧
      NearestOnGrid (mantissa' * 2 ^ exponent') (mantissa * 2 ^ exponent) := by
  by_cases longer : 52 < mantissa.log2
  · have kept : (exponent - max (mantissa.log2 + exponent - 52) (-1074)).toNat =
      0 := by omega
    simp only [UnpackedFloat.round, targetExponent_eq, decreaseExponent, kept,
      Nat.shiftLeft_zero,
      Int.natCast_zero, sub_zero]
    exact roundWithAccuracy_nearest sign (k := mantissa.log2 - 52)
      (by omega) (by omega)
  · -- nothing is shifted out
    have canonical := canonical_shift positive (by omega) least rfl
    generalize (exponent - max (mantissa.log2 + exponent - 52) (-1074)).toNat =
      k at canonical
    have positive' : 0 < mantissa * 2 ^ k := by positivity
    have same : (mantissa : ℚ) * 2 ^ exponent =
        (mantissa * 2 ^ k : ℕ) * 2 ^ (exponent - k) := by
      rw [zpow_split (sub_add_cancel exponent (k : Int)).symm]
      push_cast
      ring
    refine ⟨_, _, positive', round_exact sign canonical positive' same,
      canonical, ?_⟩
    rw [← same]
    exact .self (same ▸ onGrid_natural canonical)

/-! ## Finite doubles -/

/-- The double is finite, and no other is nearer to the number. -/
def Nearest (x : Float) (q : ℚ) : Prop :=
  ∃ r, HasValue x r ∧ ∀ y g, HasValue y g → |r - q| ≤ |g - q|

theorem HasValue.nearest {x : Float} {q : ℚ} (value : HasValue x q) :
    Nearest x q :=
  ⟨q, value, fun y g _ => by rw [sub_self, abs_zero]; exact abs_nonneg _⟩

theorem nearest_of_unpack {x y : Float} {q : ℚ}
    (same : y.toModel.unpack = x.toModel.unpack)
    (nearest : Nearest x q) : Nearest y q := by
  obtain ⟨r, value, least⟩ := nearest
  exact ⟨r, hasValue_of_unpack same value, least⟩

theorem HasValue.onGrid {x : Float} {q : ℚ} (value : HasValue x q) :
    OnGrid q := by
  rcases value.cases with ⟨sign, -, rfl⟩ |
    ⟨sign, mantissa, exponent, positive, unpacked, rfl⟩
  · exact ⟨.positive, 0, -1074, ⟨by decide, le_rfl, .inr rfl⟩, by
      simp [Sign.apply]⟩
  · exact ⟨sign, mantissa, exponent, (unpack_canonical unpacked).1, rfl⟩

/-- The largest double. -/
def largest : ℚ := (2 ^ 53 - 1) * 2 ^ (971 : ℤ)

theorem largest_eq : largest = 2 ^ 1024 - 2 * 2 ^ 970 := by
  rw [largest, zpow_ofNat, sub_mul, one_mul, ← pow_add, ← pow_succ']

theorem onGrid_largest : OnGrid largest := by
  refine ⟨.positive, 2 ^ 53 - 1, 971,
    ⟨by decide, by decide, .inl (by decide)⟩, ?_⟩
  simp only [largest, Sign.apply]
  congr 1
  norm_num

theorem HasValue.le_largest {x : Float} {q : ℚ} (value : HasValue x q) :
    |q| ≤ largest := by
  rcases value.cases with ⟨sign, -, rfl⟩ |
    ⟨sign, mantissa, exponent, positive, unpacked, rfl⟩
  · rw [abs_zero, largest]
    norm_num
  · obtain ⟨canonical, most⟩ := unpack_canonical unpacked
    have magnitude : |((sign.apply mantissa : ℤ) : ℚ)| = mantissa := by
      rw [← Int.cast_abs, apply_le, Int.cast_natCast]
    have below : (mantissa : ℚ) + 1 ≤ 2 ^ 53 := by
      exact_mod_cast canonical.below
    have power : (2 : ℚ) ^ exponent ≤ 2 ^ (971 : ℤ) :=
      zpow_le_zpow_right₀ (by norm_num) most
    rw [abs_mul, magnitude,
      abs_of_pos (by positivity : (0 : ℚ) < 2 ^ exponent), largest]
    exact mul_le_mul (by linarith) power (by positivity) (by norm_num)

/-- A number that is nearer to the largest double than to the next power of two
is not rounded to that power. -/
theorem NearestOnGrid.exponent_le {mantissa : Nat} {exponent : Int} {q : ℚ}
    (nearest : NearestOnGrid (mantissa * 2 ^ exponent) q)
    (canonical : Canonical mantissa exponent)
    (bound : q < 2 ^ 1024 - 2 ^ 970) : exponent ≤ 971 := by
  by_contra above
  have full : 2 ^ 52 ≤ mantissa := canonical.full.resolve_right (by omega)
  have power : (2 : ℚ) ^ (972 : ℤ) ≤ 2 ^ exponent :=
    zpow_le_zpow_right₀ (by norm_num) (by omega)
  have large : (2 : ℚ) ^ 1024 ≤ mantissa * 2 ^ exponent := by
    have top : (2 : ℚ) ^ 1024 = 2 ^ 52 * 2 ^ (972 : ℤ) := by
      rw [zpow_ofNat, ← pow_add]
    rw [top]
    exact mul_le_mul (by exact_mod_cast full) power (by positivity)
      (by positivity)
  have near := nearest.nearest largest onGrid_largest
  have value := largest_eq
  have positive : (0 : ℚ) < 2 ^ 970 := by positivity
  generalize (2 : ℚ) ^ 970 = unit at *
  generalize (2 : ℚ) ^ 1024 = top at *
  have distance : unit < mantissa * 2 ^ exponent - q := by
    linarith only [large, bound]
  rw [abs_of_pos (positive.trans distance)] at near
  have shorter : |largest - q| ≤ unit ∨ |largest - q| = largest - q := by
    rcases abs_cases (largest - q) with ⟨isAbs, -⟩ | ⟨isAbs, -⟩
    · exact .inr isAbs
    · left
      linarith only [isAbs, value, bound]
  rcases shorter with small | below
  · linarith only [small, near, distance]
  · linarith only [below, near, value, large, positive]

theorem nearest_of_round {x : Float} {sign : Sign} {mantissa : Nat}
    {exponent : Int}
    {result : UnpackedFloat} (packed : x.toModel = Float.Model.pack result)
    (rounded : ∃ mantissa' exponent' positive,
      result = .finite sign mantissa' exponent' positive ∧
        Canonical mantissa' exponent' ∧
        NearestOnGrid (mantissa' * 2 ^ exponent') (mantissa * 2 ^ exponent))
    (bound : (mantissa : ℚ) * 2 ^ exponent < 2 ^ 1024 - 2 ^ 970) :
    Nearest x ((sign.apply mantissa : ℤ) * 2 ^ exponent) := by
  obtain ⟨mantissa', exponent', positive, rfl, canonical, nearest⟩ := rounded
  have most := nearest.exponent_le canonical bound
  have unpacked : x.toModel.unpack =
      .finite sign mantissa' exponent' positive := by
    rw [packed, unpack_pack, unpack_pack_finite sign canonical positive most]
  exact ⟨_, hasValue_finite unpacked,
    fun y g value => (nearest.signed sign).nearest g value.onGrid⟩

theorem nearest_normalize {x : Float} {mantissa exponent : Int}
    (least : -1074 ≤ exponent)
    (packed : x.toModel = Float.Model.pack
      (normalize Format.binary64 mantissa exponent .positive))
    (bound : |(mantissa : ℚ) * 2 ^ exponent| < 2 ^ 1024 - 2 ^ 970) :
    Nearest x (mantissa * 2 ^ exponent) := by
  have power : (0 : ℚ) < 2 ^ exponent := by positivity
  rw [abs_mul, abs_of_pos power] at bound
  rcases lt_trichotomy mantissa 0 with below | rfl | above
  · obtain ⟨n, rfl⟩ : ∃ n : Nat, mantissa = -n := ⟨(-mantissa).toNat, by omega⟩
    simp only [UnpackedFloat.normalize, ← cmp_eq_compare, below.cmp_eq_lt,
      Int.neg_neg,
      Int.toNat_natCast] at packed
    have near :=
      nearest_of_round packed (round_nearest .negative (by omega) least)
      (by simpa using bound)
    simpa [Sign.apply] using near
  · simp only [UnpackedFloat.normalize, ← cmp_eq_compare,
      cmp_self_eq_eq] at packed
    rw [Int.cast_zero, zero_mul]
    apply HasValue.nearest
    apply hasValue_zero
    rw [packed, unpack_pack]
    exact unpack_packedZero .positive
  · obtain ⟨n, rfl⟩ : ∃ n : Nat, mantissa = n := ⟨mantissa.toNat, by omega⟩
    simp only [UnpackedFloat.normalize, ← cmp_eq_compare, above.cmp_eq_gt,
      Int.toNat_natCast]
      at packed
    have near :=
      nearest_of_round packed (round_nearest .positive (by omega) least)
      (by simpa using bound)
    simpa [Sign.apply] using near

/-! ## Sums and integers -/

/-- A sum of two doubles is rounded to the nearest double. -/
theorem HasValue.add {x y : Float} {a b : ℚ} (first : HasValue x a)
    (second : HasValue y b)
    (bound : |a + b| < 2 ^ 1024 - 2 ^ 970) : Nearest (x + y) (a + b) := by
  have converted : (x + y).toModel = Float.Model.pack
      (UnpackedFloat.add Format.binary64 x.toModel.unpack y.toModel.unpack) :=
        rfl
  rcases first.cases with
    ⟨sign₁, left, rfl⟩ |
      ⟨sign₁, mantissa₁, exponent₁, positive₁, left, amount₁⟩ <;>
    rcases second.cases with
      ⟨sign₂, right, rfl⟩ |
        ⟨sign₂, mantissa₂, exponent₂, positive₂, right, amount₂⟩
  · rw [left, right] at converted
    simp only [UnpackedFloat.add] at converted
    rw [add_zero]
    apply HasValue.nearest
    split at converted
    · exact hasValue_zero
        (by rw [converted, unpack_pack]; exact unpack_packedZero sign₁)
    · exact hasValue_zero
        (by rw [converted, unpack_pack]; exact unpack_packedZero .positive)
  · have same : UnpackedFloat.add Format.binary64 x.toModel.unpack
        y.toModel.unpack =
        y.toModel.unpack := by
      rw [left, right]
      rfl
    rw [same] at converted
    rw [zero_add]
    exact (hasValue_of_unpack (by rw [converted, unpack_repack]) second).nearest
  · have same : UnpackedFloat.add Format.binary64 x.toModel.unpack
        y.toModel.unpack =
        x.toModel.unpack := by
      rw [left, right]
      rfl
    rw [same] at converted
    rw [add_zero]
    exact (hasValue_of_unpack (by rw [converted, unpack_repack]) first).nearest
  · have least₁ := (unpack_canonical left).1.least
    have least₂ := (unpack_canonical right).1.least
    rw [left, right] at converted
    simp only [UnpackedFloat.add] at converted
    have sum : (((sign₁.apply
        (decreaseExponent mantissa₁ exponent₁ (min exponent₁ exponent₂)).1 :
        ℤ) +
        sign₂.apply (decreaseExponent mantissa₂ exponent₂
          (min exponent₁ exponent₂)).1 : ℤ) : ℚ) *
          2 ^ min exponent₁ exponent₂ = a + b := by
      rw [Int.cast_add, add_mul, decreaseExponent_value _ _ (min_le_left _ _),
        decreaseExponent_value _ _ (min_le_right _ _), amount₁, amount₂]
    have near :=
      nearest_normalize (le_min least₁ least₂) converted
        (by rw [sum]; exact bound)
    rwa [sum] at near

theorem Nearest.neg {x : Float} {q : ℚ} (nearest : Nearest x q) :
    Nearest (Float.neg x) (-q) := by
  obtain ⟨r, value, least⟩ := nearest
  refine ⟨-r, value.neg, ?_⟩
  intro y g other
  have flipped := least (Float.neg y) (-g) other.neg
  rw [← abs_neg, ← abs_neg (g - -q)]
  convert flipped using 2 <;> ring

theorem nearest_ofNat {n : Nat} (bound : (n : ℚ) < 2 ^ 1024 - 2 ^ 970) :
    Nearest (Float.ofNat n) n := by
  by_cases small : n < 2 ^ 53
  · have value := isInt_iff.mp (isNat_ofNat small).isInt
    exact (by simpa using value : HasValue (Float.ofNat n) n).nearest
  · have bits : (n * 2 ^ 53).log2 = 52 + (n.log2 + 1) := by
      rw [log2_mul_two_pow 53 (by omega)]
      omega
    have amount : ((n * 2 ^ 53 : ℕ) : ℚ) * 2 ^ (-53 : ℤ) = n := by
      rw [zpow_neg, zpow_ofNat, Nat.cast_mul, Nat.cast_pow,
        Nat.cast_ofNat, mul_assoc,
        mul_inv_cancel₀ (by positivity), mul_one]
    have near := nearest_of_round (ofNat_large (by omega))
      (roundWithAccuracy_nearest .positive bits (by omega : -1074 ≤ -53 + _))
      (by rw [amount]; exact bound)
    simpa only [Sign.apply, Int.cast_natCast, amount] using near

theorem nearest_ofInt {k : Int} (bound : |(k : ℚ)| < 2 ^ 1024 - 2 ^ 970) :
    Nearest (Float.ofInt k) k := by
  cases k with
  | ofNat n => exact nearest_ofNat ((le_abs_self _).trans_lt bound)
  | negSucc n =>
      rw [Int.cast_negSucc, abs_neg] at bound
      rw [Int.cast_negSucc]
      exact (nearest_ofNat ((le_abs_self _).trans_lt bound)).neg

end Doubles
