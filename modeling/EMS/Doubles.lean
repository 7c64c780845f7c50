import Mathlib

/-!
# The order of doubles through their differences

A difference of two doubles is rounded, yet its sign is the order of the two:
doubles are multiples of the least positive double, so a difference that is
not zero does not round to zero.  The file proves this for the logical model
of `Float`, together with the exactness of sums and products of natural
numbers below `2 ^ 53`.
-/

namespace Doubles

open Float.Model Float.Model.UnpackedFloat

/-! ## Values -/

/-- The rational number of a finite double. -/
def value : UnpackedFloat → ℚ
  | .finite sign mantissa exponent _ => (sign.apply mantissa : ℤ) * 2 ^ exponent
  | _ => 0

/-- The place of a double in the order of doubles. -/
def rank : UnpackedFloat → WithBot (WithTop ℚ)
  | .infinity .negative => ⊥
  | .infinity .positive => ((⊤ : WithTop ℚ) : WithBot (WithTop ℚ))
  | other => ((value other : WithTop ℚ) : WithBot (WithTop ℚ))

def signOrdering : Sign → Ordering
  | .negative => .lt
  | .positive => .gt

/-- The sign of a double, where neither zero nor NaN has one. -/
def unpackedSign : UnpackedFloat → Ordering
  | .infinity sign => signOrdering sign
  | .finite sign _ _ _ => signOrdering sign
  | _ => .eq

/-- The comparison of a double with zero, where NaN counts as zero. -/
def sign (x : Float) : Ordering :=
  if x < 0 then .lt else if 0 < x then .gt else .eq

theorem unpack_zero : (0 : Float).toModel.unpack = .zero .positive := by
  rfl

theorem lt_iff (x y : Float) :
    x < y ↔ x.toModel.unpack.compare y.toModel.unpack = some .lt := by
  change decide (x.toModel.lt y.toModel = true) = true ↔ _
  simp [Float.Model.lt, UnpackedFloat.lt]

theorem sign_eq (x : Float) : sign x = unpackedSign x.toModel.unpack := by
  unfold sign
  simp only [lt_iff, unpack_zero]
  rcases x.toModel.unpack with (_ | _) | _ | _ | ⟨_ | _, _, _, _⟩ <;> rfl

/-! ## Rounding -/

/-- The mantissas and exponents of doubles, the largest exponents apart. -/
structure Canonical (mantissa : Nat) (exponent : Int) : Prop where
  below : mantissa < 2 ^ 53
  least : -1074 ≤ exponent
  full : 2 ^ 52 ≤ mantissa ∨ exponent = -1074

theorem targetExponent_eq (mantissa : Nat) (exponent : Int) :
    Format.binary64.targetExponent (totalExponent mantissa exponent) =
      max (mantissa.log2 + exponent - 52) (-1074) := by
  simp only [Format.targetExponent, totalExponent, Format.mantissaBits,
    Format.minExponent]
  norm_num
  omega

theorem shiftRight_succ (em : ExtendedMantissa) (k : Nat) :
    em >>> (k + 1) = (em >>> k).shiftRightOne :=
  rfl

theorem shiftRight_mantissa (em : ExtendedMantissa) (k : Nat) :
    (em >>> k).mantissa = em.mantissa / 2 ^ k := by
  induction k with
  | zero => simp [HShiftRight.hShiftRight, Nat.repeat]
  | succ k induction =>
      rw [shiftRight_succ, ExtendedMantissa.shiftRightOne, induction]
      rw [Nat.div_div_eq_div_mul, Nat.pow_succ]

theorem shiftRight_exact (quotient k : Nat) :
    (ExtendedMantissa.mk (quotient * 2 ^ k) false false) >>> k =
      ⟨quotient, false, false⟩ := by
  induction k generalizing quotient with
  | zero => simp [HShiftRight.hShiftRight, Nat.repeat]
  | succ k induction =>
      have twice : quotient * 2 ^ (k + 1) = 2 * quotient * 2 ^ k := by ring
      rw [shiftRight_succ, twice, induction, ExtendedMantissa.shiftRightOne]
      simp

theorem roundedMantissa_bounds (em : ExtendedMantissa) :
    em.mantissa ≤ em.roundedMantissa ∧ em.roundedMantissa ≤
      em.mantissa + 1 := by
  obtain ⟨mantissa, roundBit, stickyBit⟩ := em
  cases roundBit <;> cases stickyBit <;>
    simp only [ExtendedMantissa.roundedMantissa, ExtendedMantissa.accuracy,
      Accuracy.roundToNearestEven] <;> omega

theorem log2_of_full {mantissa : Nat} (full : 2 ^ 52 ≤ mantissa)
    (below : mantissa < 2 ^ 53) :
    mantissa.log2 = 52 := by
  rw [Nat.log2_eq_iff (by omega)]
  exact ⟨full, below⟩

/-- A canonical mantissa is shifted no further. -/
theorem Canonical.target {mantissa : Nat} {exponent : Int}
    (canonical : Canonical mantissa exponent)
    (positive : 0 < mantissa) :
    Format.binary64.targetExponent (totalExponent mantissa exponent) =
      exponent := by
  rw [targetExponent_eq]
  have least := canonical.least
  rcases canonical.full with full | subnormal
  · rw [log2_of_full full canonical.below]
    omega
  · have small : mantissa.log2 < 53 :=
      (Nat.log2_lt (by omega)).mpr canonical.below
    omega

theorem shiftToTargetExponent_canonical {mantissa : Nat} {exponent : Int}
    (canonical : Canonical mantissa exponent) (positive : 0 < mantissa) :
    shiftToTargetExponent Format.binary64 mantissa exponent .exact =
      (⟨mantissa, false, false⟩, exponent) := by
  simp only [shiftToTargetExponent, shiftToExponent, canonical.target positive]
  simp [ExtendedMantissa.ofMantissaAndAccuracy,
    HShiftRight.hShiftRight, Nat.repeat]

theorem roundWithAccuracy_canonical (sign : Sign) {mantissa : Nat}
    {exponent : Int}
    (canonical : Canonical mantissa exponent) (positive : 0 < mantissa) :
    roundWithAccuracy Format.binary64 sign mantissa exponent .exact =
      .finite sign mantissa exponent positive := by
  have once := shiftToTargetExponent_canonical canonical positive
  have rounded : ExtendedMantissa.roundedMantissa ⟨mantissa, false, false⟩ =
    mantissa := rfl
  simp only [roundWithAccuracy, once, rounded]
  rw [dif_neg (by omega)]

/-- A mantissa with more bits than fit is rounded to one that fills them. -/
theorem roundWithAccuracy_long (sign : Sign) {mantissa k : Nat} {exponent : Int}
    (bits : mantissa.log2 = 52 + k) (least : -1074 ≤ exponent + k) :
    ∃ mantissa' exponent' positive,
      roundWithAccuracy Format.binary64 sign mantissa exponent .exact =
        .finite sign mantissa' exponent' positive ∧
          Canonical mantissa' exponent' ∧
      (mantissa' : ℚ) * 2 ^ exponent' =
        (ExtendedMantissa.mk mantissa false false >>> k).roundedMantissa *
          2 ^ (exponent + k) := by
  have target : Format.binary64.targetExponent
      (totalExponent mantissa exponent) =
      exponent + k := by
    rw [targetExponent_eq, bits]
    omega
  have first : shiftToTargetExponent Format.binary64 mantissa exponent .exact =
      (ExtendedMantissa.mk mantissa false false >>> k, exponent + k) := by
    simp [shiftToTargetExponent, shiftToExponent, target,
      ExtendedMantissa.ofMantissaAndAccuracy]
  obtain ⟨low, high⟩ :=
    (Nat.log2_eq_iff (by rintro rfl; simp at bits; omega)).mp bits
  have bounds :=
    roundedMantissa_bounds (ExtendedMantissa.mk mantissa false false >>> k)
  simp only [shiftRight_mantissa] at bounds
  have atLeast : 2 ^ 52 ≤ mantissa / 2 ^ k := by
    rw [Nat.le_div_iff_mul_le (by positivity), ← Nat.pow_add]
    exact low
  have atMost : mantissa / 2 ^ k < 2 ^ 53 := by
    rw [Nat.div_lt_iff_lt_mul (by positivity), ← Nat.pow_add]
    have sum : 53 + k = 52 + k + 1 := by omega
    rw [sum]
    exact high
  generalize rounded :
    (ExtendedMantissa.mk mantissa false false >>> k).roundedMantissa = value
    at bounds
  by_cases fits : value < 2 ^ 53
  · have canonical : Canonical value (exponent + k) :=
      ⟨fits, least, .inl (by omega)⟩
    have positive : 0 < value := by omega
    refine ⟨value, exponent + k, positive, ?_, canonical, rfl⟩
    simp only [roundWithAccuracy, first, rounded,
      shiftToTargetExponent_canonical canonical positive]
    rw [dif_neg (by omega)]
  · -- the carry makes the mantissa one bit longer
    have carried : value = 2 ^ 53 := by omega
    refine ⟨2 ^ 52, exponent + k +
      1, by decide, ?_, ⟨by decide, by omega, .inl le_rfl⟩, ?_⟩
    rotate_left
    · rw [carried, zpow_add_one₀ (by norm_num)]
      push_cast
      ring
    have again : Format.binary64.targetExponent
        (totalExponent (2 ^ 53) (exponent + k)) =
        exponent + k + 1 := by
      rw [targetExponent_eq, Nat.log2_two_pow]
      omega
    have second : shiftToTargetExponent Format.binary64 (2 ^ 53)
        (exponent + k) .exact =
        (⟨2 ^ 52, false, false⟩, exponent + k + 1) := by
      simp only [shiftToTargetExponent, shiftToExponent, again]
      rw [show exponent + k + 1 - (exponent + k) = 1 by omega]
      rfl
    simp only [roundWithAccuracy, first, rounded, carried, second]
    rw [dif_neg (by decide)]

theorem canonical_shift {mantissa k : Nat} {exponent : Int}
    (positive : 0 < mantissa)
    (short : mantissa.log2 ≤ 52) (least : -1074 ≤ exponent)
    (shift : (exponent - max (mantissa.log2 + exponent - 52) (-1074)).toNat =
      k) :
    Canonical (mantissa * 2 ^ k) (exponent - k) := by
  obtain ⟨low, high⟩ := (Nat.log2_eq_iff (by omega : mantissa ≠ 0)).mp rfl
  have few : mantissa.log2 + k ≤ 52 := by omega
  refine ⟨?_, by omega, ?_⟩
  · calc mantissa * 2 ^ k < 2 ^ (mantissa.log2 + 1) * 2 ^ k :=
          Nat.mul_lt_mul_of_pos_right high (by positivity)
      _ = 2 ^ (mantissa.log2 + 1 + k) := by rw [← Nat.pow_add]
      _ ≤ 2 ^ 53 := Nat.pow_le_pow_right (by decide) (by omega)
  · by_cases subnormal : exponent - k = -1074
    · exact .inr subnormal
    · have whole : mantissa.log2 + k = 52 := by omega
      left
      calc 2 ^ 52 = 2 ^ mantissa.log2 * 2 ^ k := by rw [← Nat.pow_add, whole]
        _ ≤ mantissa * 2 ^ k := Nat.mul_le_mul_right _ low

theorem round_finite (sign : Sign) {mantissa : Nat} {exponent : Int}
    (positive : 0 < mantissa)
    (least : -1074 ≤ exponent) :
    ∃ mantissa' exponent' positive',
      round Format.binary64 sign mantissa exponent =
        .finite sign mantissa' exponent' positive' ∧
          Canonical mantissa' exponent' := by
  simp only [UnpackedFloat.round, targetExponent_eq, decreaseExponent]
  generalize shift :
    (exponent - max (mantissa.log2 + exponent - 52) (-1074)).toNat = k
  by_cases longer : 52 < mantissa.log2
  · obtain rfl : k = 0 := by omega
    simp only [Nat.shiftLeft_zero, Int.natCast_zero, sub_zero]
    obtain ⟨mantissa', exponent', positive', rounded, canonical, -⟩ :=
      roundWithAccuracy_long sign
        (by omega : mantissa.log2 = 52 + (mantissa.log2 - 52))
        (by omega : -1074 ≤ exponent + _)
    exact ⟨mantissa', exponent', positive', rounded, canonical⟩
  · have canonical := canonical_shift positive (by omega) least shift
    have positive' : 0 < mantissa * 2 ^ k := by positivity
    rw [Nat.shiftLeft_eq]
    exact ⟨_, _, positive',
      roundWithAccuracy_canonical sign canonical positive', canonical⟩

/-! ## Packing -/

theorem unpack_pack (unpacked : UnpackedFloat) :
    (Float.Model.pack unpacked).unpack =
      UnpackedFloat.unpack Format.binary64
        (UnpackedFloat.pack Format.binary64 unpacked) :=
  rfl

theorem unpackSign_packComponents {spec : Format} {sign : Sign}
    {exponent mantissa} :
    Sign.ofBitVec (unpackSign (packComponents spec sign exponent mantissa)) =
      sign := by
  have bit : unpackSign (packComponents spec sign exponent mantissa) =
      sign.toBitVec := by
    ext i inside
    have first : i = 0 := by omega
    subst first
    simp [unpackSign, packComponents, BitVec.getLsbD_append,
      BitVec.getLsbD_eq_getElem,
      BitVec.getElem_append]
  rw [bit]
  cases sign <;> rfl

theorem unpack_packedInfinity (sign : Sign) :
    UnpackedFloat.unpack Format.binary64 (packedInfinity Format.binary64 sign) =
      .infinity sign := by
  simp [UnpackedFloat.unpack, packedInfinity]

theorem unpack_packedZero (sign : Sign) :
    UnpackedFloat.unpack Format.binary64 (packedZero Format.binary64 sign) =
      .zero sign := by
  simp [UnpackedFloat.unpack, packedZero]

theorem unpack_packedNaN :
    UnpackedFloat.unpack Format.binary64 (packedNaN Format.binary64) =
      .notANumber := by
  rfl

/-- A canonical double that does not overflow is packed without loss. -/
theorem unpack_pack_finite (sign : Sign) {mantissa : Nat} {exponent : Int}
    (canonical : Canonical mantissa exponent) (positive : 0 < mantissa)
    (most : exponent ≤ 971) :
    UnpackedFloat.unpack Format.binary64
        (UnpackedFloat.pack Format.binary64
          (.finite sign mantissa exponent positive)) =
      .finite sign mantissa exponent positive := by
  have below := canonical.below
  have least := canonical.least
  have bias : Format.binary64.exponentBias = 1023 := rfl
  have width : Format.binary64.mantissaBits = 53 := rfl
  simp only [UnpackedFloat.pack, bias, width]
  generalize biasedEq : (exponent + (1023 : Nat) + (52 : Nat)).toNat = biased
  rw [if_neg (by omega)]
  by_cases full : 2 ^ 52 ≤ mantissa
  · rw [if_pos (by rw [log2_of_full full below])]
    have notAll : BitVec.ofNat 11 biased ≠ -1#11 := by
      rw [Ne, ← BitVec.toNat_inj]
      simp
      omega
    have notNone : BitVec.ofNat 11 biased ≠ 0#11 := by
      rw [Ne, ← BitVec.toNat_inj]
      simp
      omega
    simp only [UnpackedFloat.unpack, unpackExponent_packComponents,
      unpackMantissa_packComponents,
      unpackSign_packComponents, bias]
    rw [if_neg notAll, if_neg notNone]
    have implicitBit : (1#1 ++ BitVec.ofNat 52 mantissa).toNat = mantissa := by
      rw [BitVec.toNat_append, ←
        Nat.shiftLeft_add_eq_or_of_lt (by exact BitVec.isLt _)]
      simp [Nat.shiftLeft_eq]
      omega
    simp only [implicitBit]
    congr 1
    rw [BitVec.toNat_ofNat, Nat.mod_eq_of_lt (by omega)]
    omega
  · have subnormal : exponent = -1074 := by
      rcases canonical.full with full' | subnormal
      · exact absurd full' full
      · exact subnormal
    have short : mantissa.log2 < 52 := (Nat.log2_lt (by omega)).mpr (by omega)
    rw [if_neg (by omega)]
    have kept : (BitVec.ofNat 52 mantissa).toNat = mantissa := by
      rw [BitVec.toNat_ofNat, Nat.mod_eq_of_lt (by omega)]
    have nonzero : BitVec.ofNat 52 mantissa ≠ 0#52 := by
      rw [Ne, ← BitVec.toNat_inj, kept]
      simp
      omega
    simp only [UnpackedFloat.unpack, unpackExponent_packComponents,
      unpackMantissa_packComponents,
      unpackSign_packComponents, bias]
    rw [if_neg (by decide), if_pos trivial, dif_neg nonzero]
    simp only [kept]
    congr 1
    rw [subnormal]
    decide

theorem unpackedSign_pack_finite (sign : Sign) {mantissa : Nat} {exponent : Int}
    (canonical : Canonical mantissa exponent) (positive : 0 < mantissa) :
    unpackedSign (UnpackedFloat.unpack Format.binary64
      (UnpackedFloat.pack Format.binary64
        (.finite sign mantissa exponent positive))) =
      signOrdering sign := by
  by_cases most : exponent ≤ 971
  · rw [unpack_pack_finite sign canonical positive most]
    rfl
  · have bias : Format.binary64.exponentBias = 1023 := rfl
    simp only [UnpackedFloat.pack, bias]
    rw [if_pos (by omega), unpack_packedInfinity]
    rfl

/-- The mantissa and the exponent of a double are canonical. -/
theorem unpack_canonical {x : Float.Model} {sign : Sign} {mantissa : Nat}
    {exponent : Int}
    {positive : 0 < mantissa}
    (unpacked : x.unpack = .finite sign mantissa exponent positive) :
    Canonical mantissa exponent ∧ exponent ≤ 971 := by
  have bias : Format.binary64.exponentBias = 1023 := rfl
  simp only [Float.Model.unpack, UnpackedFloat.unpack, bias] at unpacked
  generalize exponentField : @unpackExponent Format.binary64 x.toBits.toBitVec =
    exponentVec at unpacked
  have exponentBound : exponentVec.toNat < 2 ^ 11 := exponentVec.isLt
  have mantissaBound :
      (@unpackMantissa Format.binary64 x.toBits.toBitVec).toNat < 2 ^ 52 :=
    (@unpackMantissa Format.binary64 x.toBits.toBitVec).isLt
  split at unpacked
  case isTrue => split at unpacked <;> cases unpacked
  case isFalse notAll =>
    have notTop : exponentVec.toNat ≠ 2047 := fun top =>
      notAll (BitVec.eq_of_toNat_eq (by rw [top]; rfl))
    split at unpacked
    case isTrue zero =>
      subst zero
      split at unpacked
      case isTrue => cases unpacked
      case isFalse =>
        obtain ⟨-, rfl, rfl⟩ := UnpackedFloat.finite.inj unpacked
        refine ⟨⟨by omega, ?_, .inr ?_⟩, ?_⟩ <;> decide
    case isFalse notZero =>
      have notBottom : exponentVec.toNat ≠ 0 := fun bottom =>
        notZero (BitVec.eq_of_toNat_eq (by rw [bottom]; rfl))
      obtain ⟨-, rfl, rfl⟩ := UnpackedFloat.finite.inj unpacked
      have implicitBit :
          (1#1 ++ @unpackMantissa Format.binary64 x.toBits.toBitVec).toNat =
          2 ^ 52 + (@unpackMantissa Format.binary64
              x.toBits.toBitVec).toNat := by
        rw [BitVec.toNat_append, ← Nat.shiftLeft_add_eq_or_of_lt mantissaBound]
        rfl
      rw [implicitBit]
      refine ⟨⟨by omega, ?_, .inl (by omega)⟩, ?_⟩ <;> push_cast <;> omega

/-! ## The sign of a difference -/

theorem cmp_value_finite (sign : Sign) (mantissa : Nat) (exponent : Int)
    (positive : 0 < mantissa) :
    cmp (value (.finite sign mantissa exponent positive)) 0 =
      signOrdering sign := by
  have power : (0 : ℚ) < 2 ^ exponent := by positivity
  have amount : (0 : ℚ) < mantissa := by exact_mod_cast positive
  have product := mul_pos amount power
  cases sign with
  | negative =>
      have negative : value
          (.finite .negative mantissa exponent positive) < 0 := by
        simpa only [value, Sign.apply, Int.cast_neg, Int.cast_natCast, neg_mul,
          Left.neg_neg_iff] using product
      exact negative.cmp_eq_lt
  | positive =>
      have positive' : 0 <
          value (.finite .positive mantissa exponent positive) := by
        simpa only [value, Sign.apply, Int.cast_natCast] using product
      exact positive'.cmp_eq_gt

theorem unpackedSign_normalize (mantissa : Int) {exponent : Int}
    (least : -1074 ≤ exponent) :
    unpackedSign (Float.Model.pack
      (normalize Format.binary64 mantissa exponent .positive)).unpack =
        cmp mantissa 0 := by
  rw [unpack_pack]
  rcases lt_trichotomy mantissa 0 with below | rfl | above
  · have amount : 0 < (-mantissa).toNat := by omega
    obtain ⟨mantissa', exponent', positive', rounded, canonical⟩ :=
      round_finite .negative amount least
    simp only [UnpackedFloat.normalize, ← cmp_eq_compare,
      below.cmp_eq_lt, rounded,
      unpackedSign_pack_finite _ canonical]
    rfl
  · simp only [UnpackedFloat.normalize, ← cmp_eq_compare, cmp_self_eq_eq,
      UnpackedFloat.pack,
      unpack_packedZero]
    rfl
  · have amount : 0 < mantissa.toNat := by omega
    obtain ⟨mantissa', exponent', positive', rounded, canonical⟩ :=
      round_finite .positive amount least
    simp only [UnpackedFloat.normalize, ← cmp_eq_compare,
      above.cmp_eq_gt, rounded,
      unpackedSign_pack_finite _ canonical]
    rfl

theorem decreaseExponent_value (sign : Sign) (mantissa : Nat)
    {exponent target : Int}
    (below : target ≤ exponent) :
    ((sign.apply (decreaseExponent mantissa exponent target).1 : ℤ) : ℚ) *
      2 ^ target =
      (sign.apply mantissa : ℤ) * 2 ^ exponent := by
  obtain ⟨k, rfl⟩ : ∃ k : Nat, exponent = target + k :=
    ⟨(exponent - target).toNat, by omega⟩
  have shift : (target + (k : Int) - target).toNat = k := by omega
  rw [zpow_add₀ (by norm_num), zpow_natCast]
  simp only [decreaseExponent, shift, Nat.shiftLeft_eq]
  cases sign <;> simp only [Sign.apply] <;> push_cast <;> ring

theorem cmp_mul_right {a b power : ℚ} (positive : 0 < power) :
    cmp (a * power) (b * power) = cmp a b := by
  rcases lt_trichotomy a b with below | rfl | above
  · rw [below.cmp_eq_lt, (mul_lt_mul_of_pos_right below positive).cmp_eq_lt]
  · rw [cmp_self_eq_eq, cmp_self_eq_eq]
  · rw [above.cmp_eq_gt, (mul_lt_mul_of_pos_right above positive).cmp_eq_gt]

theorem cmp_sub_zero (a b : ℤ) : cmp (a - b) 0 = cmp (a : ℚ) b := by
  rcases lt_trichotomy a b with below | rfl | above
  · rw [(Int.cast_lt.mpr below : (a : ℚ) < b).cmp_eq_lt,
      (by omega : a - b < 0).cmp_eq_lt]
  · rw [sub_self, cmp_self_eq_eq, cmp_self_eq_eq]
  · rw [(Int.cast_lt.mpr above : (b : ℚ) < a).cmp_eq_gt,
      (by omega : 0 < a - b).cmp_eq_gt]

theorem cmp_rank_finite (a b : ℚ) :
    cmp ((a : WithTop ℚ) : WithBot (WithTop ℚ))
      ((b : WithTop ℚ) : WithBot (WithTop ℚ)) =
      cmp a b := by
  rcases lt_trichotomy a b with below | rfl | above
  · rw [below.cmp_eq_lt]
    exact (WithBot.coe_lt_coe.mpr (WithTop.coe_lt_coe.mpr below)).cmp_eq_lt
  · rw [cmp_self_eq_eq, cmp_self_eq_eq]
  · rw [above.cmp_eq_gt]
    exact (WithBot.coe_lt_coe.mpr (WithTop.coe_lt_coe.mpr above)).cmp_eq_gt

theorem unpackedSign_sub_finite {x y : Float.Model} {sign₁ sign₂ : Sign}
    {mantissa₁ mantissa₂ : Nat} {exponent₁ exponent₂ : Int}
    {positive₁ : 0 < mantissa₁}
    {positive₂ : 0 < mantissa₂}
    (first : x.unpack = .finite sign₁ mantissa₁ exponent₁ positive₁)
    (second : y.unpack = .finite sign₂ mantissa₂ exponent₂ positive₂) :
    unpackedSign (x.sub y).unpack = cmp (value x.unpack) (value y.unpack) := by
  have least : -1074 ≤ min exponent₁ exponent₂ :=
    le_min (unpack_canonical first).1.least (unpack_canonical second).1.least
  have power : (0 : ℚ) < 2 ^ min exponent₁ exponent₂ := by positivity
  rw [Float.Model.sub, first, second]
  simp only [UnpackedFloat.sub]
  rw [unpackedSign_normalize _ least, cmp_sub_zero, ← cmp_mul_right power]
  rw [decreaseExponent_value _ _ (min_le_left _ _),
    decreaseExponent_value _ _ (min_le_right _ _)]
  rfl

theorem signOrdering_neg (sign : Sign) :
    signOrdering (-sign) = (signOrdering sign).swap := by
  cases sign <;> rfl

theorem cmp_rank_infinity (sign : Sign) {other : UnpackedFloat}
    (finite : other.isInf = false) :
    cmp (rank (.infinity sign)) (rank other) = signOrdering sign := by
  have inside : rank other =
      ((value other : WithTop ℚ) : WithBot (WithTop ℚ)) := by
    cases other <;> first | rfl | cases finite
  rw [inside]
  cases sign with
  | negative => exact (WithBot.bot_lt_coe _).cmp_eq_lt
  | positive => exact (WithBot.coe_lt_coe.mpr (WithTop.coe_lt_top _)).cmp_eq_gt

theorem rank_zero (sign : Sign) :
    rank (.zero sign) = (((0 : ℚ) : WithTop ℚ) : WithBot (WithTop ℚ)) :=
  rfl

theorem cmp_rank_zero (sign sign₀ : Sign) {mantissa : Nat} {exponent : Int}
    (positive : 0 < mantissa) :
    cmp (rank (.finite sign mantissa exponent positive)) (rank (.zero sign₀)) =
      signOrdering sign := by
  rw [rank_zero]
  exact (cmp_rank_finite _ _).trans (cmp_value_finite _ _ _ _)

theorem unpackedSign_repack {x : Float.Model} :
    unpackedSign (Float.Model.pack x.unpack).unpack =
      unpackedSign x.unpack := by
  rw [unpack_pack]
  rcases unpacked : x.unpack with infinite | _ | zero |
    ⟨sign, mantissa, exponent, positive⟩
  · rw [UnpackedFloat.pack, unpack_packedInfinity]
  · rfl
  · rw [UnpackedFloat.pack, unpack_packedZero]
  · rw [unpackedSign_pack_finite _ (unpack_canonical unpacked).1]
    rfl

/-- The sign of a difference is the order of the two doubles. -/
theorem sign_sub {x y : Float} (first : x.isNaN = false)
    (second : y.isNaN = false) :
    sign (x - y) = cmp (rank x.toModel.unpack) (rank y.toModel.unpack) := by
  rw [sign_eq]
  change unpackedSign (x.toModel.sub y.toModel).unpack = _
  change x.toModel.unpack.isNaN = false at first
  change y.toModel.unpack.isNaN = false at second
  generalize x.toModel = x at first ⊢
  generalize y.toModel = y at second ⊢
  rcases left : x.unpack with infinite₁ | _ | zero₁ |
    ⟨sign₁, mantissa₁, exponent₁, positive₁⟩ <;>
    rcases right : y.unpack with infinite₂ | _ | zero₂ |
      ⟨sign₂, mantissa₂, exponent₂, positive₂⟩
  case finite.finite =>
    rw [unpackedSign_sub_finite left right, left, right]
    exact (cmp_rank_finite _ _).symm
  case finite.zero =>
    have same : UnpackedFloat.sub Format.binary64 x.unpack y.unpack =
        x.unpack := by
      rw [left, right]
      rfl
    rw [Float.Model.sub, same, unpackedSign_repack, left, cmp_rank_zero]
    rfl
  case zero.finite =>
    have negated : UnpackedFloat.sub Format.binary64 x.unpack y.unpack =
        .finite (-sign₂) mantissa₂ exponent₂ positive₂ := by
      rw [left, right]
      rfl
    rw [Float.Model.sub, negated, unpack_pack,
      unpackedSign_pack_finite _ (unpack_canonical right).1, ← cmp_swap,
      cmp_rank_zero,
      signOrdering_neg]
  case zero.zero =>
    rw [Float.Model.sub, unpack_pack, left, right, rank_zero, rank_zero,
      cmp_self_eq_eq]
    cases zero₁ <;> cases zero₂ <;> rfl
  case infinity.infinity =>
    rw [Float.Model.sub, unpack_pack, left, right]
    cases infinite₁ <;> cases infinite₂
    · rw [cmp_self_eq_eq]
      rfl
    · rfl
    · rfl
    · rw [cmp_self_eq_eq]
      rfl
  case infinity.zero | infinity.finite =>
    rw [cmp_rank_infinity _ rfl, Float.Model.sub, unpack_pack, left, right]
    simp only [UnpackedFloat.sub, UnpackedFloat.pack, unpack_packedInfinity,
      unpackedSign]
  case zero.infinity | finite.infinity =>
    rw [← cmp_swap, cmp_rank_infinity _ rfl, Float.Model.sub, unpack_pack,
      left, right]
    simp only [UnpackedFloat.sub, UnpackedFloat.pack, unpack_packedInfinity,
      unpackedSign,
      signOrdering_neg]
  all_goals simp_all [UnpackedFloat.isNaN]

theorem sign_sub_nan {x y : Float} (nan : x.isNaN = true ∨ y.isNaN = true) :
    sign (x - y) = .eq := by
  rw [sign_eq]
  change unpackedSign (x.toModel.sub y.toModel).unpack = _
  change x.toModel.unpack.isNaN = true ∨ y.toModel.unpack.isNaN = true at nan
  rw [Float.Model.sub, unpack_pack]
  generalize x.toModel.unpack = first at nan ⊢
  generalize y.toModel.unpack = second at nan ⊢
  have result : UnpackedFloat.sub Format.binary64 first second =
      .notANumber := by
    cases first <;> cases second <;> simp_all [UnpackedFloat.isNaN,
      UnpackedFloat.sub]
  rw [result]
  rfl

/-! ## The order of doubles -/

theorem lt_of_exponent_lt {mantissa₁ mantissa₂ : Nat}
    {exponent₁ exponent₂ : Int}
    (canonical₁ : Canonical mantissa₁ exponent₁)
    (canonical₂ : Canonical mantissa₂ exponent₂)
    (below : exponent₁ < exponent₂) :
    (mantissa₁ : ℚ) * 2 ^ exponent₁ < mantissa₂ * 2 ^ exponent₂ := by
  have full : 2 ^ 52 ≤ mantissa₂ := by
    have least := canonical₁.least
    rcases canonical₂.full with full | subnormal
    · exact full
    · omega
  have short : (mantissa₁ : ℚ) < 2 ^ 53 := by exact_mod_cast canonical₁.below
  have long : (2 : ℚ) ^ 52 ≤ mantissa₂ := by exact_mod_cast full
  have power : (0 : ℚ) < 2 ^ exponent₁ := by positivity
  have doubled : (2 : ℚ) ^ (exponent₁ + 1) ≤ 2 ^ exponent₂ :=
    zpow_le_zpow_right₀ (by norm_num) (by omega)
  calc (mantissa₁ : ℚ) * 2 ^ exponent₁ < 2 ^ 53 * 2 ^ exponent₁ :=
        mul_lt_mul_of_pos_right short power
    _ = 2 ^ 52 * 2 ^ (exponent₁ + 1) := by
        rw [zpow_add₀ (by norm_num)]
        ring
    _ ≤ 2 ^ 52 * 2 ^ exponent₂ := by gcongr
    _ ≤ mantissa₂ * 2 ^ exponent₂ := by gcongr

theorem compare_magnitudes {mantissa₁ mantissa₂ : Nat}
    {exponent₁ exponent₂ : Int}
    (canonical₁ : Canonical mantissa₁ exponent₁)
    (canonical₂ : Canonical mantissa₂ exponent₂) :
    (compare exponent₁ exponent₂).then (compare mantissa₁ mantissa₂) =
      cmp ((mantissa₁ : ℚ) * 2 ^ exponent₁) (mantissa₂ * 2 ^ exponent₂) := by
  rcases lt_trichotomy exponent₁ exponent₂ with below | rfl | above
  · rw [← cmp_eq_compare, below.cmp_eq_lt,
      (lt_of_exponent_lt canonical₁ canonical₂ below).cmp_eq_lt]
    rfl
  · have power : (0 : ℚ) < 2 ^ exponent₁ := by positivity
    rw [← cmp_eq_compare, cmp_self_eq_eq, cmp_mul_right power, ← cmp_eq_compare]
    rcases lt_trichotomy mantissa₁ mantissa₂ with less | rfl | more
    · rw [less.cmp_eq_lt,
        (Nat.cast_lt.mpr less : (mantissa₁ : ℚ) < mantissa₂).cmp_eq_lt]
      rfl
    · rw [cmp_self_eq_eq, cmp_self_eq_eq]
      rfl
    · rw [more.cmp_eq_gt,
        (Nat.cast_lt.mpr more : (mantissa₂ : ℚ) < mantissa₁).cmp_eq_gt]
      rfl
  · rw [← cmp_eq_compare, above.cmp_eq_gt,
      (lt_of_exponent_lt canonical₂ canonical₁ above).cmp_eq_gt]
    rfl

theorem cmp_neg_neg (a b : ℚ) : cmp (-a) (-b) = (cmp a b).swap := by
  rw [cmp_swap]
  rcases lt_trichotomy a b with below | rfl | above
  · rw [below.cmp_eq_gt, (neg_lt_neg below).cmp_eq_gt]
  · rw [cmp_self_eq_eq, cmp_self_eq_eq]
  · rw [above.cmp_eq_lt, (neg_lt_neg above).cmp_eq_lt]

/-- The comparison of two doubles is that of their places in the order. -/
theorem compare_eq {x y : Float.Model} (first : x.unpack.isNaN = false)
    (second : y.unpack.isNaN = false) :
    x.unpack.compare y.unpack = some (cmp (rank x.unpack) (rank y.unpack)) := by
  rcases left : x.unpack with infinite₁ | _ | zero₁ |
    ⟨sign₁, mantissa₁, exponent₁, positive₁⟩ <;>
    rcases right : y.unpack with infinite₂ | _ | zero₂ |
      ⟨sign₂, mantissa₂, exponent₂, positive₂⟩
  case finite.finite =>
    have canonical₁ := (unpack_canonical left).1
    have canonical₂ := (unpack_canonical right).1
    have magnitudes := compare_magnitudes canonical₁ canonical₂
    have signs₁ := cmp_value_finite sign₁ mantissa₁ exponent₁ positive₁
    have signs₂ := cmp_value_finite sign₂ mantissa₂ exponent₂ positive₂
    have ranks : cmp (rank (.finite sign₁ mantissa₁ exponent₁ positive₁))
        (rank (.finite sign₂ mantissa₂ exponent₂ positive₂)) =
        cmp (value (.finite sign₁ mantissa₁ exponent₁ positive₁))
          (value (.finite sign₂ mantissa₂ exponent₂ positive₂)) :=
            cmp_rank_finite _ _
    rw [ranks]
    cases sign₁ <;> cases sign₂
    · simp only [UnpackedFloat.compare, value, Sign.apply, magnitudes]
      push_cast
      rw [neg_mul, neg_mul, cmp_neg_neg]
    · have below := (cmp_eq_lt_iff _ _).mp signs₁
      have above := (cmp_eq_gt_iff _ _).mp signs₂
      rw [(below.trans above).cmp_eq_lt]
      rfl
    · have above := (cmp_eq_gt_iff _ _).mp signs₁
      have below := (cmp_eq_lt_iff _ _).mp signs₂
      rw [(below.trans above).cmp_eq_gt]
      rfl
    · simp only [UnpackedFloat.compare, value, Sign.apply, magnitudes]
      push_cast
      rfl
  case finite.zero =>
    rw [cmp_rank_zero]
    cases sign₁ <;> rfl
  case zero.finite =>
    rw [← cmp_swap, cmp_rank_zero]
    cases sign₂ <;> rfl
  case zero.zero =>
    rw [rank_zero, rank_zero, cmp_self_eq_eq]
    rfl
  case infinity.infinity =>
    cases infinite₁ <;> cases infinite₂
    · rw [cmp_self_eq_eq]
      rfl
    · rfl
    · rfl
    · rw [cmp_self_eq_eq]
      rfl
  case infinity.zero | infinity.finite =>
    rw [cmp_rank_infinity _ rfl]
    cases infinite₁ <;> rfl
  case zero.infinity | finite.infinity =>
    rw [← cmp_swap, cmp_rank_infinity _ rfl]
    cases infinite₂ <;> rfl
  all_goals simp_all [UnpackedFloat.isNaN]

theorem not_nan_of_lt {x y : Float} (below : x < y) :
    x.isNaN = false ∧ y.isNaN = false := by
  rw [lt_iff] at below
  change x.toModel.unpack.isNaN = false ∧ y.toModel.unpack.isNaN = false
  generalize x.toModel.unpack = first at below ⊢
  generalize y.toModel.unpack = second at below ⊢
  cases first <;> cases second <;> simp_all [UnpackedFloat.compare,
    UnpackedFloat.isNaN]

theorem nan_or_not (x y : Float) :
    (x.isNaN = false ∧ y.isNaN = false) ∨
    (x.isNaN = true ∨ y.isNaN = true) := by
  cases x.isNaN <;> cases y.isNaN <;> simp

theorem lt_iff_sign (x y : Float) : x < y ↔ sign (x - y) = .lt := by
  rcases nan_or_not x y with ⟨first, second⟩ | none
  · rw [sign_sub first second, lt_iff, compare_eq first second]
    simp
  · rw [sign_sub_nan none]
    constructor
    · intro below
      obtain ⟨first, second⟩ := not_nan_of_lt below
      rw [first, second] at none
      rcases none with wrong | wrong <;> cases wrong
    · intro equal
      cases equal

theorem sign_sub_swap (x y : Float) : sign (y - x) = (sign (x - y)).swap := by
  rcases nan_or_not x y with ⟨first, second⟩ | none
  · rw [sign_sub first second, sign_sub second first, cmp_swap]
  · rw [sign_sub_nan none, sign_sub_nan none.symm]
    rfl

theorem lt_trans {x y z : Float} (first : x < y) (second : y < z) : x < z := by
  have nan₁ := not_nan_of_lt first
  have nan₂ := not_nan_of_lt second
  rw [lt_iff_sign, sign_sub nan₁.1 nan₁.2, cmp_eq_lt_iff] at first
  rw [lt_iff_sign, sign_sub nan₂.1 nan₂.2, cmp_eq_lt_iff] at second
  rw [lt_iff_sign, sign_sub nan₁.1 nan₂.2, cmp_eq_lt_iff]
  exact first.trans second

theorem lt_irrefl (x : Float) : ¬ x < x := by
  intro below
  have swapped := sign_sub_swap x x
  rw [(lt_iff_sign x x).mp below] at swapped
  cases swapped

/-! ## Natural numbers -/

/-- The double is the natural number. -/
def IsNat (x : Float) (n : Nat) : Prop :=
  (∃ mantissa exponent positive,
    x.toModel.unpack = .finite .positive mantissa exponent positive ∧
      exponent ≤ 0 ∧
      mantissa = n * 2 ^ (-exponent).toNat) ∨
  x.toModel.unpack = .zero .positive ∧ n = 0

theorem IsNat.isNaN {x : Float} {n : Nat} (natural : IsNat x n) :
    x.isNaN = false := by
  change x.toModel.unpack.isNaN = false
  rcases natural with ⟨_, _, _, unpacked, _⟩ | ⟨unpacked, _⟩ <;>
    rw [unpacked] <;> rfl

theorem IsNat.rank {x : Float} {n : Nat} (natural : IsNat x n) :
    rank x.toModel.unpack = (((n : ℚ) : WithTop ℚ) : WithBot (WithTop ℚ)) := by
  rcases natural with ⟨mantissa, exponent, positive, unpacked, below, amount⟩ |
    ⟨unpacked, rfl⟩
  · have exact : value x.toModel.unpack = n := by
      obtain ⟨k, rfl⟩ : ∃ k : Nat, exponent = -k :=
        ⟨(-exponent).toNat, by omega⟩
      rw [unpacked, value, Sign.apply, amount]
      simp
    rw [← exact, unpacked]
    rfl
  · rw [unpacked]
    rfl

theorem IsNat.sign_sub {x y : Float} {a b : Nat} (first : IsNat x a)
    (second : IsNat y b) :
    sign (x - y) = compare a b := by
  rw [Doubles.sign_sub first.isNaN second.isNaN, first.rank, second.rank,
    cmp_rank_finite,
    ← cmp_eq_compare]
  rcases lt_trichotomy a b with below | rfl | above
  · rw [below.cmp_eq_lt, (Nat.cast_lt.mpr below : (a : ℚ) < b).cmp_eq_lt]
  · rw [cmp_self_eq_eq, cmp_self_eq_eq]
  · rw [above.cmp_eq_gt, (Nat.cast_lt.mpr above : (b : ℚ) < a).cmp_eq_gt]

/-- Truncation gives the natural number back. -/
theorem IsNat.toInt {x : Float} {n : Nat} (natural : IsNat x n)
    (low high : Int) :
    x.toModel.unpack.toInt low high = n := by
  rcases natural with ⟨mantissa, exponent, positive, unpacked, below, amount⟩ |
    ⟨unpacked, rfl⟩
  · have kept : (exponent - 0).toNat = 0 := by omega
    have shift : (0 - (exponent - (0 : Nat))).toNat = (-exponent).toNat := by
      omega
    rw [unpacked]
    simp only [UnpackedFloat.toInt, roundToInt, decreaseExponent, kept,
      Nat.shiftLeft_zero,
      shiftToExponent, shift, ExtendedMantissa.ofMantissaAndAccuracy, amount,
      shiftRight_exact,
      Sign.apply]
  · rw [unpacked]
    rfl

theorem beq_self {x : Float} (number : x.isNaN = false) : (x == x) = true := by
  change (x.toModel.unpack.compare x.toModel.unpack == some .eq) = true
  change x.toModel.unpack.isNaN = false at number
  rw [compare_eq number number, cmp_self_eq_eq]
  rfl

theorem log2_mul_two_pow {n : Nat} (k : Nat) (positive : 0 < n) :
    (n * 2 ^ k).log2 = n.log2 + k := by
  obtain ⟨low, high⟩ := (Nat.log2_eq_iff (by omega : n ≠ 0)).mp rfl
  rw [Nat.log2_eq_iff (by positivity), Nat.add_right_comm, Nat.pow_add,
    Nat.pow_add]
  exact ⟨Nat.mul_le_mul_right _ low,
    Nat.mul_lt_mul_of_pos_right high (by positivity)⟩

theorem roundWithAccuracy_exact (sign : Sign) {mantissa : Nat} {exponent : Int}
    (canonical : Canonical mantissa exponent)
    (positive : 0 < mantissa) (k : Nat) :
    roundWithAccuracy Format.binary64 sign (mantissa * 2 ^ k)
      (exponent - k) .exact =
      .finite sign mantissa exponent positive := by
  have same : totalExponent (mantissa * 2 ^ k) (exponent - k) =
      totalExponent mantissa exponent := by
    simp only [totalExponent, log2_mul_two_pow k positive]
    omega
  have shift : (exponent - (exponent - k)).toNat = k := by omega
  have first : shiftToTargetExponent Format.binary64 (mantissa * 2 ^ k)
      (exponent - k) .exact =
      (⟨mantissa, false, false⟩, exponent) := by
    simp only [shiftToTargetExponent, shiftToExponent, same,
      canonical.target positive, shift,
      ExtendedMantissa.ofMantissaAndAccuracy, shiftRight_exact]
    congr 1
    omega
  have rounded : ExtendedMantissa.roundedMantissa ⟨mantissa, false, false⟩ =
    mantissa := rfl
  simp only [roundWithAccuracy, first, rounded,
    shiftToTargetExponent_canonical canonical positive]
  rw [dif_neg (by omega)]

theorem exists_canonical {n : Nat} (positive : 0 < n) (below : n < 2 ^ 53) :
    ∃ zeros : Nat, n.log2 + zeros = 52 ∧
      Canonical (n * 2 ^ zeros) (-zeros) := by
  have short : n.log2 < 53 := (Nat.log2_lt (by omega)).mpr below
  obtain ⟨low, high⟩ := (Nat.log2_eq_iff (by omega : n ≠ 0)).mp rfl
  obtain ⟨zeros, whole⟩ : ∃ zeros, n.log2 + zeros = 52 :=
    ⟨52 - n.log2, by omega⟩
  refine ⟨zeros, whole, ?_, by omega, .inl ?_⟩
  · calc n * 2 ^ zeros < 2 ^ (n.log2 + 1) * 2 ^ zeros :=
          Nat.mul_lt_mul_of_pos_right high (by positivity)
      _ = 2 ^ 53 := by rw [← Nat.pow_add, Nat.add_right_comm, whole]
  · calc 2 ^ 52 = 2 ^ n.log2 * 2 ^ zeros := by rw [← Nat.pow_add, whole]
      _ ≤ n * 2 ^ zeros := Nat.mul_le_mul_right _ low

theorem roundWithAccuracy_nat {mantissa n : Nat} {exponent : Int}
    (positive : 0 < n)
    (below : n < 2 ^ 53) (least : exponent ≤ 0)
    (amount : mantissa = n * 2 ^ (-exponent).toNat)
    (reached : exponent ≤ n.log2 - 52) :
    ∃ mantissa' exponent' positive',
      roundWithAccuracy Format.binary64 .positive mantissa exponent .exact =
        .finite .positive mantissa' exponent' positive' ∧
          Canonical mantissa' exponent' ∧
        exponent' ≤ 0 ∧ mantissa' = n * 2 ^ (-exponent').toNat := by
  obtain ⟨zeros, whole, canonical⟩ := exists_canonical positive below
  obtain ⟨k, split⟩ : ∃ k : Nat, exponent = -zeros - k :=
    ⟨(-zeros - exponent).toNat, by omega⟩
  have positive' : 0 < n * 2 ^ zeros := by positivity
  have exact := roundWithAccuracy_exact .positive canonical positive' k
  have power : (-exponent).toNat = zeros + k := by omega
  rw [← split, Nat.mul_assoc, ← Nat.pow_add, ← power, ← amount] at exact
  refine ⟨_, _, positive', exact, canonical, by omega, ?_⟩
  rw [Int.neg_neg, Int.toNat_natCast]

theorem exponent_of_nat {x : Float.Model} {mantissa n : Nat} {exponent : Int}
    {positive : 0 < mantissa}
    (unpacked : x.unpack = .finite .positive mantissa exponent positive)
    (least : exponent ≤ 0) (amount : mantissa = n * 2 ^ (-exponent).toNat) :
    0 < n ∧ exponent = n.log2 - 52 := by
  obtain ⟨canonical, -⟩ := unpack_canonical unpacked
  have nonzero : n ≠ 0 := by
    rintro rfl
    simp [amount] at positive
  have bits : mantissa.log2 = n.log2 + (-exponent).toNat := by
    rw [amount, log2_mul_two_pow _ (by omega)]
  have short : mantissa.log2 < 53 :=
    (Nat.log2_lt (by omega)).mpr canonical.below
  rcases canonical.full with full | subnormal
  · have long := log2_of_full full canonical.below
    omega
  · omega

theorem isNat_of_round {x : Float} {result : UnpackedFloat} {n : Nat}
    (packed : x.toModel = Float.Model.pack result)
    (rounded : ∃ mantissa exponent positive,
      result = .finite .positive mantissa exponent positive ∧
        Canonical mantissa exponent ∧
        exponent ≤ 0 ∧ mantissa = n * 2 ^ (-exponent).toNat) : IsNat x n := by
  obtain ⟨mantissa, exponent, positive, rfl, canonical, least, amount⟩ :=
    rounded
  refine .inl ⟨mantissa, exponent, positive, ?_, least, amount⟩
  rw [packed, unpack_pack, unpack_pack_finite _ canonical positive (by omega)]

theorem normalize_nat {mantissa n : Nat} {exponent : Int} (positive : 0 < n)
    (below : n < 2 ^ 53) (least : exponent ≤ 0)
    (amount : mantissa = n * 2 ^ (-exponent).toNat) :
    ∃ mantissa' exponent' positive',
      normalize Format.binary64 mantissa exponent .positive =
        .finite .positive mantissa' exponent' positive' ∧
          Canonical mantissa' exponent' ∧
        exponent' ≤ 0 ∧ mantissa' = n * 2 ^ (-exponent').toNat := by
  have small : n.log2 < 53 := (Nat.log2_lt (by omega)).mpr below
  have positiveMantissa : 0 < mantissa := by
    rw [amount]
    positivity
  have bits : mantissa.log2 = n.log2 + (-exponent).toNat := by
    rw [amount, log2_mul_two_pow _ positive]
  have target : Format.binary64.targetExponent
      (totalExponent mantissa exponent) =
      n.log2 - 52 := by
    rw [targetExponent_eq, bits]
    omega
  have above : (0 : Int) < mantissa := by omega
  simp only [UnpackedFloat.normalize, ← cmp_eq_compare, above.cmp_eq_gt,
    Int.toNat_natCast,
    UnpackedFloat.round, target, decreaseExponent]
  generalize shift : (exponent - ((n.log2 : Int) - 52)).toNat = k
  apply roundWithAccuracy_nat positive below (by omega) _ (by omega)
  rw [amount, Nat.shiftLeft_eq, Nat.mul_assoc, ← Nat.pow_add]
  congr 2
  omega

theorem IsNat.mul {x y : Float} {a b : Nat} (first : IsNat x a)
    (second : IsNat y b)
    (below : a * b < 2 ^ 53) : IsNat (x * y) (a * b) := by
  have converted : (x * y).toModel = Float.Model.pack
      (UnpackedFloat.mul Format.binary64 x.toModel.unpack y.toModel.unpack) :=
        rfl
  rcases first with ⟨mantissa₁, exponent₁, positive₁, left, least₁, amount₁⟩ |
    ⟨left, rfl⟩ <;>
    rcases second with ⟨mantissa₂, exponent₂, positive₂, right, least₂,
      amount₂⟩ | ⟨right, rfl⟩
  · apply isNat_of_round converted
    obtain ⟨positiveA, exponentA⟩ := exponent_of_nat left least₁ amount₁
    obtain ⟨positiveB, exponentB⟩ := exponent_of_nat right least₂ amount₂
    have logs : a.log2 + b.log2 ≤ (a * b).log2 := by
      rw [Nat.le_log2 (by positivity), Nat.pow_add]
      exact Nat.mul_le_mul (Nat.log2_self_le (by omega))
        (Nat.log2_self_le (by omega))
    rw [left, right]
    apply roundWithAccuracy_nat (by positivity) below (by omega)
    · have shifts : (-(exponent₁ + exponent₂)).toNat =
          (-exponent₁).toNat + (-exponent₂).toNat := by omega
      rw [amount₁, amount₂, shifts, Nat.pow_add]
      ring
    · omega
  all_goals
    refine .inr ⟨?_, by simp⟩
    rw [converted, left, right, unpack_pack]
    exact unpack_packedZero .positive

theorem IsNat.add {x y : Float} {a b : Nat} (first : IsNat x a)
    (second : IsNat y b)
    (below : a + b < 2 ^ 53) : IsNat (x + y) (a + b) := by
  have converted : (x + y).toModel = Float.Model.pack
      (UnpackedFloat.add Format.binary64 x.toModel.unpack y.toModel.unpack) :=
        rfl
  rcases first with ⟨mantissa₁, exponent₁, positive₁, left, least₁, amount₁⟩ |
    ⟨left, rfl⟩ <;>
    rcases second with ⟨mantissa₂, exponent₂, positive₂, right, least₂,
      amount₂⟩ | ⟨right, rfl⟩
  · apply isNat_of_round converted
    obtain ⟨positiveA, -⟩ := exponent_of_nat left least₁ amount₁
    rw [left, right]
    simp only [UnpackedFloat.add, decreaseExponent,
      Sign.apply, ← Int.natCast_add]
    apply normalize_nat (by omega) below (by omega)
    rw [amount₁, amount₂, Nat.shiftLeft_eq, Nat.shiftLeft_eq, Nat.mul_assoc,
      Nat.mul_assoc,
      ← Nat.pow_add, ← Nat.pow_add, Nat.add_mul]
    congr 3 <;> omega
  · rw [Nat.add_zero]
    refine .inl ⟨mantissa₁, exponent₁, positive₁, ?_, least₁, amount₁⟩
    rw [converted, left, right, unpack_pack]
    exact unpack_pack_finite _ (unpack_canonical left).1 _
      (unpack_canonical left).2
  · rw [Nat.zero_add]
    refine .inl ⟨mantissa₂, exponent₂, positive₂, ?_, least₂, amount₂⟩
    rw [converted, left, right, unpack_pack]
    exact unpack_pack_finite _ (unpack_canonical right).1 _
      (unpack_canonical right).2
  · refine .inr ⟨?_, rfl⟩
    rw [converted, left, right, unpack_pack]
    rfl

theorem isNat_toFloat {n : UInt64} (below : n.toNat < 2 ^ 53) :
    IsNat n.toFloat n.toNat := by
  have converted : n.toFloat.toModel =
      Float.Model.pack (normalize Format.binary64 n.toNat 0 .positive) := rfl
  by_cases zero : n.toNat = 0
  · refine .inr ⟨?_, zero⟩
    rw [converted, zero]
    rfl
  · apply isNat_of_round converted
    exact normalize_nat (Nat.pos_of_ne_zero zero) below le_rfl (by simp)

theorem isNat_one : IsNat (Float.ofBits 0x3FF0000000000000) 1 :=
  .inl ⟨2 ^ 52, -52, by decide, rfl, by decide, by decide⟩

theorem isNat_ofNat {n : Nat} (below : n < 2 ^ 53) :
    IsNat (Float.ofNat n) n := by
  have fast : Float.ofNat n =
      n.toUInt64.toFloat * Float.ofBits 0x3FF0000000000000 := by
    simp only [Float.ofNat, OfScientific.ofScientific, Float.ofScientific]
    rw [dif_pos ⟨below, by decide⟩]
    rfl
  have kept : n.toUInt64.toNat = n := Nat.mod_eq_of_lt (by omega)
  have converted := isNat_toFloat (n := n.toUInt64) (by rw [kept]; exact below)
  rw [kept] at converted
  have product := converted.mul isNat_one (by omega)
  rwa [Nat.mul_one, ← fast] at product

end Doubles
