import EMS.Doubles

/-!
# Doubles that are integers

A result that is a double already is not rounded.  The file proves this for the
logical model of `Float`, and from it that conversions, sums, products and
comparisons of integers are exact as long as the integers are doubles.
-/

namespace Doubles

open Float.Model Float.Model.UnpackedFloat

/-! ## Exact results -/

theorem zpow_split {power shift : Int} {k : Nat} (split : power = shift + k) :
    (2 : ℚ) ^ power = 2 ^ shift * 2 ^ k := by
  rw [split, zpow_add₀ (by norm_num), zpow_natCast]

theorem mantissa_shift {mantissa mantissa' : Nat}
    {exponent exponent' : Int} {k : Nat}
    (split : exponent = exponent' + k)
    (same : (mantissa' : ℚ) * 2 ^ exponent' = mantissa * 2 ^ exponent) :
    mantissa' = mantissa * 2 ^ k := by
  have nonzero : (2 : ℚ) ^ exponent' ≠ 0 := by positivity
  have equal : (mantissa' : ℚ) = mantissa * 2 ^ k := by
    apply mul_right_cancel₀ nonzero
    rw [same, zpow_split split]
    ring
  exact_mod_cast equal

/-- The double with the value is what rounding gives. -/
theorem round_exact (sign : Sign) {mantissa mantissa' : Nat}
    {exponent exponent' : Int}
    (canonical : Canonical mantissa exponent) (positive : 0 < mantissa)
    (same : (mantissa' : ℚ) * 2 ^ exponent' = mantissa * 2 ^ exponent) :
    round Format.binary64 sign mantissa' exponent' =
      .finite sign mantissa exponent positive := by
  have target := canonical.target positive
  rcases le_total exponent' exponent with below | above
  · obtain ⟨k, split⟩ : ∃ k : Nat, exponent = exponent' + k :=
      ⟨(exponent - exponent').toNat, by omega⟩
    obtain rfl := mantissa_shift split same
    have total : totalExponent (mantissa * 2 ^ k) exponent' =
        totalExponent mantissa exponent := by
      simp only [totalExponent, log2_mul_two_pow k positive]
      omega
    have kept : (exponent' - exponent).toNat = 0 := by omega
    have exact := roundWithAccuracy_exact sign canonical positive k
    rw [show exponent - k = exponent' by omega] at exact
    simpa [UnpackedFloat.round, total, target, decreaseExponent,
      kept] using exact
  · obtain ⟨k, split⟩ : ∃ k : Nat, exponent' = exponent + k :=
      ⟨(exponent' - exponent).toNat, by omega⟩
    obtain rfl := mantissa_shift split same.symm
    have nonzero : 0 < mantissa' := Nat.pos_of_mul_pos_right positive
    have total : totalExponent mantissa' exponent' =
        totalExponent (mantissa' * 2 ^ k) exponent := by
      simp only [totalExponent, log2_mul_two_pow k nonzero]
      omega
    have shift : (exponent' - exponent).toNat = k := by omega
    have back : exponent' - k = exponent := by omega
    have exact := roundWithAccuracy_canonical sign canonical positive
    simpa [UnpackedFloat.round, total, target, decreaseExponent, shift, back,
      Nat.shiftLeft_eq] using exact

/-! ## Integers that are doubles -/

/-- The integer is a double. -/
def Representable (k : Int) : Prop :=
  k = 0 ∨ ∃ mantissa exponent, Canonical mantissa exponent ∧ exponent ≤ 971 ∧
    0 < mantissa ∧
    (mantissa : ℚ) * 2 ^ exponent = k.natAbs

theorem representable_of_le {k : Int} (small : k.natAbs ≤ 2 ^ 53) :
    Representable k := by
  by_cases zero : k = 0
  · exact .inl zero
  · right
    by_cases largest : k.natAbs = 2 ^ 53
    · refine ⟨2 ^ 52, 1,
        ⟨by decide, by decide, .inl le_rfl⟩, by decide, by decide, ?_⟩
      rw [largest]
      norm_num
    · obtain ⟨zeros, -, canonical⟩ :=
        exists_canonical (by omega : 0 < k.natAbs) (by omega)
      refine ⟨k.natAbs * 2 ^ zeros, -zeros, canonical, by omega, ?_, ?_⟩
      · have nonzero : 0 < k.natAbs := by omega
        positivity
      · push_cast
        rw [zpow_neg, zpow_natCast, mul_assoc,
          mul_inv_cancel₀ (by positivity), mul_one]

/-- The double is finite, and is the number. -/
structure HasValue (x : Float) (q : ℚ) : Prop where
  number : x.isNaN = false
  rank : rank x.toModel.unpack = ((q : WithTop ℚ) : WithBot (WithTop ℚ))

/-- The double is the integer. -/
structure IsInt (x : Float) (k : Int) : Prop where
  number : x.isNaN = false
  rank : rank x.toModel.unpack = (((k : ℚ) : WithTop ℚ) : WithBot (WithTop ℚ))

theorem isInt_iff {x : Float} {k : Int} : IsInt x k ↔ HasValue x k :=
  ⟨fun integer => ⟨integer.number, integer.rank⟩,
    fun value => ⟨value.number, value.rank⟩⟩

theorem coe_rank_inj {a b : ℚ} :
    ((a : WithTop ℚ) : WithBot (WithTop ℚ)) =
    ((b : WithTop ℚ) : WithBot (WithTop ℚ)) ↔ a = b := by
  rw [WithBot.coe_inj, WithTop.coe_inj]

theorem HasValue.unique {x : Float} {a b : ℚ} (first : HasValue x a)
    (second : HasValue x b) :
    a = b :=
  coe_rank_inj.mp (first.rank.symm.trans second.rank)

theorem hasValue_of_unpack {x y : Float} {q : ℚ}
    (same : y.toModel.unpack = x.toModel.unpack)
    (value : HasValue x q) : HasValue y q := by
  constructor
  · change y.toModel.unpack.isNaN = false
    rw [same]
    exact value.number
  · rw [same]
    exact value.rank

theorem hasValue_zero {x : Float} {sign : Sign}
    (unpacked : x.toModel.unpack = .zero sign) :
    HasValue x 0 := by
  constructor
  · change x.toModel.unpack.isNaN = false
    rw [unpacked]
    rfl
  · rw [unpacked, rank_zero]

theorem hasValue_finite {x : Float} {sign : Sign} {mantissa : Nat}
    {exponent : Int}
    {positive : 0 < mantissa}
    (unpacked : x.toModel.unpack = .finite sign mantissa exponent positive) :
    HasValue x ((sign.apply mantissa : ℤ) * 2 ^ exponent) := by
  constructor
  · change x.toModel.unpack.isNaN = false
    rw [unpacked]
    rfl
  · rw [unpacked]
    rfl

/-- A double with a value is a zero or a finite double. -/
theorem HasValue.cases {x : Float} {q : ℚ} (value : HasValue x q) :
    (∃ sign, x.toModel.unpack = .zero sign ∧ q = 0) ∨
    ∃ sign mantissa exponent positive,
      x.toModel.unpack = .finite sign mantissa exponent positive ∧
        ((sign.apply mantissa : ℤ) : ℚ) * 2 ^ exponent = q := by
  obtain ⟨number, rank⟩ := value
  change x.toModel.unpack.isNaN = false at number
  rcases unpacked : x.toModel.unpack with sign | _ | sign |
    ⟨sign, mantissa, exponent, positive⟩
  · rw [unpacked] at rank
    cases sign with
    | negative => exact absurd rank (WithBot.bot_ne_coe)
    | positive => exact absurd (WithBot.coe_inj.mp rank) (WithTop.top_ne_coe)
  · rw [unpacked] at number
    cases number
  · rw [unpacked, rank_zero, coe_rank_inj] at rank
    exact .inl ⟨sign, rfl, rank.symm⟩
  · rw [unpacked] at rank
    exact .inr ⟨sign, mantissa, exponent, positive, rfl, coe_rank_inj.mp rank⟩

theorem isInt_of_unpack {x y : Float} {k : Int}
    (same : y.toModel.unpack = x.toModel.unpack)
    (integer : IsInt x k) : IsInt y k :=
  isInt_iff.mpr (hasValue_of_unpack same (isInt_iff.mp integer))

theorem isInt_zero {x : Float} {sign : Sign}
    (unpacked : x.toModel.unpack = .zero sign) :
    IsInt x 0 := by
  rw [isInt_iff, Int.cast_zero]
  exact hasValue_zero unpacked

theorem isInt_finite {x : Float} {k : Int} {sign : Sign} {mantissa : Nat}
    {exponent : Int}
    {positive : 0 < mantissa}
    (unpacked : x.toModel.unpack = .finite sign mantissa exponent positive)
    (amount : ((sign.apply mantissa : ℤ) : ℚ) * 2 ^ exponent = k) :
    IsInt x k := by
  rw [isInt_iff, ← amount]
  exact hasValue_finite unpacked

theorem IsInt.cases {x : Float} {k : Int} (integer : IsInt x k) :
    (∃ sign, x.toModel.unpack = .zero sign ∧ k = 0) ∨
    ∃ sign mantissa exponent positive,
      x.toModel.unpack = .finite sign mantissa exponent positive ∧
        ((sign.apply mantissa : ℤ) : ℚ) * 2 ^ exponent = k := by
  simpa only [Int.cast_eq_zero] using (isInt_iff.mp integer).cases

theorem IsInt.unique {x : Float} {a b : Int} (first : IsInt x a)
    (second : IsInt x b) : a = b := by
  exact_mod_cast (isInt_iff.mp first).unique (isInt_iff.mp second)

theorem IsInt.beq {x y : Float} {a b : Int} (first : IsInt x a)
    (second : IsInt y b) :
    (x == y) = true ↔ a = b := by
  change (x.toModel.unpack.compare y.toModel.unpack == some .eq) = true ↔ _
  rw [compare_eq first.number second.number, first.rank, second.rank,
    cmp_rank_finite]
  simp only [beq_iff_eq, Option.some.injEq, cmp_eq_eq_iff]
  exact_mod_cast Iff.rfl

/-- What compares equal to an integer is the integer. -/
theorem IsInt.of_beq {x y : Float} {k : Int} (integer : IsInt x k)
    (same : (x == y) = true) :
    IsInt y k := by
  change (x.toModel.unpack.compare y.toModel.unpack == some .eq) = true at same
  have number : y.isNaN = false := by
    change y.toModel.unpack.isNaN = false
    generalize x.toModel.unpack = first at same
    generalize y.toModel.unpack = second at same
    cases first <;> cases second <;> simp_all [UnpackedFloat.compare,
      UnpackedFloat.isNaN]
  refine ⟨number, ?_⟩
  rw [compare_eq integer.number number] at same
  simp only [beq_iff_eq, Option.some.injEq, cmp_eq_eq_iff] at same
  rw [← same, integer.rank]

theorem magnitude_of_amount {sign : Sign} {mantissa : Nat} {exponent k : Int}
    (amount : ((sign.apply mantissa : ℤ) : ℚ) * 2 ^ exponent = k) :
    (mantissa : ℚ) * 2 ^ exponent = k.natAbs ∧ sign.apply k.natAbs = k := by
  have product : (0 : ℚ) ≤ mantissa * 2 ^ exponent := by positivity
  have magnitude : (k.natAbs : ℚ) = |(k : ℚ)| := by
    rw [← Int.cast_natCast, Int.natCast_natAbs, Int.cast_abs]
  cases sign with
  | positive =>
      simp only [Sign.apply, Int.cast_natCast] at amount ⊢
      rw [magnitude, ← amount, abs_of_nonneg product]
      rw [amount] at product
      exact ⟨rfl, Int.natAbs_of_nonneg (by exact_mod_cast product)⟩
  | negative =>
      simp only [Sign.apply, Int.cast_neg, Int.cast_natCast,
        neg_mul] at amount ⊢
      rw [magnitude, ← amount, abs_neg, abs_of_nonneg product]
      have below : k ≤ 0 := by
        have negative := neg_nonpos.mpr product
        rw [amount] at negative
        exact_mod_cast negative
      exact ⟨rfl, by omega⟩

theorem IsInt.representable {x : Float} {k : Int} (integer : IsInt x k) :
    Representable k := by
  rcases integer.cases with ⟨_, -, zero⟩ |
    ⟨sign, mantissa, exponent, positive, unpacked, amount⟩
  · exact .inl zero
  · obtain ⟨canonical, most⟩ := unpack_canonical unpacked
    exact .inr ⟨mantissa, exponent, canonical, most, positive,
      (magnitude_of_amount amount).1⟩

/-- Above 2 ^ 53 an integer that is a double is even. -/
theorem Representable.even {k : Int} (representable : Representable k)
    (large : 2 ^ 53 < k.natAbs) : k.natAbs % 2 = 0 := by
  obtain ⟨mantissa, exponent, canonical, -, -, value⟩ :=
    representable.resolve_left (by rintro rfl; simp at large)
  have below := canonical.below
  rcases le_or_gt exponent 0 with low | high
  · have power : (2 : ℚ) ^ exponent ≤ 1 :=
      zpow_le_one_of_nonpos₀ (by norm_num) low
    have product : (k.natAbs : ℚ) ≤ mantissa := by
      rw [← value]
      exact mul_le_of_le_one_right (by positivity) power
    have least : k.natAbs ≤ mantissa := by exact_mod_cast product
    omega
  · obtain ⟨j, rfl⟩ : ∃ j : Nat, exponent = j + 1 :=
      ⟨(exponent - 1).toNat, by omega⟩
    have split : k.natAbs = mantissa * 2 ^ j * 2 := by
      have same : (k.natAbs : ℚ) = mantissa * 2 ^ j * 2 := by
        rw [← value, zpow_add_one₀ two_ne_zero, zpow_natCast, mul_assoc]
      exact_mod_cast same
    omega

/-! ## Sums, products and conversions -/

theorem isInt_of_round {x : Float} {k : Int} {sign : Sign} {mantissa : Nat}
    {exponent : Int}
    (representable : Representable k) (nonzero : k ≠ 0)
    (packed : x.toModel = Float.Model.pack
      (round Format.binary64 sign mantissa exponent))
    (amount : ((sign.apply mantissa : ℤ) : ℚ) * 2 ^ exponent = k) :
    IsInt x k := by
  obtain ⟨mantissa', exponent', canonical, most, positive, value⟩ :=
    representable.resolve_left nonzero
  have same : (mantissa : ℚ) * 2 ^ exponent = mantissa' * 2 ^ exponent' :=
    (magnitude_of_amount amount).1.trans value.symm
  have unpacked : x.toModel.unpack =
      .finite sign mantissa' exponent' positive := by
    rw [packed, round_exact sign canonical positive same, unpack_pack,
      unpack_pack_finite sign canonical positive most]
  apply isInt_finite unpacked
  rw [← amount]
  cases sign with
  | positive => simp [Sign.apply, same]
  | negative => simp [Sign.apply, same]

theorem integer_ne_zero {k mantissa exponent : Int} (nonzero : mantissa ≠ 0)
    (amount : (mantissa : ℚ) * 2 ^ exponent = k) : k ≠ 0 := by
  rintro rfl
  have power : (2 : ℚ) ^ exponent ≠ 0 := by positivity
  rw [Int.cast_zero, mul_eq_zero, or_iff_left power, Int.cast_eq_zero] at amount
  exact nonzero amount

theorem isInt_normalize {x : Float} {k mantissa exponent : Int}
    (representable : Representable k)
    (packed : x.toModel = Float.Model.pack
      (normalize Format.binary64 mantissa exponent .positive))
    (amount : (mantissa : ℚ) * 2 ^ exponent = k) : IsInt x k := by
  rcases lt_trichotomy mantissa 0 with below | rfl | above
  · have nonzero := integer_ne_zero (by omega) amount
    simp only [UnpackedFloat.normalize, ← cmp_eq_compare,
      below.cmp_eq_lt] at packed
    apply isInt_of_round representable nonzero packed
    rw [← amount, Sign.apply, Int.toNat_of_nonneg (by omega), Int.neg_neg]
  · rw [Int.cast_zero, zero_mul] at amount
    obtain rfl : k = 0 := by exact_mod_cast amount.symm
    simp only [UnpackedFloat.normalize, ← cmp_eq_compare,
      cmp_self_eq_eq] at packed
    apply isInt_zero
    rw [packed, unpack_pack]
    exact unpack_packedZero .positive
  · have nonzero := integer_ne_zero (by omega) amount
    simp only [UnpackedFloat.normalize, ← cmp_eq_compare,
      above.cmp_eq_gt] at packed
    apply isInt_of_round representable nonzero packed
    rw [← amount, Sign.apply, Int.toNat_of_nonneg (by omega)]

theorem unpack_repack {x : Float.Model} :
    (Float.Model.pack x.unpack).unpack = x.unpack := by
  rw [unpack_pack]
  rcases unpacked : x.unpack with sign | _ | sign |
    ⟨sign, mantissa, exponent, positive⟩
  · exact unpack_packedInfinity sign
  · exact unpack_packedNaN
  · exact unpack_packedZero sign
  · obtain ⟨canonical, most⟩ := unpack_canonical unpacked
    exact unpack_pack_finite sign canonical positive most

/-- A sum of integers is exact when it is a double. -/
theorem IsInt.add {x y : Float} {a b : Int} (first : IsInt x a)
    (second : IsInt y b)
    (representable : Representable (a + b)) : IsInt (x + y) (a + b) := by
  have converted : (x + y).toModel = Float.Model.pack
      (UnpackedFloat.add Format.binary64 x.toModel.unpack y.toModel.unpack) :=
        rfl
  rcases first.cases with
    ⟨sign₁, left, rfl⟩ |
      ⟨sign₁, mantissa₁, exponent₁, positive₁, left, amount₁⟩ <;>
    rcases second.cases with
      ⟨sign₂, right, rfl⟩ |
        ⟨sign₂, mantissa₂, exponent₂, positive₂, right, amount₂⟩
  · rw [left, right] at converted
    simp only [UnpackedFloat.add] at converted
    split at converted
    · exact isInt_zero (by
        rw [converted, unpack_pack]; exact unpack_packedZero sign₁)
    · exact isInt_zero (by
        rw [converted, unpack_pack]; exact unpack_packedZero .positive)
  · have same : UnpackedFloat.add Format.binary64 x.toModel.unpack
        y.toModel.unpack =
        y.toModel.unpack := by
      rw [left, right]
      rfl
    rw [same] at converted
    rw [Int.zero_add]
    exact isInt_finite (by rw [converted, unpack_repack, right]) amount₂
  · have same : UnpackedFloat.add Format.binary64 x.toModel.unpack
        y.toModel.unpack =
        x.toModel.unpack := by
      rw [left, right]
      rfl
    rw [same] at converted
    rw [Int.add_zero]
    exact isInt_finite (by rw [converted, unpack_repack, left]) amount₁
  · rw [left, right] at converted
    simp only [UnpackedFloat.add] at converted
    apply isInt_normalize representable converted
    rw [Int.cast_add, add_mul, decreaseExponent_value _ _ (min_le_left _ _),
      decreaseExponent_value _ _ (min_le_right _ _), amount₁, amount₂,
      Int.cast_add]

theorem Canonical.full_of_integer {mantissa : Nat} {exponent : Int} {n : Nat}
    (canonical : Canonical mantissa exponent)
    (value : (mantissa : ℚ) * 2 ^ exponent = n)
    (positive : 0 < n) : 2 ^ 52 ≤ mantissa := by
  refine canonical.full.resolve_right ?_
  rintro rfl
  have below := canonical.below
  have power : (2 : ℚ) ^ (-1074 : ℤ) * 2 ^ 1074 = 1 := by
    rw [zpow_neg, show (1074 : ℤ) = ((1074 : ℕ) : ℤ) from rfl, zpow_natCast]
    exact inv_mul_cancel₀ (pow_ne_zero _ two_ne_zero)
  have large : (2 : ℚ) ^ 1074 ≤ mantissa := by
    calc (2 : ℚ) ^ 1074 = 1 * 2 ^ 1074 := (one_mul _).symm
      _ ≤ n * 2 ^ 1074 := by
          gcongr
          exact_mod_cast positive
      _ = mantissa * (2 ^ (-1074 : ℤ) * 2 ^ 1074) := by rw [← value, mul_assoc]
      _ = mantissa := by rw [power, mul_one]
  have bits : (2 : ℚ) ^ 53 ≤ 2 ^ 1074 :=
    pow_le_pow_right₀ one_le_two (by decide)
  have most : 2 ^ 53 ≤ mantissa := by exact_mod_cast bits.trans large
  omega

theorem roundProduct_exact (sign : Sign) {mantissa product : Nat}
    {exponent exponent' : Int}
    (canonical : Canonical mantissa exponent) (positive : 0 < mantissa)
    (large : 2 ^ 53 ≤ product)
    (same : (product : ℚ) * 2 ^ exponent' = mantissa * 2 ^ exponent) :
    roundWithAccuracy Format.binary64 sign product exponent' .exact =
      .finite sign mantissa exponent positive := by
  have below := canonical.below
  rcases le_total exponent' exponent with lower | above
  · obtain ⟨k, split⟩ : ∃ k : Nat, exponent = exponent' + k :=
      ⟨(exponent - exponent').toNat, by omega⟩
    obtain rfl := mantissa_shift split same
    have exact := roundWithAccuracy_exact sign canonical positive k
    rwa [show exponent - k = exponent' by omega] at exact
  · obtain ⟨k, split⟩ : ∃ k : Nat, exponent' = exponent + k :=
      ⟨(exponent' - exponent).toNat, by omega⟩
    obtain rfl := mantissa_shift split same.symm
    have least := Nat.le_mul_of_pos_right product (Nat.two_pow_pos k)
    omega

theorem sign_mul_apply (sign sign' : Sign) :
    (sign * sign').apply 1 = sign.apply 1 * sign'.apply 1 := by
  cases sign <;> cases sign' <;> rfl

theorem sign_apply (sign : Sign) (n : Int) :
    sign.apply n = sign.apply 1 * n := by
  cases sign with
  | positive => simp [Sign.apply]
  | negative => simp [Sign.apply]

/-- A product of integers is exact when it is a double. -/
theorem IsInt.mul {x y : Float} {a b : Int} (first : IsInt x a)
    (second : IsInt y b)
    (representable : Representable (a * b)) : IsInt (x * y) (a * b) := by
  have converted : (x * y).toModel = Float.Model.pack
      (UnpackedFloat.mul Format.binary64 x.toModel.unpack y.toModel.unpack) :=
        rfl
  rcases first.cases with
    ⟨sign₁, left, rfl⟩ | ⟨sign₁, mantissa₁, exponent₁, positive₁, left, amount₁⟩
  · rw [Int.zero_mul]
    rcases second.cases with ⟨sign₂, right, -⟩ | ⟨sign₂, _, _, _, right, -⟩
    · rw [left, right] at converted
      exact isInt_zero (by
        rw [converted, unpack_pack]; exact unpack_packedZero (sign₁ * sign₂))
    · rw [left, right] at converted
      exact isInt_zero (by
        rw [converted, unpack_pack]; exact unpack_packedZero (sign₁ * sign₂))
  · rcases second.cases with
      ⟨sign₂, right, rfl⟩ |
        ⟨sign₂, mantissa₂, exponent₂, positive₂, right, amount₂⟩
    · rw [left, right] at converted
      rw [Int.mul_zero]
      exact isInt_zero (by
        rw [converted, unpack_pack]; exact unpack_packedZero (sign₁ * sign₂))
    · have value₁ := (magnitude_of_amount amount₁).1
      have value₂ := (magnitude_of_amount amount₂).1
      have nonzero₁ : a ≠ 0 := by
        rintro rfl
        have power : (0 : ℚ) < mantissa₁ * 2 ^ exponent₁ := by positivity
        simp [value₁] at power
      have nonzero₂ : b ≠ 0 := by
        rintro rfl
        have power : (0 : ℚ) < mantissa₂ * 2 ^ exponent₂ := by positivity
        simp [value₂] at power
      have nonzero := mul_ne_zero nonzero₁ nonzero₂
      obtain ⟨mantissa, exponent, canonical, most, positive, value⟩ :=
        representable.resolve_left nonzero
      have same : ((mantissa₁ * mantissa₂ : Nat) : ℚ) *
          2 ^ (exponent₁ + exponent₂) =
          mantissa * 2 ^ exponent := by
        calc ((mantissa₁ * mantissa₂ : Nat) : ℚ) * 2 ^ (exponent₁ + exponent₂)
            = mantissa₁ * 2 ^ exponent₁ * (mantissa₂ * 2 ^ exponent₂) := by
              rw [zpow_add₀ two_ne_zero]
              push_cast
              ring
          _ = mantissa * 2 ^ exponent := by
              rw [value₁, value₂, value, Int.natAbs_mul, Nat.cast_mul]
      have large : 2 ^ 53 ≤ mantissa₁ * mantissa₂ := by
        have full₁ :=
          (unpack_canonical left).1.full_of_integer value₁ (by omega)
        have full₂ :=
          (unpack_canonical right).1.full_of_integer value₂ (by omega)
        calc 2 ^ 53 ≤ 2 ^ 52 * 2 ^ 52 := by decide
          _ ≤ mantissa₁ * mantissa₂ := Nat.mul_le_mul full₁ full₂
      have unpacked : (x * y).toModel.unpack =
          .finite (sign₁ * sign₂) mantissa exponent positive := by
        rw [converted, left, right]
        simp only [UnpackedFloat.mul]
        rw [roundProduct_exact _ canonical positive large same, unpack_pack,
          unpack_pack_finite _ canonical positive most]
      apply isInt_finite unpacked
      rw [Int.cast_mul, ← amount₁, ← amount₂, sign_apply, sign_apply sign₁,
        sign_apply sign₂,
        sign_mul_apply]
      push_cast at same ⊢
      rw [mul_assoc, ← same, zpow_add₀ two_ne_zero]
      ring

theorem HasValue.neg {x : Float} {q : ℚ} (value : HasValue x q) :
    HasValue (Float.neg x) (-q) := by
  have converted : (Float.neg x).toModel =
    Float.Model.pack x.toModel.unpack.neg := rfl
  rcases value.cases with
    ⟨sign, unpacked, rfl⟩ | ⟨sign, mantissa, exponent, positive, unpacked, rfl⟩
  · rw [unpacked] at converted
    rw [neg_zero]
    apply hasValue_zero
    rw [converted, unpack_pack]
    exact unpack_packedZero (-sign)
  · rw [unpacked] at converted
    obtain ⟨canonical, most⟩ := unpack_canonical unpacked
    have flipped : ((-sign).apply mantissa : ℤ) = -sign.apply mantissa := by
      cases sign with
      | positive => rfl
      | negative => exact (Int.neg_neg _).symm
    rw [← neg_mul, ← Int.cast_neg, ← flipped]
    apply hasValue_finite
    rw [converted, unpack_pack]
    exact unpack_pack_finite (-sign) canonical positive most

theorem IsInt.neg {x : Float} {k : Int} (integer : IsInt x k) :
    IsInt (Float.neg x) (-k) := by
  rw [isInt_iff, Int.cast_neg]
  exact (isInt_iff.mp integer).neg

theorem IsNat.isInt {x : Float} {n : Nat} (natural : IsNat x n) : IsInt x n :=
  ⟨natural.isNaN, by rw [natural.rank, Int.cast_natCast]⟩

theorem ofNat_large {n : Nat} (large : 2 ^ 53 ≤ n) :
    (Float.ofNat n).toModel = Float.Model.pack
    (roundWithAccuracy Format.binary64
      .positive (n * 2 ^ 53) (-53) .exact) := by
  have scaled : (Float.ofNat n).toModel =
      Float.Model.pack (roundWithAccuracy Format.binary64
      .positive (n <<< 53 * 10 ^ (0 : Int).toNat) (-(53 : Nat) + 0)
          .exact) := by
    have nonzero : n ≠ 0 := by omega
    simp only [Float.ofNat, OfScientific.ofScientific, Float.ofScientific]
    rw [dif_neg (by omega)]
    simp only [Bool.false_eq_true, if_false, Float.Model.ofScientific,
      UnpackedFloat.ofScientific, dif_neg nonzero]
    rw [if_neg (by decide), if_neg, if_pos (by decide)]
    · rfl
    · have log : (0 : Int) ≤ n.log2 := by omega
      have width : (0 : Int) ≤ 2 ^ Format.binary64.exponentBits := by decide
      change ¬ (0 : Int) < _
      omega
  rw [scaled, Nat.shiftLeft_eq, Int.toNat_zero, Nat.pow_zero, Nat.mul_one]
  congr 2

/-- A natural number that is a double is converted without loss. -/
theorem isInt_ofNat {n : Nat} (representable : Representable n) :
    IsInt (Float.ofNat n) n := by
  by_cases below : n < 2 ^ 53
  · exact (isNat_ofNat below).isInt
  · have slow := ofNat_large (by omega : 2 ^ 53 ≤ n)
    obtain ⟨mantissa, exponent, canonical, most, positive, value⟩ :=
      representable.resolve_left (by omega)
    rw [Int.natAbs_natCast] at value
    have above : 0 ≤ exponent := by
      by_contra negative
      obtain ⟨k, split⟩ : ∃ k : Nat, (0 : Int) = exponent + k :=
        ⟨(-exponent).toNat, by omega⟩
      have shifted : mantissa = n * 2 ^ k :=
        mantissa_shift split (by simpa using value)
      have power : 0 < 2 ^ k := by positivity
      have large : n ≤ mantissa := shifted ▸ Nat.le_mul_of_pos_right n power
      have short := canonical.below
      omega
    obtain ⟨k, rfl⟩ := Int.eq_ofNat_of_zero_le above
    have shifted : n = mantissa * 2 ^ k :=
      mantissa_shift (Int.zero_add _).symm (by simpa using value.symm)
    have exact := roundWithAccuracy_exact .positive canonical positive (k + 53)
    have same : n * 2 ^ 53 = mantissa * 2 ^ (k + 53) := by
      rw [shifted, Nat.mul_assoc, ← Nat.pow_add]
    rw [same, show (-53 : Int) =
      (k : Int) - (k + 53 : Nat) by omega, exact] at slow
    apply @isInt_finite _ _ .positive _ _ positive
    · rw [slow, unpack_pack, unpack_pack_finite _ canonical positive most]
    · simpa [Sign.apply] using value

/-- An integer that is a double is converted without loss. -/
theorem isInt_ofInt {k : Int} (representable : Representable k) :
    IsInt (Float.ofInt k) k := by
  cases k with
  | ofNat n => exact isInt_ofNat representable
  | negSucc n =>
      have positive : Representable ((n + 1 : Nat) : Int) := by
        rcases representable with zero | exact
        · cases zero
        · exact .inr exact
      exact (isInt_ofNat positive).neg

/-- Truncation takes nothing from an integer. -/
theorem IsInt.toInt {x : Float} {k : Int} (integer : IsInt x k)
    (low high : Int) :
    x.toModel.unpack.toInt low high = k := by
  rcases integer.cases with
    ⟨sign, unpacked, rfl⟩ |
      ⟨sign, mantissa, exponent, positive, unpacked, amount⟩
  · rw [unpacked]
    rfl
  · obtain ⟨value, signed⟩ := magnitude_of_amount amount
    have whole : (k.natAbs : ℚ) * 2 ^ (0 : Int) = mantissa * 2 ^ exponent := by
      simpa using value.symm
    rw [unpacked]
    simp only [UnpackedFloat.toInt, roundToInt, decreaseExponent,
      shiftToExponent,
      ExtendedMantissa.ofMantissaAndAccuracy, Int.sub_zero]
    rcases le_total 0 exponent with above | below
    · obtain ⟨j, rfl⟩ := Int.eq_ofNat_of_zero_le above
      have shifted := mantissa_shift (Int.zero_add _).symm whole
      have kept : (0 - ((j : Int) - ((j : Int).toNat : Int))).toNat =
        0 := by omega
      rw [kept, Int.toNat_natCast, Nat.shiftLeft_eq, ← shifted]
      exact signed
    · obtain ⟨j, split⟩ : ∃ j : Nat, (0 : Int) = exponent + j :=
        ⟨(-exponent).toNat, by omega⟩
      have shifted := mantissa_shift split whole.symm
      have kept : exponent.toNat = 0 := by omega
      have shift : (0 - (exponent - (0 : Nat))).toNat = j := by omega
      rw [kept, Nat.shiftLeft_zero, shift, shifted, shiftRight_exact]
      exact signed

theorem IsInt.toInt64 {x : Float} {k : Int} (integer : IsInt x k)
    (low : -2 ^ 63 ≤ k)
    (high : k < 2 ^ 63) : x.toModel.toInt64.toInt = k := by
  have least : Int64.minValue.toInt = -2 ^ 63 := by decide
  have most : Int64.maxValue.toInt = 2 ^ 63 - 1 := by decide
  rw [Float.Model.toInt64, UnpackedFloat.toInt64, integer.toInt,
    Int64.toInt_ofIntClamp (by omega) (by omega)]

end Doubles
