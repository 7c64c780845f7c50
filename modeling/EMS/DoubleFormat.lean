import EMS.IntegerDoubles
import Mathlib.Tactic.Linarith

/-!
# Doubles in decimal digits

The format `%lf`: all digits of the integral part and six decimals, of which
the last is rounded to the nearest, and to the even one of two.  How long the
text is depends on the integral part alone, which may have 309 digits.
-/

namespace Doubles

open Float.Model Float.Model.UnpackedFloat

/-- A quotient that is rounded to the nearest integer, the even one of two. -/
def roundedQuotient (dividend divisor : Nat) : Nat :=
  if 2 * (dividend % divisor) < divisor then dividend / divisor
  else if 2 * (dividend % divisor) = divisor then
    dividend / divisor + dividend / divisor % 2
  else dividend / divisor + 1

/-- The millionths of a double without its sign. -/
def millionths (mantissa : Nat) (exponent : Int) : Nat :=
  if 0 ≤ exponent then mantissa * 2 ^ exponent.toNat * 10 ^ 6
  else roundedQuotient (mantissa * 10 ^ 6) (2 ^ (-exponent).toNat)

/-- Six decimal digits. -/
def sixDigits (n : Nat) : List Char :=
  [5, 4, 3, 2, 1, 0].map fun place => Nat.digitChar (n / 10 ^ place % 10)

def formatMillionths (n : Nat) : List Char :=
  Nat.toDigits 10 (n / 10 ^ 6) ++ '.' :: sixDigits (n % 10 ^ 6)

def formatSign : Sign → List Char
  | .positive => []
  | .negative => ['-']

/-- The characters of the format `%lf`. -/
def formatLf (x : Float) : List Char :=
  match x.toModel.unpack with
  | .notANumber => "nan".toList
  | .infinity sign => formatSign sign ++ "inf".toList
  | .zero sign => formatSign sign ++ formatMillionths 0
  | .finite sign mantissa exponent _ =>
      formatSign sign ++ formatMillionths (millionths mantissa exponent)

example : formatLf (Float.ofBits 0xBFF8000000000000) = "-1.500000".toList := by
  decide +kernel

theorem formatMillionths_length_le_iff {n k : Nat} (positive : 0 < k) :
    (formatMillionths n).length ≤ k + 7 ↔ n < 10 ^ k * 10 ^ 6 := by
  have digits :=
    @Nat.length_toDigits_le_iff 10 (n / 10 ^ 6) k (by decide) positive
  rw [Nat.div_lt_iff_lt_mul (by decide)] at digits
  rw [← digits, formatMillionths, List.length_append, List.length_cons,
    sixDigits, List.length_map]
  simp only [List.length_cons, List.length_nil]
  omega

theorem roundedQuotient_le (dividend divisor : Nat) :
    roundedQuotient dividend divisor ≤ dividend / divisor + 1 := by
  rw [roundedQuotient]
  split
  · omega
  · split <;> omega

/-- The millionths of large doubles are not rounded, and those of the others are
few. -/
theorem millionths_lt_iff {mantissa k : Nat} {exponent : Int}
    (below : mantissa < 2 ^ 53)
    (large : 16 ≤ k) :
    millionths mantissa exponent < 10 ^ k * 10 ^ 6 ↔
      (mantissa : ℚ) * 2 ^ exponent < 10 ^ k := by
  rw [millionths]
  split
  · next above =>
      obtain ⟨e, rfl⟩ := Int.eq_ofNat_of_zero_le above
      rw [Int.toNat_natCast, Nat.mul_lt_mul_right (by decide), zpow_natCast]
      exact_mod_cast Iff.rfl
  · next negative =>
      have tens : 10 ^ 16 ≤ 10 ^ k := Nat.pow_le_pow_right (by decide) large
      have quotient : mantissa * 10 ^ 6 / 2 ^ (-exponent).toNat ≤
          mantissa * 10 ^ 6 :=
        Nat.div_le_self _ _
      have rounded :=
        roundedQuotient_le (mantissa * 10 ^ 6) (2 ^ (-exponent).toNat)
      have small : (mantissa : ℚ) * 2 ^ exponent < 10 ^ k := by
        have tens' : (10 : ℚ) ^ 16 ≤ 10 ^ k := by exact_mod_cast tens
        have below' : (mantissa : ℚ) < 2 ^ 53 := by exact_mod_cast below
        have power : (2 : ℚ) ^ exponent ≤ 1 :=
          zpow_le_one_of_nonpos₀ (by norm_num) (by omega)
        calc (mantissa : ℚ) * 2 ^ exponent ≤ mantissa * 1 :=
              mul_le_mul_of_nonneg_left power (by positivity)
          _ = mantissa := mul_one _
          _ < 2 ^ 53 := below'
          _ ≤ 10 ^ 16 := by norm_num
          _ ≤ 10 ^ k := tens'
      exact iff_of_true (by omega) small

/-- The numbers whose integral part has at most so many digits, the sign being
counted as one of them. -/
def HasDigits (q : ℚ) (k : Nat) : Prop :=
  -10 ^ (k - 1) < q ∧ q < 10 ^ k

theorem HasValue.forall_iff {x : Float} {q : ℚ} (isValue : HasValue x q)
    {P : ℚ → Prop} :
    (∀ r, HasValue x r → P r) ↔ P q :=
  ⟨fun all => all q isValue,
    fun holds _ isValue' => isValue.unique isValue' ▸ holds⟩

/-- How long the text of a finite double is. -/
theorem formatLf_length_le_iff {x : Float} {q : ℚ}
    (value : HasValue x q) {k : Nat}
    (large : 17 ≤ k) : (formatLf x).length ≤ k + 7 ↔ HasDigits q k := by
  have power : ∀ n : Nat, (0 : ℚ) < 10 ^ n := fun n => by positivity
  rcases value.cases with ⟨sign, unpacked, rfl⟩ |
    ⟨sign, mantissa, exponent, positive, unpacked, rfl⟩
  · have short : (formatMillionths 0).length = 8 := rfl
    have fits : HasDigits 0 k := ⟨neg_neg_of_pos (power _), power _⟩
    refine iff_of_true ?_ fits
    rw [formatLf, unpacked]
    cases sign <;> simp only [formatSign, List.length_append, short] <;>
      simp only [List.length] <;>
      omega
  · have below := (unpack_canonical unpacked).1.below
    have magnitude : (0 : ℚ) < mantissa * 2 ^ exponent :=
      mul_pos (Nat.cast_pos.mpr positive) (by positivity)
    rw [formatLf, unpacked]
    cases sign with
    | positive =>
        simp only [formatSign, List.nil_append, Sign.apply, Int.cast_natCast]
        rw [formatMillionths_length_le_iff (by omega),
          millionths_lt_iff below (by omega), HasDigits,
          and_iff_right (by linarith [power (k - 1)])]
    | negative =>
        obtain ⟨j, rfl⟩ : ∃ j, k = j + 1 := ⟨k - 1, by omega⟩
        have oneMore : ∀ n, n + 1 ≤ j + 1 + 7 ↔ n ≤ j + 7 := fun n => by omega
        simp only [formatSign, List.singleton_append, List.length_cons,
          Sign.apply, Int.cast_neg,
          Int.cast_natCast, oneMore]
        rw [formatMillionths_length_le_iff (by omega),
          millionths_lt_iff below (by omega), HasDigits,
          and_iff_left (by linarith [power (j + 1)]), neg_mul, neg_lt_neg_iff,
          Nat.add_sub_cancel]

end Doubles
