import EMS.NearestDoubles
import EMS.CounterOrder

/-!
# Sums at the limits of integers

Integers are added in 64 bits, and whether the sum is large is tested after the
addition.  As long as the additions to an integer do not leave the 64 bits and
what is added to a double is a double, every sum is exact, or it is the double
that is nearest to the exact one.
-/

namespace EMS

open SharedProgram Doubles

section Limits

local instance limitRuntime : CRuntime := ieeeRuntime

def InInt64 (k : Int) : Prop := -2 ^ 63 ≤ k ∧ k < 2 ^ 63

instance (k : Int) : Decidable (InInt64 k) :=
  inferInstanceAs (Decidable (_ ∧ _))

/-- The number that a word stands for. -/
def NumberValue (type : EMSType) (word : Int) (q : ℚ) : Prop :=
  type = .integer ∧ word = q ∨ type = .float ∧ HasValue (toDouble word) q

/-- The element is full, and holds a number of 64 bits. -/
structure HoldsValue (idx : Int) (buf : EmsBuf) (q : ℚ) : Prop where
  full : (buf.tag (EMSdataCell idx)).fe = .full
  value : NumberValue (buf.tag (EMSdataCell idx)).type
    (buf.word (EMSdataCell idx)) q
  range : (buf.tag (EMSdataCell idx)).type = .integer →
    InInt64 (buf.word (EMSdataCell idx))

/-- The element holds the exact sum as an integer, or the double nearest to
it. -/
def HoldsSum (idx : Int) (buf : EmsBuf) (sum : ℚ) : Prop :=
  (buf.tag (EMSdataCell idx)).fe = .full ∧
    ((buf.tag (EMSdataCell idx)).type = .integer ∧
      (buf.word (EMSdataCell idx) : ℚ) = sum ∨
      (buf.tag (EMSdataCell idx)).type = .float ∧
        Nearest (toDouble (buf.word (EMSdataCell idx))) sum)

/-- An addition of integers does not exceed the 64 bits. -/
def NoOverflow (idx : Int) (buf : EmsBuf) (y : Int) : Prop :=
  (buf.tag (EMSdataCell idx)).type = .integer →
    InInt64 (buf.word (EMSdataCell idx) + y)

/-- What may be added: to an integer what keeps it in its 64 bits, and to a
double what is one. -/
def Addable (idx : Int) (buf : EmsBuf) (y : Int) : Prop :=
  NoOverflow idx buf y ∧
    ((buf.tag (EMSdataCell idx)).type = .float → Representable y)

/-- Integers and booleans have been added that may be. -/
inductive CarefulAdds (array : EmsArray) (idx : Int) (start : Ledger) :
    List EMSvalueType → Ledger → Prop where
  | none : CarefulAdds array idx start [] start
  | call {values : List EMSvalueType} {before after : Ledger}
      {value : EMSvalueType}
      {result : Except EMSError EMSvalueType} :
      CarefulAdds array idx start values before → value.IsWhole →
        InInt64 value.value →
      Addable idx before.buf value.value →
        AddCall array idx before value result after →
      CarefulAdds array idx start (values ++ [value]) after

theorem InInt64.toInt64_eq {k : Int} (range : InInt64 k) : toInt64 k = k := by
  rw [InInt64] at range
  apply Int.bmod_eq_of_le <;> omega

theorem toInt64_range (k : Int) : InInt64 (toInt64 k) := by
  have low := Int.le_bmod (x := k) (m := 2 ^ 64) (by decide)
  have high := Int.bmod_lt (x := k) (m := 2 ^ 64) (by decide)
  rw [InInt64, toInt64]
  omega

theorem InInt64.magnitude {k : Int} (range : InInt64 k) :
    |(k : ℚ)| ≤ 2 ^ 63 := by
  rw [InInt64] at range
  have bound : |k| ≤ 2 ^ 63 := abs_le.mpr ⟨range.1, range.2.le⟩
  exact_mod_cast bound

theorem InInt64.add_bound {q : ℚ} {y : Int} (range : InInt64 y)
    (small : |q| ≤ largest) :
    |q + y| < 2 ^ 1024 - 2 ^ 970 := by
  have less : (2 : ℚ) ^ 63 < 2 ^ 970 :=
    pow_lt_pow_right₀ (by norm_num) (by decide)
  have bound := range.magnitude
  have sum := abs_add_le q y
  rw [largest_eq] at small
  generalize (2 : ℚ) ^ 970 = unit at *
  generalize (2 : ℚ) ^ 1024 = top at *
  linarith only [less, bound, sum, small]

theorem InInt64.bound {k : Int} (range : InInt64 k) :
    |(k : ℚ)| < 2 ^ 1024 - 2 ^ 970 := by
  have zero : |(0 : ℚ)| ≤ largest := by
    rw [abs_zero, largest]
    positivity
  simpa using range.add_bound zero

/-! ## One addition -/

section Addition

variable {type : EMSType} {word : Int} {value : EMSvalueType}

theorem numberSum_integer (whole : value.IsWhole) :
    numberSum .integer word value = (.integer, toInt64 (word + value.value)) ∨
      2 ^ 30 ≤ toInt64 (word + value.value) ∧
        numberSum .integer word value =
          (.float, CRuntime.ofInt (toInt64 (word + value.value))) := by
  rcases whole with isInteger | isBoolean
  · simp only [numberSum, isInteger]
    split
    · next large => exact .inr ⟨large, rfl⟩
    · exact .inl rfl
  · left
    simp only [numberSum, isBoolean]

theorem double_nearest {k : Int} (range : InInt64 k) :
    Nearest (toDouble (CRuntime.ofInt k)) k :=
  nearest_of_unpack (toDouble_ofDouble _) (nearest_ofInt range.bound)

private theorem double_add_nearest {q : ℚ} {y : Int}
    (isValue : HasValue (toDouble word) q)
    (range : InInt64 y) (representable : Representable y) :
    Nearest (toDouble (CRuntime.add word (CRuntime.ofInt y))) (q + y) := by
  have addend := isInt_iff.mp (double_ofInt representable)
  have sum := HasValue.add isValue addend (range.add_bound isValue.le_largest)
  exact nearest_of_unpack (toDouble_ofDouble _) sum

theorem not_nearest_wrapped {sum : Int} (large : 2 ^ 30 ≤ toInt64 sum)
    (negative : sum < 0) :
    ¬ Nearest (toDouble (CRuntime.ofInt (toInt64 sum))) sum := by
  rintro ⟨r, isValue, least⟩
  obtain ⟨r', isValue', least'⟩ := double_nearest (toInt64_range sum)
  obtain rfl := isValue.unique isValue'
  have threshold : HasValue (Float.ofInt (2 ^ 30)) ((2 ^ 30 : Int) : ℚ) :=
    isInt_iff.mp (isInt_ofInt (representable_of_le (by decide)))
  have zero : HasValue (Float.ofInt 0) ((0 : Int) : ℚ) :=
    isInt_iff.mp (isInt_ofInt (.inl rfl))
  have above := least' _ _ threshold
  have below := least _ _ zero
  have large' : ((2 ^ 30 : Int) : ℚ) ≤ (toInt64 sum : ℚ) :=
    Int.cast_le.mpr large
  have negative' : (sum : ℚ) < 0 := Int.cast_lt_zero.mpr negative
  rw [abs_sub_comm ((2 ^ 30 : Int) : ℚ),
    abs_of_nonneg (sub_nonneg.mpr large')] at above
  rw [Int.cast_zero, zero_sub, abs_neg, abs_of_neg negative'] at below
  have positive : (0 : ℚ) < ((2 ^ 30 : Int) : ℚ) := Int.cast_pos.mpr (by decide)
  have low := (abs_le.mp above).1
  have high := (abs_le.mp below).2
  linarith only [low, high, positive]

end Addition

/-! ## Calls -/

section Calls

variable {array : EmsArray} {idx : Int} {before after : Ledger}
  {value : EMSvalueType}
  {result : Except EMSError EMSvalueType} {q : ℚ} {buf : EmsBuf} {word : Int}

theorem HoldsValue.number (holds : HoldsValue idx buf q) :
    (buf.tag (EMSdataCell idx)).type.IsNumber := by
  rcases holds.value with ⟨isInteger, -⟩ | ⟨isFloat, -⟩
  · exact .inl isInteger
  · exact .inr isFloat

private theorem holdsSum_integer (holds : HoldsNumber idx .integer word buf)
    (range : InInt64 word) :
    HoldsSum idx buf word ∧ ∃ q', HoldsValue idx buf q' := by
  have isWord : (buf.word (EMSdataCell idx) : ℚ) = word := by rw [holds.word]
  refine ⟨⟨holds.full, .inl ⟨holds.type, isWord⟩⟩, word, holds.full,
    .inl ⟨holds.type, isWord⟩, ?_⟩
  intro _
  rw [holds.word]
  exact range

theorem holdsSum_double {sum : ℚ} (holds : HoldsNumber idx .float word buf)
    (near : Nearest (toDouble word) sum) : HoldsSum idx buf sum ∧ ∃ q',
      HoldsValue idx buf q' := by
  rw [← holds.word] at near
  obtain ⟨r, isValue, -⟩ := id near
  refine ⟨⟨holds.full, .inr ⟨holds.type, near⟩⟩, r, holds.full,
    .inr ⟨holds.type, isValue⟩, ?_⟩
  intro isInteger
  cases isInteger.symm.trans holds.type

theorem AddCall.holdsSum (call : AddCall array idx before value result after)
    (positive : 0 < array.nElem) (inside : 0 ≤ idx)
    (holds : HoldsValue idx before.buf q)
    (whole : value.IsWhole) (range : InInt64 value.value)
    (addable : Addable idx before.buf value.value) :
    (∃ old, result = .ok old) ∧ HoldsSum idx after.buf (q + value.value) ∧
      ∃ q', HoldsValue idx after.buf q' := by
  obtain ⟨returned, sum⟩ :=
    call.sum positive inside ⟨holds.full, rfl, rfl⟩ holds.number whole
  refine ⟨⟨_, returned⟩, ?_⟩
  rcases holds.value with ⟨isInteger, isWord⟩ | ⟨isFloat, isValue⟩
  · have exact := addable.1 isInteger
    rw [isInteger] at sum
    generalize before.buf.word (EMSdataCell idx) = word at *
    rw [← isWord, ← Int.cast_add]
    rcases @numberSum_integer word value whole with isSum | ⟨-, isSum⟩
    · rw [isSum, exact.toInt64_eq] at sum
      exact holdsSum_integer sum exact
    · rw [isSum, exact.toInt64_eq] at sum
      exact holdsSum_double sum (double_nearest exact)
  · rw [isFloat] at sum
    exact holdsSum_double sum
      (double_add_nearest isValue range (addable.2 isFloat))

/-- A sum of integers that wraps around is neither the exact sum nor the double
nearest to it. -/
theorem AddCall.noOverflow (call : AddCall array idx before value result after)
    (positive : 0 < array.nElem) (inside : 0 ≤ idx)
    (holds : HoldsValue idx before.buf q)
    (whole : value.IsWhole) (range : InInt64 value.value)
    (held : HoldsSum idx after.buf (q + value.value)) :
    NoOverflow idx before.buf value.value := by
  intro isInteger
  have wordRange := holds.range isInteger
  obtain ⟨-, sum⟩ :=
    call.sum positive inside ⟨holds.full, rfl, rfl⟩ holds.number whole
  rw [isInteger] at sum
  have isWord : (before.buf.word (EMSdataCell idx) : ℚ) = q := by
    rcases holds.value with ⟨-, isWord⟩ | ⟨isFloat, -⟩
    · exact isWord
    · cases isInteger.symm.trans isFloat
  generalize before.buf.word (EMSdataCell idx) = word at *
  rw [← isWord, ← Int.cast_add] at held
  have wrapped := toInt64_range (word + value.value)
  rcases @numberSum_integer word value whole with isSum | ⟨large, isSum⟩ <;>
    rw [isSum] at sum <;> rcases held.2 with ⟨type, exact⟩ | ⟨type, near⟩
  · have same : toInt64 (word + value.value) = word + value.value := by
      rw [sum.word] at exact
      exact_mod_cast exact
    exact same ▸ wrapped
  · cases type.symm.trans sum.type
  · cases type.symm.trans sum.type
  · by_contra outside
    rw [sum.word] at near
    refine not_nearest_wrapped large ?_ near
    rw [toInt64, Int.bmod_def] at large
    rw [InInt64] at outside wordRange range
    split at large <;> omega

theorem CarefulAdds.holds {start : Ledger} {values : List EMSvalueType}
    (adds : CarefulAdds array idx start values before)
    (positive : 0 < array.nElem)
    (inside : 0 ≤ idx) {a : Int} (holds : HoldsNumber idx .integer a start.buf)
    (range : InInt64 a) : ∃ q, HoldsValue idx before.buf q := by
  induction adds with
  | none =>
      refine ⟨a, holds.full, .inl ⟨holds.type, by rw [holds.word]⟩, fun _ => ?_⟩
      rw [holds.word]
      exact range
  | call _ whole range addable call induction =>
      obtain ⟨q, held⟩ := induction
      exact (call.holdsSum positive inside held whole range addable).2.2

/-- As long as only what may be added is added, every call leaves the exact sum
as an integer, or the double nearest to it, and no addition exceeds the 64 bits.
An addition that does exceed them leaves neither. -/
theorem EMSfaa_never_wraps {start : Ledger} {values : List EMSvalueType}
    (positive : 0 < array.nElem) (inside : 0 ≤ idx) {a : Int}
    (holds : HoldsNumber idx .integer a start.buf) (range : InInt64 a)
    (adds : CarefulAdds array idx start values before) :
    ∃ q, HoldsValue idx before.buf q ∧ ∀ value result after, value.IsWhole →
      InInt64 value.value → AddCall array idx before value result after →
      (Addable idx before.buf value.value →
        (∃ old, result = .ok old) ∧ HoldsSum idx after.buf (q + value.value) ∧
          NoOverflow idx before.buf value.value) ∧
      (HoldsSum idx after.buf (q + value.value) →
        NoOverflow idx before.buf value.value) := by
  obtain ⟨q, held⟩ := adds.holds positive inside holds range
  refine ⟨q, held, ?_⟩
  intro value result after whole range call
  constructor
  · intro addable
    obtain ⟨returned, sum, -⟩ :=
      call.holdsSum positive inside held whole range addable
    exact ⟨returned, sum, addable.1⟩
  · exact call.noOverflow positive inside held whole range

end Calls

/-- The largest integer is reached, and stored as a double. -/
theorem EMSfaa_never_wraps_largest : ∃ before q,
    CarefulAdds singleElement 0
      (countingFrom (2 ^ 63 - 2)) [scalar .integer 1] before ∧
      HoldsValue 0 before.buf q := by
  have range : InInt64 (2 ^ 63 - 2) := by decide
  have addable : Addable 0 (countingFrom (2 ^ 63 - 2)).buf 1 :=
    ⟨fun _ => by decide, nofun⟩
  obtain ⟨result, after, call⟩ :=
    exists_singleElement_add 1 (countingFrom_holds (2 ^ 63 - 2)) (.inl rfl)
  have adds : CarefulAdds singleElement 0
      (countingFrom (2 ^ 63 - 2)) [scalar .integer 1] after :=
    CarefulAdds.none.call scalar_isWhole (by decide) addable call
  obtain ⟨q, held, -⟩ :=
    EMSfaa_never_wraps (by decide) le_rfl (countingFrom_holds _) range adds
  exact ⟨after, q, adds, held⟩

/-- One is added to the largest integer. -/
theorem not_EMSfaa_never_wraps :
    ¬ ∀ (array : EmsArray) (idx a : Int) (start before : Ledger)
    (values : List EMSvalueType)
    (results : List (Except EMSError EMSvalueType)) (q : ℚ),
    0 < array.nElem → 0 ≤ idx →
      HoldsNumber idx .integer a start.buf → InInt64 a →
    Adds array idx start values results before →
    (∀ value ∈ values, value.IsWhole ∧ InInt64 value.value) →
      HoldsValue idx before.buf q →
    ∀ value result after, value.IsWhole → InInt64 value.value →
      AddCall array idx before value result after →
      HoldsSum idx after.buf (q + value.value) ∧
        NoOverflow idx before.buf value.value := by
  intro always
  have range : InInt64 (2 ^ 63 - 1) := by decide
  obtain ⟨result, after, call⟩ :=
    exists_singleElement_add 1 (countingFrom_holds (2 ^ 63 - 1)) (.inl rfl)
  have held : HoldsValue 0 (countingFrom (2 ^ 63 - 1)).buf
      ((2 ^ 63 - 1 : Int) : ℚ) :=
    ⟨rfl, .inl ⟨rfl, rfl⟩, fun _ => range⟩
  obtain ⟨sum, -⟩ := always singleElement 0 _ _ _ [] [] _ (by decide) le_rfl
    (countingFrom_holds _) range .none nofun held (scalar .integer 1) _ _
      scalar_isWhole
    (by decide) call
  exact absurd (call.noOverflow (by decide) le_rfl held scalar_isWhole
    (by decide) sum rfl)
    (by decide)

end Limits

end EMS
