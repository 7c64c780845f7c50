import EMS.NumberHistories
import EMS.NumberSums

/-!
# Counters

An element that holds an integer, and to which integers are added.  From 2 ^ 30
on the sum is a double, and it stays one when it becomes smaller again.  As long
as the doubles are exact, nobody can tell from the sums in which order the
integers have been added.
-/

namespace EMS

open SharedProgram Doubles

section Counters

local instance counterRuntime : CRuntime := ieeeRuntime

/-- The value is the number, as an integer or as a double. -/
def EMSvalueType.Amounts (value : EMSvalueType) (k : Int) : Prop :=
  value.type = .integer ∧ value.value = k ∨ value.type = .float ∧
    IsInt (toDouble value.value) k

/-- The element is full and holds the number, as an integer or as a double. -/
def ElementAmounts (idx : Int) (buf : EmsBuf) (k : Int) : Prop :=
  ∃ type word, HoldsNumber idx type word buf ∧ (scalar type word).Amounts k

/-- Every sum on the way is of magnitude at most 2 ^ 53. -/
def SmallSums (a : Int) (ys : List Int) : Prop :=
  ∀ front, front <+: ys → front ≠ [] → (a + front.sum).natAbs ≤ 2 ^ 53

/-- A sum on the way has been stored as a double. -/
def Promoted (a : Int) (ys : List Int) : Prop :=
  ∃ front, front <+: ys ∧ front ≠ [] ∧ 2 ^ 30 ≤ a + front.sum

/-- What is added to a double is one itself. -/
def ExactArguments (a : Int) (ys : List Int) : Prop :=
  ∀ front y, front ++ [y] <+: ys → Promoted a front → Representable y

/-- Each call has returned the sum of what was added before it. -/
def ReturnsSums (a : Int) (ys : List Int)
    (results : List (Except EMSError EMSvalueType)) : Prop :=
  results.length = ys.length ∧ ∀ i < ys.length, ∃ value,
    results[i]? = some (.ok value) ∧
    value.Amounts (a + (ys.take i).sum)

/-- How the element holds the sum of what has been added. -/
def CountsTo (a : Int) (ys : List Int) (type : EMSType) (word : Int) : Prop :=
  type = .integer ∧ word = a + ys.sum ∨
    type = .float ∧ IsInt (toDouble word) (a + ys.sum) ∧ Promoted a ys

theorem CountsTo.amounts {a : Int} {ys : List Int} {type : EMSType} {word : Int}
    (counts : CountsTo a ys type word) :
    (scalar type word).Amounts (a + ys.sum) := by
  rcases counts with ⟨rfl, rfl⟩ | ⟨rfl, isInt, -⟩
  · exact .inl ⟨rfl, rfl⟩
  · exact .inr ⟨rfl, isInt⟩

theorem CountsTo.number {a : Int} {ys : List Int} {type : EMSType} {word : Int}
    (counts : CountsTo a ys type word) : type.IsNumber := by
  rcases counts with ⟨rfl, -⟩ | ⟨rfl, -⟩
  · exact .inl rfl
  · exact .inr rfl

theorem Promoted.append {a : Int} {ys : List Int} (promoted : Promoted a ys)
    (zs : List Int) :
    Promoted a (ys ++ zs) := by
  obtain ⟨front, isPrefix, rest⟩ := promoted
  exact ⟨front, isPrefix.trans (List.prefix_append ys zs), rest⟩

theorem SmallSums.front {a : Int} {ys zs : List Int}
    (small : SmallSums a (ys ++ zs)) :
    SmallSums a ys :=
  fun front isPrefix => small front (isPrefix.trans (List.prefix_append ys zs))

theorem ExactArguments.front {a : Int} {ys zs : List Int}
    (exact : ExactArguments a (ys ++ zs)) :
    ExactArguments a ys :=
  fun front y isPrefix =>
    exact front y (isPrefix.trans (List.prefix_append ys zs))

theorem double_ofInt {k : Int} (representable : Representable k) :
    IsInt (toDouble (CRuntime.ofInt k)) k :=
  isInt_stored (isInt_ofInt representable)

theorem double_add {word k y y' : Int} (isInt : IsInt (toDouble word) k)
    (addend : IsInt (toDouble (CRuntime.ofInt y)) y')
    (representable : Representable (k + y')) :
    IsInt (toDouble (CRuntime.add word (CRuntime.ofInt y))) (k + y') :=
  isInt_stored (IsInt.add isInt addend representable)

/-- One argument more is added. -/
theorem CountsTo.next {a : Int} {ys : List Int} {type : EMSType} {word y : Int}
    (counts : CountsTo a ys type word)
    (small : (a + (ys ++ [y]).sum).natAbs ≤ 2 ^ 53)
    (exact : Promoted a ys → Representable y) :
    CountsTo a (ys ++ [y]) (numberSum type word (scalar .integer y)).1
      (numberSum type word (scalar .integer y)).2 := by
  have sum : a + (ys ++ [y]).sum = a + ys.sum + y := by
    rw [List.sum_append, List.sum_singleton, Int.add_assoc]
  rw [sum] at small
  rcases counts with ⟨rfl, rfl⟩ | ⟨rfl, isInt, promoted⟩
  · have whole : toInt64 (a + ys.sum + y) = a + ys.sum + y := by
      apply Int.bmod_eq_of_le <;> omega
    simp only [numberSum, scalar, whole]
    split
    · next large =>
        refine .inr ⟨rfl, ?_, ys ++ [y], List.prefix_rfl, by simp, sum ▸ large⟩
        rw [sum]
        dsimp only
        exact double_ofInt (representable_of_le small)
    · exact .inl ⟨rfl, sum.symm⟩
  · refine .inr ⟨rfl, ?_, promoted.append [y]⟩
    rw [sum]
    exact double_add isInt (double_ofInt (exact promoted))
      (representable_of_le small)

variable {array : EmsArray} {idx : Int} {start last : Ledger} {a : Int}

/-- The element holds the sum of what has been added, and every call has
returned the sum before it. -/
theorem Adds.counts {values : List EMSvalueType}
    {results : List (Except EMSError EMSvalueType)}
    (adds : Adds array idx start values results last)
    (positive : 0 < array.nElem)
    (inside : 0 ≤ idx) (holds : HoldsNumber idx .integer a start.buf)
    {ys : List Int}
    (isMap : values = ys.map (scalar .integer)) (small : SmallSums a ys)
    (exact : ExactArguments a ys) :
    (∃ type word, HoldsNumber idx type word last.buf ∧
      CountsTo a ys type word) ∧
      ReturnsSums a ys results := by
  induction adds generalizing ys with
  | none =>
      obtain rfl := List.map_eq_nil_iff.mp isMap.symm
      refine ⟨⟨.integer, a, holds, .inl ⟨rfl, by simp⟩⟩, rfl, ?_⟩
      intro i below
      cases below
  | @call values results before after value result _ call induction =>
      obtain ⟨zs, rest, rfl, rfl, isLast⟩ := List.append_eq_map_iff.mp isMap
      obtain ⟨y, rfl, rfl⟩ := List.map_eq_singleton_iff.mp isLast
      obtain ⟨⟨type, word, here, counts⟩, sameLength, returns⟩ :=
        induction rfl small.front exact.front
      obtain ⟨rfl, there⟩ :=
        call.sum positive inside here counts.number scalar_isWhole
      have next :=
        counts.next (small _ List.prefix_rfl (by simp))
          (exact zs y List.prefix_rfl)
      refine ⟨⟨_, _, there, next⟩, by simp [sameLength], ?_⟩
      intro i below
      rw [List.length_append, List.length_singleton] at below
      rcases Nat.lt_succ_iff_lt_or_eq.mp below with earlier | rfl
      · obtain ⟨value, isValue, amounts⟩ := returns i earlier
        refine ⟨value, ?_, ?_⟩
        · rw [List.getElem?_append_left (sameLength ▸ earlier), isValue]
        · rw [List.take_append_of_le_length earlier.le]
          exact amounts
      · refine ⟨scalar type word, ?_, ?_⟩
        · simp [← sameLength]
        · rw [List.take_left]
          exact counts.amounts

/-- In whatever order the integers are added, the element ends with their sum,
and each call returns the sum before it.  No call gets stuck. -/
theorem EMSfaa_any_order (positive : 0 < array.nElem) (inside : 0 ≤ idx)
    {ys zs : List Int}
    (perm : zs.Perm ys) (small : SmallSums a zs) (exact : ExactArguments a zs)
    (holds : HoldsNumber idx .integer a start.buf) :
    (∀ results last, Adds array idx start
      (zs.map (scalar .integer)) results last →
      ElementAmounts idx last.buf (a + ys.sum) ∧ ReturnsSums a zs results) ∧
    ∀ front y rest, zs = front ++ y :: rest → ∀ results middle,
      Adds array idx start (front.map (scalar .integer)) results middle →
      ∀ patience key between,
        heapSolo.Returns (EMSwriteIndexMap (patience + 1) array key) middle
          idx between →
        ∃ result after,
          heapSolo.Returns (EMSfaa (patience + 1) array key (scalar .integer y))
            middle result
            after ∧
          AddCall array idx middle (scalar .integer y) result after := by
  constructor
  · intro results last adds
    obtain ⟨⟨type, word, here, counts⟩, returns⟩ :=
      adds.counts positive inside holds rfl small exact
    rw [← perm.sum_eq]
    exact ⟨⟨type, word, here, counts.amounts⟩, returns⟩
  · rintro front y rest rfl results middle adds patience key between searched
    obtain ⟨type, word, number, here⟩ :=
      adds.number positive inside holds (.inl rfl) (by
      intro value member
      obtain ⟨x, -, rfl⟩ := List.mem_map.mp member
      exact scalar_isWhole)
    exact exists_addCall positive inside here number scalar_isWhole searched

/-! ## A rounded argument -/

/-- One element, which is full and holds an integer. -/
def countingFrom (a : Int) : Ledger :=
  ⟨uniformBuf ⟨.full, .integer, 0⟩ a, [], false⟩

theorem countingFrom_holds (a : Int) :
    HoldsNumber 0 .integer a (countingFrom a).buf :=
  ⟨rfl, rfl, rfl⟩

private theorem singleElement_searched (ledger : Ledger) :
    heapSolo.Returns (EMSwriteIndexMap 1 singleElement (scalar .integer 0))
      ledger 0 ledger := by
  rw [EMSwriteIndexMap_unmapped 1 singleElement rfl (by decide) (by decide)]
  exact .ret

theorem exists_singleElement_add {before : Ledger} {type : EMSType}
    {word : Int} (y : Int)
    (holds : HoldsNumber 0 type word before.buf) (number : type.IsNumber) :
    ∃ result after, AddCall singleElement 0 before (scalar .integer y)
      result after := by
  obtain ⟨result, after, -, call⟩ :=
    exists_addCall (by decide) le_rfl holds number
    (scalar_isWhole (k := y)) (singleElement_searched before)
  exact ⟨result, after, call⟩

private theorem exists_adds (a : Int) (ys : List Int) : ∃ results last,
    Adds singleElement 0 (countingFrom a) (ys.map (scalar .integer))
      results last := by
  induction ys using List.reverseRecOn with
  | nil => exact ⟨[], countingFrom a, .none⟩
  | append_singleton ys y induction =>
      obtain ⟨results, middle, adds⟩ := induction
      obtain ⟨type, word, number, here⟩ :=
        adds.number (by decide) le_rfl (countingFrom_holds a) (.inl rfl) (by
          intro value member
          obtain ⟨x, -, rfl⟩ := List.mem_map.mp member
          exact scalar_isWhole)
      obtain ⟨result, last, call⟩ := exists_singleElement_add y here number
      rw [List.map_append]
      exact ⟨_, last, adds.call call⟩

theorem smallSums_iff {a : Int} {ys : List Int} :
    SmallSums a ys ↔ ∀ front ∈ ys.inits, front ≠ [] → (a + front.sum).natAbs ≤
      2 ^ 53 := by
  simp only [SmallSums, List.mem_inits]

/-- The sum becomes a double and then smaller again. -/
theorem EMSfaa_any_order_promoted : ∃ results last,
    Adds singleElement 0 (countingFrom (2 ^ 30 - 1))
      ([1, -3].map (scalar .integer)) results last ∧
      ElementAmounts 0 last.buf (2 ^ 30 - 1 + [-3, 1].sum) ∧
      ReturnsSums (2 ^ 30 - 1) [1, -3] results := by
  obtain ⟨results, last, adds⟩ := exists_adds (2 ^ 30 - 1) [1, -3]
  have exact : ExactArguments (2 ^ 30 - 1) [1, -3] := by
    intro front y isPrefix _
    have member : y ∈ [1, -3] := isPrefix.subset (by simp)
    refine representable_of_le ?_
    simp only [List.mem_cons, List.not_mem_nil, or_false] at member
    omega
  have swapped : List.Perm [1, -3] [-3, 1] := .swap (-3) 1 []
  exact ⟨results, last, adds, (EMSfaa_any_order (by decide) le_rfl swapped
    (smallSums_iff.mpr (by decide)) exact (countingFrom_holds _)).1
      results last adds⟩

private theorem rounded_argument :
    IsInt (toDouble (CRuntime.ofInt (1 - 2 ^ 54))) (-2 ^ 54) := by
  have word : CRuntime.ofInt (1 - 2 ^ 54) = -4372995238176751616 := by
    decide +kernel
  rw [word]
  have unpacked : (toDouble (-4372995238176751616)).toModel.unpack =
      .finite .negative (2 ^ 52) 2 (by decide) := rfl
  apply isInt_finite unpacked
  norm_num [Float.Model.UnpackedFloat.Sign.apply]

/-- An argument that is no double is rounded before it is added. -/
theorem not_EMSfaa_any_order :
    ¬ ∀ (array : EmsArray) (idx a : Int) (ys zs : List Int)
    (start : Ledger), 0 < array.nElem → 0 ≤ idx → zs.Perm ys → SmallSums a ys →
      SmallSums a zs →
    HoldsNumber idx .integer a start.buf → ∀ results last,
    Adds array idx start (zs.map (scalar .integer)) results last →
      ElementAmounts idx last.buf (a + ys.sum) ∧ ReturnsSums a zs results := by
  intro always
  have first : numberSum .integer (2 ^ 53 - 1) (scalar .integer 1) =
      (.float, CRuntime.ofInt (2 ^ 53)) := by
    have sum : toInt64 (2 ^ 53 - 1 + 1) = 2 ^ 53 := by decide
    simp only [numberSum, scalar, sum]
    rw [if_pos (by decide)]
  obtain ⟨result, middle, call⟩ :=
    exists_singleElement_add 1 (countingFrom_holds (2 ^ 53 - 1)) (.inl rfl)
  obtain ⟨-, here⟩ :=
    call.sum (by decide) le_rfl (countingFrom_holds _) (.inl rfl) scalar_isWhole
  rw [first] at here
  obtain ⟨result', last, call'⟩ :=
    exists_singleElement_add (1 - 2 ^ 54) here (.inr rfl)
  obtain ⟨-, there⟩ :=
    call'.sum (by decide) le_rfl here (.inr rfl) scalar_isWhole
  obtain ⟨⟨type, word, holds, amounts⟩, -⟩ :=
    always singleElement 0 (2 ^ 53 - 1)
    [1, 1 - 2 ^ 54] [1, 1 - 2 ^ 54] _ (by decide) le_rfl (.refl _)
      (smallSums_iff.mpr (by decide))
    (smallSums_iff.mpr (by decide)) (countingFrom_holds _) _ last
      ((Adds.none.call call).call call')
  have isFloat : type = .float := holds.type.symm.trans there.type
  have isWord := holds.word.symm.trans there.word
  rcases amounts with ⟨isInteger, -⟩ | ⟨-, expected⟩
  · rw [isFloat] at isInteger
    cases isInteger
  · have sum :=
      double_add (double_ofInt (k := 2 ^ 53) (representable_of_le (by decide)))
      rounded_argument (representable_of_le (by decide))
    rw [scalar, isWord] at expected
    exact absurd (expected.unique sum) (by decide)

end Counters

end EMS
