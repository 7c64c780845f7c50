import EMS.LockOrder
import EMS.IntegerDoubles
import EMS.MixedRadix
import Mathlib

/-!
# Indexes of arrays with dimensions

`EMSnew` of JavaScript and `new` of Python compute a stride for every dimension
of an array, and `EMSidx` and `_idx` a linear index from them.  The indexes are
the numbers whose digits have the dimensions as radices.  In JavaScript all of
them are doubles.
-/

namespace EMS

open Doubles MixedRadix

/-! ## The two bindings -/

/-- The stride factors for each dimension, and the number of elements, as
`EMSnew` computes them. -/
def EMSnewStrides (dimensions : List Float) : List Float × Float :=
  dimensions.foldl
    (fun (dimStride, nElements)
      dim => (dimStride ++ [nElements], nElements * dim)) ([], 1)

/-- The stride factors for each dimension, and the number of elements, as `new`
of Python computes them. -/
def newStrides (dimensions : List Int) : List Int × Int :=
  let dimensions := if dimensions.isEmpty then [1] else dimensions
  dimensions.foldl
    (fun (dimStride, nElements)
      dim => (dimStride ++ [nElements], nElements * dim)) ([], 1)

/-- The indexes that an element of a Python array is given by. -/
inductive PyIndexes where
  | list (indexes : List Int)
  | key (key : PyKey)

/-- The sum over a list of indexes.  A list that is longer than the strides
raises an `IndexError`. -/
def idxLoop (dimStride : List Int) : List Int → Nat → Int → Option Int
  | [], _, idx => some idx
  | index :: indexes, rank, idx => do
      let stride ← dimStride[rank]?
      idxLoop dimStride indexes (rank + 1) (idx + index * stride)

/-- `_idx` of Python, the message for a key without a map left out. -/
def pyIdx (array : PyArray) (dimStride : List Int) : PyIndexes → Option PyKey
  | .list indexes => (idxLoop dimStride indexes 0 0).map PyKey.integer
  | .key (.integer idx) => some (.integer idx)
  | .key (.string text) =>
      some (if array.useMap then .string text else .integer (-1))

/-! ## Numbering -/

/-- The lists of indexes within the dimensions that are lists of numbers of
JavaScript. -/
def IndexLists (dims : List Int) : Set (List Int) :=
  { indexes | Digits dims indexes ∧ ∃ xs, List.Forall₂ IsInt xs indexes }

/-- The array has the strides that `EMSnew` computes from the dimensions, and
both bindings number its elements in the same way, one to one. -/
structure NumbersElements (dimensions : List Float) (dims : List Int)
    (array : EMSarray)
    (pyArray : PyArray) : Prop where
  strides : List.Forall₂ (fun stride (n : Nat) => IsInt stride n)
    (EMSnewStrides dimensions).1
    array.dimStride
  nElements : IsInt (EMSnewStrides dimensions).2 (newStrides dims).2
  indexes : ∃ index : List Int → Int,
    Set.BijOn index (IndexLists dims) (Set.Ico 0 (newStrides dims).2) ∧
    ∀ xs indexes, indexes ∈ IndexLists dims → List.Forall₂ IsInt xs indexes →
      (∃ y, EMSidx (.array xs) array = .number y ∧ IsInt y (index indexes)) ∧
      pyIdx pyArray (newStrides dims).1 (.list indexes) =
        some (.integer (index indexes))

/-! ## Strides -/

section Strides

variable {dims indexes : List Int} {unit base : Int}

theorem foldl_strides (dimStride : List Int) :
    dims.foldl (fun (dimStride, nElements) dim =>
      (dimStride ++ [nElements], nElements * dim))
        (dimStride, unit) =
          (dimStride ++ weights unit dims, unit * dims.prod) := by
  induction dims generalizing dimStride unit with
  | nil => simp [weights]
  | cons dim dims induction =>
      rw [List.foldl_cons, induction, weights, List.prod_cons,
        List.append_assoc, mul_assoc]
      rfl

theorem newStrides_nElements (dims : List Int) :
    (newStrides dims).2 = dims.prod := by
  cases dims with
  | nil => rfl
  | cons dim dims => simp [newStrides, foldl_strides]

private theorem newStrides_weighted (within : Digits dims indexes) :
    (newStrides dims).1 = weights 1 dims ∨ indexes = [] := by
  cases within with
  | nil => exact .inr rfl
  | cons => exact .inl (by simp [newStrides, foldl_strides, weights])

private theorem idxLoop_weighted {before later : List Int} {rank : Nat}
    (rank_eq : before.length = rank)
    (lengths : indexes.length ≤ later.length) :
    idxLoop (before ++ later) indexes rank base =
      some (base + weighted later indexes) := by
  induction indexes generalizing before later rank base with
  | nil => cases later <;> simp [idxLoop, weighted]
  | cons index indexes induction =>
      cases later with
      | nil => simp at lengths
      | cons stride later =>
          have here : (before ++ stride :: later)[rank]? = some stride := by
            simp [← rank_eq]
          have next : before ++ stride :: later =
            (before ++ [stride]) ++ later := by simp
          simp only [idxLoop, here, Option.bind_eq_bind, Option.bind_some]
          rw [next, induction (by simp [rank_eq]) (by simpa using lengths),
            weighted, add_assoc]

theorem length_weights : (weights unit dims).length = dims.length := by
  induction dims generalizing unit with
  | nil => rfl
  | cons dim dims induction => simp [weights, induction]

private theorem pyIdx_number (within : Digits dims indexes)
    (pyArray : PyArray) :
    pyIdx pyArray (newStrides dims).1 (.list indexes) =
      some (.integer (number dims indexes)) := by
  have length := within.length_eq
  rcases newStrides_weighted within with strides | rfl
  · have loop := @idxLoop_weighted indexes 0 [] (weights 1 dims) 0 rfl
      (by rw [length_weights, length])
    rw [weighted_weights, one_mul, zero_add, List.nil_append] at loop
    rw [pyIdx, strides, loop]
    rfl
  · cases within
    rfl

end Strides

/-! ## Doubles -/

section Numbers

variable {dimensions : List Float} {dims indexes : List Int} {unit base : Int}

/-- Below 2 ^ 53 the loop over the dimensions is exact. -/
private theorem foldl_strides_exact
    (numbers : List.Forall₂ IsInt dimensions dims)
    (positive : ∀ dim ∈ dims, 0 < dim) (least : 0 < unit)
    (small : unit * dims.prod ≤ 2 ^ 53)
    {nElements : Float} (integer : IsInt nElements unit)
    (dimStride : List Float) :
    ∃ strides last, dimensions.foldl
        (fun (dimStride, nElements) dim =>
          (dimStride ++ [nElements], nElements * dim))
        (dimStride, nElements) = (dimStride ++ strides, last) ∧
      List.Forall₂ IsInt strides (weights unit dims) ∧
        IsInt last (unit * dims.prod) := by
  induction numbers generalizing unit nElements dimStride with
  | nil => exact ⟨[], nElements, by simp, .nil, by simpa using integer⟩
  | @cons dimension dim dimensions dims number _ induction =>
      simp only [List.mem_cons, forall_eq_or_imp] at positive
      rw [List.prod_cons, ← mul_assoc] at small
      have first := positive.1
      have rest := List.prod_pos positive.2
      have product : 0 < unit * dim := mul_pos least first
      have bound : unit * dim ≤ 2 ^ 53 := by
        calc unit * dim ≤ unit * dim * dims.prod :=
          le_mul_of_one_le_right product.le rest
          _ ≤ 2 ^ 53 := small
      have times := integer.mul number (representable_of_le (by omega))
      obtain ⟨strides, last, loop, exact, total⟩ :=
        induction positive.2 product small times (dimStride ++ [nElements])
      refine ⟨nElements :: strides, last, ?_, .cons integer exact, ?_⟩
      · rw [List.foldl_cons, loop, List.append_assoc]
        rfl
      · rwa [List.prod_cons, ← mul_assoc]

/-- Below 2 ^ 53 the sum over the indexes is exact. -/
theorem EMSidx_exact {xs : List Float} (numbers : List.Forall₂ IsInt xs indexes)
    {before later : List Nat} {rank : Nat} (rank_eq : before.length = rank)
    (lengths : indexes.length ≤ later.length) (least : 0 ≤ base)
    (doubles : ∀ stride ∈ later, Representable stride)
    (nonneg : ∀ index ∈ indexes, 0 ≤ index)
    (small : base + weighted (later.map Nat.cast) indexes ≤ 2 ^ 53)
    {idx : Float} (integer : IsInt idx base) :
    IsInt ((xs.zipIdx rank).foldl
      (fun idx (x, i) => idx + x * match (before ++ later)[i]? with
        | some stride => Float.ofNat stride
        | none => NaN) idx) (base + weighted (later.map Nat.cast) indexes) := by
  induction numbers generalizing before later rank base idx with
  | nil => cases later <;> simpa [weighted] using integer
  | @cons x index xs indexes number _ induction =>
      cases later with
      | nil => simp at lengths
      | cons stride later =>
          simp only [List.mem_cons, forall_eq_or_imp] at nonneg doubles
          have others : 0 ≤ weighted (later.map Nat.cast) indexes := by
            refine weighted_nonneg ?_ nonneg.2
            simp
          have product : 0 ≤ index * (stride : Int) :=
            mul_nonneg nonneg.1 (by omega)
          simp only [List.map_cons, weighted] at small ⊢
          have here : (before ++ stride :: later)[rank]? = some stride := by
            simp [← rank_eq]
          have next : before ++ stride :: later =
            (before ++ [stride]) ++ later := by simp
          rw [List.zipIdx_cons, List.foldl_cons, ← add_assoc]
          simp only [here]
          rw [next]
          have times :=
            number.mul (isInt_ofNat doubles.1) (representable_of_le (by omega))
          exact induction (by simp [rank_eq]) (by simpa using lengths)
            (by omega) doubles.2 nonneg.2
            (by omega) (integer.add times (representable_of_le (by omega)))

private theorem not_isInt_odd {y : Float}
    (integer : IsInt y (2 ^ 53 + 1)) : False := by
  have even := integer.representable.even (by decide)
  exact absurd even (by decide)

/-- The numbers of one array from 2 ^ 53 on are not all doubles. -/
theorem NumbersElements.small {array : EMSarray} {pyArray : PyArray}
    (numbers : NumbersElements dimensions dims array pyArray) :
    dims.prod ≤ 2 ^ 53 := by
  by_contra large
  obtain ⟨index, bijection, numbered⟩ := numbers.indexes
  have total := numbers.nElements
  rw [newStrides_nElements] at bijection total
  have even := total.representable.even (by omega)
  obtain ⟨indexes, within, isOdd⟩ := bijection.surjOn
    (show 2 ^ 53 + 1 ∈ Set.Ico 0 dims.prod from ⟨by decide, by omega⟩)
  obtain ⟨xs, ofIndexes⟩ := within.2
  obtain ⟨⟨y, -, integer⟩, -⟩ := numbered xs indexes within ofIndexes
  rw [isOdd] at integer
  exact not_isInt_odd integer

private theorem representable_strides {strides : List Float}
    {dimStride : List Nat}
    (exact : List.Forall₂
      (fun stride (n : Nat) => IsInt stride n) strides dimStride) :
    ∀ stride ∈ dimStride, Representable stride := by
  induction exact with
  | nil => nofun
  | cons integer _ induction =>
      simp only [List.mem_cons, forall_eq_or_imp]
      exact ⟨integer.representable, induction⟩

private theorem indexLists_small (positive : ∀ dim ∈ dims, 0 < dim)
    (small : dims.prod ≤ 2 ^ 53) :
    IndexLists dims = { indexes | Digits dims indexes } := by
  refine Set.Subset.antisymm (fun indexes within => within.1) ?_
  intro indexes within
  refine ⟨within, indexes.map Float.ofInt, ?_⟩
  rw [List.forall₂_map_left_iff, List.forall₂_same]
  intro index member
  obtain ⟨inside, dim, dimMember, below⟩ := digits_within within index member
  have bound : dim ≤ dims.prod :=
    Int.le_of_dvd (List.prod_pos positive) (List.dvd_prod dimMember)
  exact isInt_ofInt (representable_of_le (by omega))

theorem numbersElements_of_small (numbers : List.Forall₂ IsInt dimensions dims)
    (positive : ∀ dim ∈ dims, 0 < dim) (small : dims.prod ≤ 2 ^ 53)
    (pyArray : PyArray) :
    ∃ array, NumbersElements dimensions dims array pyArray := by
  have one : IsInt 1 1 := isInt_ofNat (representable_of_le (by decide))
  have zero : IsInt 0 0 := isInt_ofNat (representable_of_le (by decide))
  obtain ⟨strides, last, loop, exact, total⟩ :=
    foldl_strides_exact numbers positive zero_lt_one (by rwa [one_mul]) one []
  have naturals : ((weights 1 dims).map Int.toNat).map Nat.cast =
      weights 1 dims := by
    conv_rhs => rw [← List.map_id (weights 1 dims)]
    rw [List.map_map]
    apply List.map_congr_left
    intro weight member
    exact Int.toNat_of_nonneg
      (weights_pos positive zero_lt_one weight member).le
  rw [one_mul] at total
  have dimStride := exact
  rw [← naturals, List.forall₂_map_right_iff] at dimStride
  refine ⟨⟨0, false, (weights 1 dims).map Int.toNat⟩, ?_, ?_,
    number dims, ?_, ?_⟩
  · rw [EMSnewStrides, loop]
    exact dimStride
  · rw [EMSnewStrides, loop, newStrides_nElements]
    exact total
  · rw [indexLists_small positive small, newStrides_nElements]
    exact number_bijOn positive
  · intro xs indexes within ofIndexes
    refine ⟨⟨_, rfl, ?_⟩, pyIdx_number within.1 pyArray⟩
    have sum : weighted
        (((weights 1 dims).map Int.toNat).map Nat.cast) indexes =
        number dims indexes := by rw [naturals, weighted_weights, one_mul]
    have below := number_lt within.1
    have summed :=
      @EMSidx_exact indexes 0 xs ofIndexes []
        ((weights 1 dims).map Int.toNat) 0 rfl
      (by rw [List.length_map, length_weights, within.1.length_eq]) le_rfl
      (representable_strides dimStride)
      (fun index member => (digits_within within.1 index member).1)
        (by omega) 0 zero
    rwa [sum, zero_add] at summed

/-- Both bindings number the elements one to one, and in the same way, as long
as there are no more than 2 ^ 53. -/
theorem elements_numbered_iff (numbers : List.Forall₂ IsInt dimensions dims)
    (positive : ∀ dim ∈ dims, 1 ≤ dim) (pyArray : PyArray) :
    (∃ array, NumbersElements dimensions dims array pyArray) ↔
      dims.prod ≤ 2 ^ 53 := by
  constructor
  · rintro ⟨array, numbered⟩
    exact numbered.small
  · exact fun small => numbersElements_of_small numbers positive small pyArray

end Numbers

theorem elements_numbered_three_four :
    ∃ array, NumbersElements [Float.ofInt 3, Float.ofInt 4] [3, 4] array
      ⟨0, 0, false⟩ := by
  have numbers : List.Forall₂ IsInt [Float.ofInt 3, Float.ofInt 4] [3, 4] :=
    .cons (isInt_ofInt (representable_of_le (by decide)))
      (.cons (isInt_ofInt (representable_of_le (by decide))) .nil)
  exact (elements_numbered_iff numbers (by decide) ⟨0, 0, false⟩).mpr
    (by decide)

/-- Of 2 ^ 60 elements in two dimensions some have no double for a number. -/
theorem not_elements_numbered :
    ¬ ∀ (dimensions : List Float) (dims : List Int),
      List.Forall₂ IsInt dimensions dims →
      (∀ dim ∈ dims, 1 ≤ dim) → Representable dims.prod →
      ∀ pyArray, ∃ array, NumbersElements dimensions dims array pyArray := by
  intro claim
  have two : IsInt (Float.ofInt (2 ^ 30)) (2 ^ 30) :=
    isInt_ofInt (representable_of_le (by decide))
  have product : Representable (2 ^ 30 * 2 ^ 30) := by
    refine .inr ⟨2 ^ 52, 8,
      ⟨by decide, by decide, .inl le_rfl⟩, by decide, by decide, ?_⟩
    norm_num
  obtain ⟨array, numbered⟩ :=
    claim _ [2 ^ 30, 2 ^ 30] (.cons two (.cons two .nil)) (by decide)
    (by simpa using product) ⟨0, 0, false⟩
  exact absurd numbered.small (by decide)

end EMS
