import EMS.FailedElements
import EMS.NumberElements

/-!
# Sums of numbers

What fetch-and-add makes of an element that holds a number when integers or
booleans are added to it.  A process alone gets back the number that was there,
and leaves the sum, in the type that the branch of the types gives it.
-/

namespace EMS

open SharedProgram

section Sums

variable [CRuntime]

/-- The type and the word of the sum of a number, given by its type and its
word, and an integer or a boolean. -/
def numberSum (type : EMSType) (word : Int) (value : EMSvalueType) :
    EMSType × Int :=
  match type, value.type with
  | .integer, .integer =>
      if 2 ^ 30 ≤ toInt64 (word + value.value) then
        (.float, CRuntime.ofInt (toInt64 (word + value.value)))
      else (.integer, toInt64 (word + value.value))
  | .integer, _ => (.integer, toInt64 (word + value.value))
  | _, _ => (.float, CRuntime.add word (CRuntime.ofInt value.value))

/-- The arguments that are added as integers. -/
def EMSvalueType.IsWhole (value : EMSvalueType) : Prop :=
  value.type = .integer ∨ value.type = .boolean

variable {array : EmsArray} {idx : Int} {before after : Ledger} {patience : Nat}
  {type : EMSType} {value key : EMSvalueType}

private theorem numberSum_number {word : Int} :
    (numberSum type word value).1.IsNumber := by
  rw [EMSType.IsNumber]
  fun_cases numberSum type word value <;> simp

theorem faaElement_addition (number : type.IsNumber) (whole : value.IsWhole)
    {result : Except EMSError (EMSvalueType × EMSType)} :
    heapSolo.Returns (faaElement patience idx type value) before result after ↔
      result = .ok (scalar type (before.buf.word (EMSdataCell idx)),
        (numberSum type (before.buf.word (EMSdataCell idx)) value).1) ∧
      after = before.setWord (EMSdataCell idx)
        (numberSum type (before.buf.word (EMSdataCell idx)) value).2 := by
  rcases number with rfl | rfl <;> rcases whole with isInteger | isBoolean
  · simp only [faaElement, faaInteger, isInteger, numberSum, bind_assoc,
      load_returns]
    split
    · simp only [bind_assoc, store_returns, pure_bind]
      exact Solo.returns_ret_iff
    · simp only [bind_assoc, store_returns, pure_bind]
      exact Solo.returns_ret_iff
  · simp only [faaElement, faaInteger, isBoolean, numberSum, bind_assoc,
      load_returns,
      store_returns, pure_bind]
    exact Solo.returns_ret_iff
  · simp only [faaElement, faaFloat, isInteger, numberSum, bind_assoc,
      load_returns,
      store_returns, pure_bind]
    exact Solo.returns_ret_iff
  · simp only [faaElement, faaFloat, isBoolean, numberSum, bind_assoc,
      load_returns,
      store_returns, pure_bind]
    exact Solo.returns_ret_iff

/-- The element is full, and holds a number of the type. -/
structure HoldsNumber (idx : Int) (type : EMSType) (word : Int)
    (buf : EmsBuf) : Prop where
  full : (buf.tag (EMSdataCell idx)).fe = .full
  type : (buf.tag (EMSdataCell idx)).type = type
  word : buf.word (EMSdataCell idx) = word

/-- The memory when the sum has been put into the element. -/
def Ledger.withSum (ledger : Ledger) (array : EmsArray) (idx : Int)
    (type : EMSType) (word : Int)
    (value : EMSvalueType) : Ledger :=
  ((ledger.setWord (EMSdataCell idx) (numberSum type word value).2).setTag
    (EMSdataCell idx)
    { ledger.buf.tag (EMSdataCell idx) with
      fe := .full, type := (numberSum type word value).1 }).released array idx

/-- A call that has found an element with a number returns the number and
leaves the sum. -/
theorem EMSfaa_sum {between : Ledger} {word : Int} (positive : 0 < array.nElem)
    (inside : 0 ≤ idx)
    (searched : heapSolo.Returns
      (EMSwriteIndexMap (patience + 1) array key) before idx between)
    (holds : HoldsNumber idx type word before.buf) (number : type.IsNumber)
    (whole : value.IsWhole) {result : Except EMSError EMSvalueType} :
    heapSolo.Returns (EMSfaa (patience + 1) array key value) before
      result after ↔
      result = .ok (scalar type word) ∧
        after = between.withSum array idx type word value := by
  have taken := EMSwriteIndexMap_returns positive searched
  have ends := taken.ends inside
  have inArray := slotSearch_lt positive ends
  have kept : between.buf.tag (EMSdataCell idx) =
      before.buf.tag (EMSdataCell idx) ∧
      between.buf.word (EMSdataCell idx) =
          before.buf.word (EMSdataCell idx) := by
    apply taken.others
    intro slot takes
    rw [SlotSearch.At.unique (.inr takes) ends]
    exact data_cell_ne_map positive
  have full : (between.buf.tag (EMSdataCell idx)).fe = .full := by
    rw [kept.1, holds.full]
  have isType : (between.buf.tag (EMSdataCell idx)).type = type := by
    rw [kept.1, holds.type]
  have isWord : between.buf.word (EMSdataCell idx) = word := by
    rw [kept.2, holds.word]
  have adds := (@faaElement_addition _ idx (between.setTag (EMSdataCell idx)
    { between.buf.tag (EMSdataCell idx) with fe := .busy }) _ (patience + 1)
      type value number whole
      _).mpr ⟨rfl, rfl⟩
  rw [EMSfaa, searched.bind_iff, if_neg (by omega),
    transition_found full, isType]
  rw [adds.bind_iff]
  simp only [Ledger.setTag_buf, EmsBuf.setTag_word, isWord, storeTag_returns,
    releaseMap_returns]
  have same : ((between.setTag (EMSdataCell idx)
      { between.buf.tag (EMSdataCell idx) with fe := .busy }).setWord
        (EMSdataCell idx)
        (numberSum type word value).2).setTag (EMSdataCell idx)
          { between.buf.tag (EMSdataCell idx) with
            fe := .full, type := (numberSum type word value).1 } =
      (between.setWord (EMSdataCell idx) (numberSum type word value).2).setTag
        (EMSdataCell idx)
        { between.buf.tag (EMSdataCell idx) with
          fe := .full, type := (numberSum type word value).1 } := by
    simp [Ledger.setTag, Ledger.setWord, EmsBuf.setTag, EmsBuf.setWord]
  rw [same]
  exact Solo.returns_ret_iff

omit [CRuntime] in
theorem scalar_isWhole {k : Int} : (scalar .integer k).IsWhole := .inl rfl

private theorem holdsNumber_withSum {word : Int} (positive : 0 < array.nElem) :
    HoldsNumber idx (numberSum type word value).1 (numberSum type word value).2
      (before.withSum array idx type word value).buf := by
  constructor
  · rw [Ledger.withSum, Ledger.released_tag positive]
    simp
  · rw [Ledger.withSum, Ledger.released_tag positive]
    simp
  · simp [Ledger.withSum]

/-! ## Calls one after another -/

/-- A call whose search for its key has ended at the element, and that has
returned. -/
inductive AddCall (array : EmsArray) (idx : Int) (before : Ledger)
    (value : EMSvalueType)
    (result : Except EMSError EMSvalueType) (after : Ledger) : Prop where
  | call {patience : Nat} {key : EMSvalueType} {between : Ledger} :
      heapSolo.Returns (EMSwriteIndexMap (patience + 1) array key) before
        idx between →
      heapSolo.Returns (EMSfaa (patience + 1) array key value) before
        result after →
      AddCall array idx before value result after

/-- The values have been added to the element one after another, each by a call
of its own. -/
inductive Adds (array : EmsArray) (idx : Int) (start : Ledger) :
    List EMSvalueType → List (Except EMSError EMSvalueType) →
      Ledger → Prop where
  | none : Adds array idx start [] [] start
  | call {values : List EMSvalueType}
      {results : List (Except EMSError EMSvalueType)}
      {before after : Ledger} {value : EMSvalueType}
      {result : Except EMSError EMSvalueType} :
      Adds array idx start values results before →
        AddCall array idx before value result after →
      Adds array idx start (values ++ [value]) (results ++ [result]) after

theorem AddCall.sum {word : Int} {result : Except EMSError EMSvalueType}
    (call : AddCall array idx before value result after)
    (positive : 0 < array.nElem)
    (inside : 0 ≤ idx) (holds : HoldsNumber idx type word before.buf)
    (number : type.IsNumber)
    (whole : value.IsWhole) :
    result = .ok (scalar type word) ∧
      HoldsNumber idx (numberSum type word value).1
        (numberSum type word value).2 after.buf := by
  obtain ⟨searched, returned⟩ := call
  obtain ⟨rfl, rfl⟩ :=
    (EMSfaa_sum positive inside searched holds number whole).mp returned
  exact ⟨rfl, holdsNumber_withSum positive⟩

theorem Adds.number {start last : Ledger} {values : List EMSvalueType}
    {results : List (Except EMSError EMSvalueType)} {word : Int}
    (adds : Adds array idx start values results last)
    (positive : 0 < array.nElem)
    (inside : 0 ≤ idx) (holds : HoldsNumber idx type word start.buf)
    (number : type.IsNumber)
    (whole : ∀ value ∈ values, value.IsWhole) :
    ∃ type' word', type'.IsNumber ∧ HoldsNumber idx type' word' last.buf := by
  induction adds with
  | none => exact ⟨type, word, number, holds⟩
  | call _ call induction =>
      rw [List.forall_mem_append, List.forall_mem_singleton] at whole
      obtain ⟨type', word', number', holds'⟩ := induction whole.1
      exact ⟨_, _, numberSum_number,
        (call.sum positive inside holds' number' whole.2).2⟩

theorem exists_addCall {word : Int} {between : Ledger}
    (positive : 0 < array.nElem)
    (inside : 0 ≤ idx) (holds : HoldsNumber idx type word before.buf)
    (number : type.IsNumber)
    (whole : value.IsWhole)
    (searched : heapSolo.Returns
      (EMSwriteIndexMap (patience + 1) array key) before idx between) :
    ∃ result after, heapSolo.Returns (EMSfaa (patience + 1) array key value)
      before result after ∧
      AddCall array idx before value result after := by
  have returned : heapSolo.Returns
      (EMSfaa (patience + 1) array key value) before
      (.ok (scalar type word)) (between.withSum array idx type word value) :=
    (EMSfaa_sum positive inside searched holds number whole).mpr ⟨rfl, rfl⟩
  exact ⟨_, _, returned, .call searched returned⟩

end Sums

end EMS
