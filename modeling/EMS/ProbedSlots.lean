import EMS.SlotSearch

/-!
# The slots that are probed

The search for a key starts at an absolute value and goes up, so it stays in the
map, whatever it finds there.  The one number without an absolute value is the
least one, and the search for a key with this number starts before the map.
-/

namespace EMS

open SharedProgram

/-- The cell whose word or tag is accessed. -/
def Access.cell : Access → Option Cell
  | .load cell => some cell
  | .store cell _ => some cell
  | .loadTag cell => some cell
  | .storeTag cell _ => some cell
  | .casTag cell _ _ => some cell
  | _ => none

/-- The access is to no word or tag but those of the slots of the map. -/
def Access.InMap (array : EmsArray) (act : Access) : Prop :=
  ∀ cell, act.cell = some cell → ∃ slot, 0 ≤ slot ∧ slot < array.nElem ∧
    cell = EMSmapCell array.nElem slot

/-- The program accesses no words and tags but those of the map. -/
abbrev StaysInMap {α : Type} (array : EmsArray) (prog : EmsProg α) : Prop :=
  prog.Only (Access.InMap array)

/-- What `EMSkey2index` may answer. -/
def IsIndex (array : EmsArray) (idx : Int) : Prop :=
  -1 ≤ idx ∧ idx < array.nElem

/-- The search for the key does not leave the map, whatever memory holds. -/
structure ProbesInside [CRuntime] (array : EmsArray)
    (key : EMSvalueType) : Prop where
  lookup : ∀ patience,
    StaysInMap array (EMSkey2index patience array key array.isMapped)
  insertion : ∀ patience, StaysInMap array (EMSwriteIndexMap patience array key)
  index : ∀ patience,
    (EMSkey2index patience array key array.isMapped).Answers (IsIndex array)

/-! ## Where a search starts -/

private theorem llabs_nonneg_iff {x : Int} : 0 ≤ llabs x ↔ x ≠ -2 ^ 63 := by
  rw [llabs]
  split
  · next least => simp [least]
  · next other => exact iff_of_true (abs_nonneg x) other

theorem llabs_cases (x : Int) : 0 ≤ llabs x ∨ llabs x = -2 ^ 63 := by
  by_cases least : x = -2 ^ 63
  · right
    rw [llabs, if_pos least, least]
  · exact .inl (llabs_nonneg_iff.mpr least)

theorem keyStart_cases {key : EMSvalueType} {start : Int}
    (started : keyStart key = some start) : 0 ≤ start ∨ start = -2 ^ 63 := by
  rw [keyStart] at started
  cases type : key.type with
  | boolean =>
      left
      simp only [type, Option.some.injEq] at started
      rw [← started]
      split <;> decide
  | integer | float =>
      simp only [type, Option.some.injEq] at started
      rw [← started]
      exact llabs_cases _
  | string =>
      simp only [type, Option.some.injEq] at started
      rw [← started]
      exact llabs_cases _
  | _ => simp [type] at started

/-! ## Probing -/

section Probing

variable {α : Type} {array : EmsArray} {cell : Cell} {patience : Nat}

private theorem inMap_slot {slot : Int} (inside : 0 ≤ slot)
    (below : slot < array.nElem) {act : Access}
    (at' : act.cell = some (EMSmapCell array.nElem slot)) :
    act.InMap array := by
  intro cell accesses
  have same := at'.symm.trans accesses
  exact ⟨slot, inside, below, (Option.some.inj same).symm⟩

theorem inMap_free {act : Access} (free : act.cell = none) :
    act.InMap array := by
  intro cell accesses
  rw [free] at accesses
  cases accesses

/-- The cell of a slot of the map. -/
def IsSlot (array : EmsArray) (cell : Cell) : Prop :=
  ∃ slot, 0 ≤ slot ∧ slot < array.nElem ∧ cell = EMSmapCell array.nElem slot

theorem IsSlot.act (isSlot : IsSlot array cell) {act : Access}
    (at' : act.cell = some cell) :
    act.InMap array := by
  obtain ⟨slot, inside, below, rfl⟩ := isSlot
  exact inMap_slot inside below at'

theorem storeFE_inMap (isSlot : IsSlot array cell) {fe : FE} :
    StaysInMap array (storeFE cell fe) :=
  ⟨isSlot.act rfl, fun _ => ⟨isSlot.act rfl, fun _ => trivial⟩⟩

private theorem storeType_inMap (isSlot : IsSlot array cell) {type : EMSType} :
    StaysInMap array (storeType cell type) :=
  ⟨isSlot.act rfl, fun _ => ⟨isSlot.act rfl, fun _ => trivial⟩⟩

theorem transition_inMap (isSlot : IsSlot array cell) {oldFE newFE : FE} :
    StaysInMap array (EMStransitionFEtag patience cell none oldFE newFE) := by
  induction patience with
  | zero => trivial
  | succ patience induction =>
      simp only [EMStransitionFEtag]
      apply Prog.only_perform (isSlot.act rfl)
      intro memTag
      apply Prog.only_perform (isSlot.act rfl)
      intro found
      split
      · trivial
      · exact induction

theorem equalsHeap_inMap {text : List UInt8} {address : Int} :
    StaysInMap array (equalsHeap text address) := by
  induction text generalizing address with
  | nil => exact ⟨inMap_free rfl, fun _ => trivial⟩
  | cons expected text induction =>
      rw [equalsHeap]
      apply Prog.only_perform (inMap_free rfl)
      intro byte
      split
      · exact induction
      · trivial

private theorem copyToHeap_inMap {address : Int} {text : List UInt8} :
    StaysInMap array (copyToHeap address text) := by
  induction text generalizing address with
  | nil => exact ⟨inMap_free rfl, fun _ => trivial⟩
  | cons byte text induction => exact ⟨inMap_free rfl, fun _ => induction⟩

private theorem alloc_inMap {bytes : Nat} :
    StaysInMap array (emsMutexMem_alloc patience bytes) := by
  have locks : StaysInMap array (lockMemMutex patience) := by
    induction patience with
    | zero => trivial
    | succ patience induction =>
        rw [lockMemMutex]
        apply Prog.only_perform (inMap_free rfl)
        intro acquired
        split
        · trivial
        · exact induction
  apply locks.bind
  intro _
  refine ⟨inMap_free rfl, fun answer => ?_⟩
  cases answer with
  | error fault => trivial
  | ok address => exact ⟨inMap_free rfl, fun _ => trivial⟩

variable [CRuntime] {key : EMSvalueType} {slot : Int}

private theorem lookupMatches_inMap
    (isSlot : IsSlot array (EMSmapCell array.nElem slot)) {mapTags : Tag} :
    StaysInMap array (lookupMatches array key mapTags slot) := by
  rw [lookupMatches]
  split
  · cases key.type with
    | boolean | integer | float => exact ⟨isSlot.act rfl, fun _ => trivial⟩
    | string => exact ⟨isSlot.act rfl, fun _ => equalsHeap_inMap⟩
    | _ => trivial
  · trivial

private theorem writeMatches_inMap
    (isSlot : IsSlot array (EMSmapCell array.nElem slot)) {mapTags : Tag} :
    StaysInMap array (writeMatches array key mapTags slot) := by
  rw [writeMatches]
  cases mapTags.type with
  | boolean | integer | float => exact ⟨isSlot.act rfl, fun _ => trivial⟩
  | string => exact ⟨isSlot.act rfl, fun _ => equalsHeap_inMap⟩
  | _ => trivial

omit [CRuntime] in
private theorem insertKey_inMap
    (isSlot : IsSlot array (EMSmapCell array.nElem slot)) :
    StaysInMap array (insertKey patience array key slot) := by
  rw [insertKey]
  apply (storeType_inMap isSlot).bind
  intro _
  cases key.type with
  | boolean | integer | float | undefined =>
      exact ⟨isSlot.act rfl, fun _ => trivial⟩
  | string =>
      apply alloc_inMap.bind
      intro address
      split
      · trivial
      · refine ⟨isSlot.act rfl, fun _ => ?_⟩
        exact copyToHeap_inMap.bind fun _ => trivial
  | _ => trivial

omit [CRuntime] in
theorem isSlot_tmod (positive : 0 < array.nElem) {idx : Int}
    (inside : 0 ≤ idx.tmod array.nElem) :
    IsSlot array (EMSmapCell array.nElem (idx.tmod array.nElem)) :=
  ⟨_, inside, Int.tmod_lt_of_pos idx positive, rfl⟩

private theorem lookupProbe_inMap (positive : 0 < array.nElem)
    {tries : Nat} {idx : Int}
    (inside : 0 ≤ idx.tmod array.nElem) :
    StaysInMap array (lookupProbe patience array key tries idx) := by
  induction tries generalizing idx with
  | zero => trivial
  | succ tries induction =>
      have isSlot := isSlot_tmod positive inside
      rw [lookupProbe]
      apply (transition_inMap isSlot).bind
      intro mapTags
      apply (lookupMatches_inMap isSlot).bind
      intro matched
      apply (storeFE_inMap isSlot).bind
      intro _
      split
      · trivial
      · split
        · trivial
        · exact induction (Int.tmod_nonneg _ (by omega))

private theorem lookupProbe_answers (positive : 0 < array.nElem)
    {tries : Nat} {idx : Int}
    (inside : 0 ≤ idx.tmod array.nElem) :
    (lookupProbe patience array key tries idx).Answers (IsIndex array) := by
  induction tries generalizing idx with
  | zero => exact ⟨le_rfl, by omega⟩
  | succ tries induction =>
      have below := Int.tmod_lt_of_pos idx positive
      rw [lookupProbe]
      apply Prog.answers_true.bind
      intro mapTags _
      apply Prog.answers_true.bind
      intro matched _
      apply Prog.answers_true.bind
      intro _ _
      split
      · exact ⟨by omega, below⟩
      · split
        · exact ⟨le_rfl, by omega⟩
        · exact induction (Int.tmod_nonneg _ (by omega))

theorem writeProbe_inMap (positive : 0 < array.nElem) {tries : Nat} {idx : Int}
    (inside : 0 ≤ idx.tmod array.nElem) :
    StaysInMap array (writeProbe patience array key tries idx) := by
  induction tries generalizing idx with
  | zero => trivial
  | succ tries induction =>
      have isSlot := isSlot_tmod positive inside
      simp only [writeProbe]
      apply (transition_inMap isSlot).bind
      intro mapTags
      split
      · apply (insertKey_inMap isSlot).bind
        intro inserted
        cases inserted <;> trivial
      · have goesOn : StaysInMap array (do
            storeFE (EMSmapCell array.nElem (idx.tmod array.nElem)) .full
            writeProbe patience array key tries
                (idx.tmod array.nElem + 1)) := by
          apply (storeFE_inMap isSlot).bind
          intro _
          exact induction (Int.tmod_nonneg _ (by omega))
        split
        · apply (writeMatches_inMap isSlot).bind
          intro matched
          split
          · cases mapTags.type with
            | boolean | integer | float | string =>
                exact (storeFE_inMap isSlot).bind fun _ => trivial
            | _ => trivial
          · exact goesOn
        · exact goesOn

theorem EMSkey2index_inMap (positive : 0 < array.nElem) {start : Int}
    (started : keyStart key = some start) {isMapped : Bool}
    (inside : isMapped = true → 0 ≤ start.tmod array.nElem) :
    StaysInMap array (EMSkey2index patience array key isMapped) := by
  simp only [EMSkey2index, started]
  split
  · next mapped =>
      exact (lookupProbe_inMap positive (inside mapped)).bind fun _ => trivial
  · trivial

private theorem EMSkey2index_answers (positive : 0 < array.nElem) {start : Int}
    (started : keyStart key = some start) {isMapped : Bool}
    (inside : isMapped = true → 0 ≤ start.tmod array.nElem)
    (least : -1 ≤ start.tmod array.nElem) :
    (EMSkey2index patience array key isMapped).Answers (IsIndex array) := by
  simp only [EMSkey2index, started]
  split
  · next mapped =>
      apply (lookupProbe_answers positive (inside mapped)).bind
      intro idx isIndex
      refine ⟨?_, Int.tmod_lt_of_pos idx positive⟩
      rcases lt_or_ge idx 0 with negative | nonneg
      · obtain rfl : idx = -1 := by
          have above := isIndex.1
          omega
        rw [Int.neg_tmod]
        have most := Int.tmod_lt_of_pos 1 positive
        rcases eq_or_ne array.nElem 1 with one | more
        · rw [one]
          decide
        · rw [Int.tmod_eq_of_lt (by decide) (by omega)]
      · have remainder := Int.tmod_nonneg array.nElem nonneg
        omega
  · exact ⟨least, Int.tmod_lt_of_pos start positive⟩

private theorem EMSwriteIndexMap_inMap (positive : 0 < array.nElem)
    {start : Int}
    (started : keyStart key = some start)
    (inside : array.isMapped = true → 0 ≤ start.tmod array.nElem) :
    StaysInMap array (EMSwriteIndexMap patience array key) := by
  rw [EMSwriteIndexMap]
  apply (EMSkey2index_inMap positive started inside).bind
  intro found
  split
  · trivial
  · have reduces : EMSkey2index patience array key false =
        .ret (start.tmod array.nElem) := by
      simp [EMSkey2index, started]
    rw [reduces, Prog.ret_bind]
    split
    · next mapped =>
        apply writeProbe_inMap positive
        rw [Int.tmod_tmod]
        exact inside mapped
    · split <;> trivial

end Probing

/-! ## The one key -/

theorem least_tmod (n : Int) :
    (-2 ^ 63 : Int).tmod n = -((2 : Int) ^ 63).tmod n := Int.neg_tmod ..

/-- The search for a key stays in the map, unless its number has no absolute
value and does not start at the first slot by chance.  In an array that is not
mapped nothing is probed, and the number only must not be taken for another
index. -/
theorem probes_inside_iff [CRuntime] {array : EmsArray} {key : EMSvalueType}
    {start : Int}
    (positive : 0 < array.nElem) (started : keyStart key = some start) :
    ProbesInside array key ↔ start ≠ -2 ^ 63 ∨
      if array.isMapped then (2 : Int) ^ 63 % array.nElem = 0
      else (2 : Int) ^ 63 % array.nElem ≤ 1 := by
  have remainder : ((2 : Int) ^ 63).tmod array.nElem = 2 ^ 63 % array.nElem :=
    Int.tmod_eq_emod_of_nonneg (by decide)
  have nonneg : 0 ≤ (2 : Int) ^ 63 % array.nElem :=
    Int.emod_nonneg _ positive.ne'
  constructor
  · intro inside
    rw [or_iff_not_imp_left, not_not]
    rintro rfl
    split
    · next mapped =>
        have probes := inside.lookup 1
        rw [mapped] at probes
        simp only [EMSkey2index, started] at probes
        obtain ⟨first, -⟩ := probes
        obtain ⟨slot, slotInside, -, same⟩ := first _ rfl
        rw [EMSmapCell_inj, least_tmod, remainder] at same
        omega
    · next unmapped =>
        have answers := inside.index 0
        rw [Bool.not_eq_true] at unmapped
        rw [unmapped] at answers
        simp only [EMSkey2index, started] at answers
        have least := answers.1
        rw [least_tmod, remainder] at least
        omega
  · intro condition
    have inside : array.isMapped = true → 0 ≤ start.tmod array.nElem := by
      intro mapped
      rcases keyStart_cases started with above | rfl
      · exact Int.tmod_nonneg _ above
      · rw [if_pos mapped] at condition
        rw [least_tmod, remainder, condition.resolve_left (by simp)]
        decide
    have least : -1 ≤ start.tmod array.nElem := by
      rcases keyStart_cases started with above | rfl
      · have reduced := Int.tmod_nonneg array.nElem above
        omega
      · have small := condition.resolve_left (by simp)
        rw [least_tmod, remainder]
        split at small <;> omega
    constructor
    · exact fun _ => EMSkey2index_inMap positive started inside
    · exact fun _ => EMSwriteIndexMap_inMap positive started inside
    · exact fun _ => EMSkey2index_answers positive started inside least

/-- The key 5 in a map of three slots. -/
theorem probes_inside_iff_five :
    let _ := ieeeRuntime
    ProbesInside ⟨3, true⟩ (scalar .integer 5) := by
  intro _
  have started : keyStart (scalar .integer 5) = some 5 := rfl
  exact (probes_inside_iff (by decide) started).mpr (.inl (by decide))

/-- The search for the least number in a map of three slots starts at slot
-2. -/
theorem not_probes_inside :
    ¬ ∀ [CRuntime] (array : EmsArray) (key : EMSvalueType) (start : Int),
      0 < array.nElem →
      -2 ^ 63 ≤ key.value → key.value < 2 ^ 63 → keyStart key = some start →
      ProbesInside array key := by
  intro always
  let _ := ieeeRuntime
  have inside :=
    always ⟨3, true⟩ (scalar .integer (-2 ^ 63)) (-2 ^ 63) (by decide) le_rfl
    (by decide) rfl
  obtain ⟨first, -⟩ := inside.lookup 1
  obtain ⟨slot, above, -, same⟩ := first _ rfl
  rw [EMSmapCell_inj] at same
  have before : (llabs (scalar .integer (-2 ^ 63)).value).tmod
      (EmsArray.mk 3 true).nElem = -2 := by
    decide
  omega

end EMS
