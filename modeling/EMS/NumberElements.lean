import EMS.CasFrame
import EMS.JavaScriptBinding

/-!
# Elements that hold a number

What a read and a compare-and-swap of a process alone do with a full element
that holds a number.  They return, and the key is found again afterwards.
-/

namespace EMS

open SharedProgram Doubles

/-! ## Looking up again -/

section Lookup

variable {α : Type} {ledger ledger' after : Ledger} {patience : Nat}
variable [CRuntime] {array : EmsArray} {key : EMSvalueType}

/-- The slot looks the same to the search for the key in both memories. -/
structure SlotAlike (array : EmsArray) (key : EMSvalueType) (buf buf' : EmsBuf)
    (slot : Int) :
    Prop where
  fe : (buf'.tag (EMSmapCell array.nElem slot)).fe =
    (buf.tag (EMSmapCell array.nElem slot)).fe
  free : (buf'.tag (EMSmapCell array.nElem slot)).type = .undefined ↔
    (buf.tag (EMSmapCell array.nElem slot)).type = .undefined
  finds : lookupFinds array key buf' slot = lookupFinds array key buf slot

/-- A search that starts at a slot from 0 on looks at no slot before it. -/
theorem lookupProbe_alike {tries : Nat} {idx result : Int}
    (alike : ∀ slot, (0 ≤ idx → 0 ≤ slot) →
      SlotAlike array key ledger.buf ledger'.buf slot)
    (returned : heapSolo.Returns
      (lookupProbe patience array key tries idx) ledger result after) :
    heapSolo.Returns (lookupProbe patience array key tries idx) ledger' result
      ledger' := by
  induction tries generalizing idx with
  | zero =>
      obtain ⟨rfl, -⟩ := Solo.returns_ret_iff.mp returned
      exact .ret
  | succ tries induction =>
      have here :=
        alike (idx.tmod array.nElem) (fun inside => Int.tmod_nonneg _ inside)
      rw [lookupProbe] at returned ⊢
      obtain ⟨full, continued⟩ := transition_returns returned
      have full' := here.fe.trans full
      cases patience with
      | zero => cases returned
      | succ patience =>
          rw [transition_found full']
          rw [lookupMatches_returns (by simp)] at continued ⊢
          simp only [storeFE_released full, storeFE_released full',
            Ledger.setTag_buf,
            lookupFinds_setTag, here.finds, here.free] at continued ⊢
          split at continued
          · next finds =>
              obtain ⟨rfl, -⟩ := Solo.returns_ret_iff.mp continued
              rw [if_pos finds]
              exact .ret
          · next other =>
              rw [if_neg other]
              split at continued
              · next free =>
                  obtain ⟨rfl, -⟩ := Solo.returns_ret_iff.mp continued
                  rw [if_pos free]
                  exact .ret
              · next bound =>
                  rw [if_neg bound]
                  refine induction (fun slot inside => alike slot fun start =>
                    inside ?_) continued
                  have remainder := Int.tmod_nonneg array.nElem start
                  omega

private theorem EMSkey2index_alike {isMapped : Bool} {idx : Int}
    (alike : isMapped = true → ∀ start, keyStart key = some start →
      ∀ slot, (0 ≤ start → 0 ≤ slot) →
        SlotAlike array key ledger.buf ledger'.buf slot)
    (returned : heapSolo.Returns
      (EMSkey2index patience array key isMapped) ledger idx after) :
    heapSolo.Returns (EMSkey2index patience array key isMapped) ledger' idx
      ledger' := by
  rw [EMSkey2index] at returned ⊢
  cases started : keyStart key with
  | none =>
      rw [started] at returned
      obtain ⟨rfl, -⟩ := Solo.returns_ret_iff.mp returned
      exact .ret
  | some start =>
      rw [started] at returned
      cases isMapped with
      | false =>
          obtain ⟨rfl, -⟩ := Solo.returns_ret_iff.mp returned
          exact .ret
      | true =>
          obtain ⟨found, between, probed, continued⟩ :=
            Solo.returns_bind_iff.mp returned
          obtain ⟨rfl, -⟩ := Solo.returns_ret_iff.mp continued
          exact Solo.returns_bind_iff.mpr
            ⟨found, ledger', lookupProbe_alike (alike rfl start started) probed,
              .ret⟩

end Lookup

/-! ## Changing a number -/

section Change

variable [CRuntime] {array : EmsArray} {key : EMSvalueType} {i : Int}
  {buf buf' : EmsBuf}

/-- The element is full and holds a number. -/
structure FullNumber (i : Int) (buf : EmsBuf) : Prop where
  full : (buf.tag (EMSdataCell i)).fe = .full
  number : (buf.tag (EMSdataCell i)).type.IsNumber

/-- The number is not the least integer, for which a key can be taken. -/
def NotLeast (i : Int) (buf : EmsBuf) : Prop :=
  (buf.tag (EMSdataCell i)).type = .integer → buf.word (EMSdataCell i) ≠ -2 ^ 63

/-- The memories differ in the number of the element, if at all. -/
structure OtherNumber (i : Int) (buf buf' : EmsBuf) : Prop where
  before : FullNumber i buf
  after : FullNumber i buf'
  heap : buf'.heap = buf.heap
  tag : ∀ cell, cell ≠ EMSdataCell i → buf'.tag cell = buf.tag cell
  word : ∀ cell, cell ≠ EMSdataCell i → buf'.word cell = buf.word cell

omit [CRuntime] in
theorem llabs_negative {x : Int} (negative : llabs x < 0) : x = -2 ^ 63 := by
  rw [llabs] at negative
  split at negative
  · assumption
  · have above := abs_nonneg x
    omega

omit [CRuntime] in
private theorem ofDouble_ne_least {x : Float} (fraction : isInteger x = false) :
    ofDouble x ≠ -2 ^ 63 := by
  intro least
  have zero : IsInt x 0 := by
    have unpacked := toDouble_ofDouble x
    rw [least] at unpacked
    exact isInt_zero unpacked.symm
  rw [isInteger_of_isInt zero (by decide) (by decide)] at fraction
  cases fraction

/-- A search that starts before the first slot takes no number but the least
integer for the key. -/
theorem lookupFinds_number {jsKey : JsValue} {start slot : Int}
    (converted : NAPI_OBJ_2_EMS_OBJ jsKey false = some key)
    (started : keyStart key = some start)
    (negative : start < 0) (same : EMSmapCell array.nElem slot = EMSdataCell i)
    (number : (buf.tag (EMSdataCell i)).type.IsNumber)
    (finds : lookupFinds array key buf slot = true) :
    key.type = .integer ∧ (buf.tag (EMSdataCell i)).type = .integer ∧
      buf.word (EMSdataCell i) = -2 ^ 63 := by
  rw [lookupFinds, same] at finds
  split at finds
  · next type =>
      rw [type] at number
      obtain ⟨x, rfl⟩ := number_of_2_ems converted number
      rw [number_2_ems] at converted
      split at converted
      · cases converted
        simp only [keyStart, scalar, Option.some.injEq] at started
        have least := llabs_negative (x := x.toModel.toInt64.toInt) (by omega)
        refine ⟨rfl, type, ?_⟩
        simpa [scalar, least, eq_comm] using finds
      · next fraction =>
          cases converted
          simp only [keyStart, scalar, Option.some.injEq] at started
          exact absurd (llabs_negative (x := ofDouble x) (by omega))
            (ofDouble_ne_least (by simpa using fraction))
  · cases finds

/-- The search for a key of JavaScript does not depend on the number, unless it
takes the new number for the key before the first slot. -/
theorem OtherNumber.slotAlike {jsKey : JsValue} {start slot : Int}
    (other : OtherNumber i buf buf') (plain : NotLeast i buf)
    (inArray : i < array.nElem)
    (converted : NAPI_OBJ_2_EMS_OBJ jsKey false = some key)
    (started : keyStart key = some start)
    (reached : 0 ≤ start → 0 ≤ slot) :
    SlotAlike array key buf buf' slot ∨
      (¬ NotLeast i buf' ∧ key.type = .integer) ∧ slot < 0 ∧
        lookupFinds array key buf' slot = true := by
  by_cases same : EMSmapCell array.nElem slot = EMSdataCell i
  · have outside : slot < 0 := by
      rw [EMSmapCell_eq, EMSdataCell_inj] at same
      omega
    have negative : start < 0 := by
      by_contra above
      have := reached (by omega)
      omega
    have notFound : lookupFinds array key buf slot = false := by
      by_contra finds
      obtain ⟨-, integer, least⟩ :=
        lookupFinds_number converted started negative same
        other.before.number (by simpa using finds)
      exact plain integer least
    by_cases finds : lookupFinds array key buf' slot = true
    · obtain ⟨type, integer, least⟩ :=
        lookupFinds_number converted started negative same
        other.after.number finds
      exact .inr ⟨⟨fun plain' => plain' integer least, type⟩, outside, finds⟩
    · left
      constructor
      · rw [same, other.before.full, other.after.full]
      · have first := other.before.number
        have second := other.after.number
        rw [same]
        constructor
        · intro undefined
          rw [undefined] at second
          exact absurd second (by simp [EMSType.IsNumber])
        · intro undefined
          rw [undefined] at first
          exact absurd first (by simp [EMSType.IsNumber])
      · rw [notFound]
        simpa using finds
  · have tags := other.tag _ same
    have words := other.word _ same
    left
    constructor
    · rw [tags]
    · rw [tags]
    · rw [lookupFinds, lookupFinds, tags, words, other.heap]

/-! ## Keys that are lost -/

private theorem writeFinds_integer {slot : Int} (type : key.type = .integer) :
    writeFinds array key buf slot = lookupFinds array key buf slot := by
  rw [writeFinds, lookupFinds, type]
  split
  · next same => rw [same]
  · rfl

private theorem lookupSearch_start {tries : Nat} {start : Int} :
    lookupSearch array key buf tries (start.tmod array.nElem) =
      lookupSearch array key buf tries start := by
  cases tries with
  | zero => rfl
  | succ tries => rw [lookupSearch, lookupSearch, Int.tmod_tmod]

private theorem lookupSearch_alike (tries : Nat) (idx : Int) {lost : Prop}
    (alike : ∀ slot, (0 ≤ idx → 0 ≤ slot) → SlotAlike array key buf buf' slot ∨
      lost ∧ slot < 0 ∧ lookupFinds array key buf' slot = true) :
    lookupSearch array key buf' tries idx =
      lookupSearch array key buf tries idx ∨
      lost ∧ ∃ slot, slot < 0 ∧ lookupSearch array key buf' tries idx =
        some slot := by
  induction tries generalizing idx with
  | zero => exact .inl rfl
  | succ tries induction =>
      rw [lookupSearch, lookupSearch]
      rcases alike (idx.tmod array.nElem)
          (fun inside => Int.tmod_nonneg _ inside) with
        here | ⟨isLost, outside, finds⟩
      · rw [here.finds]
        split
        · exact .inl rfl
        · simp only [here.free]
          split
          · exact .inl rfl
          · refine induction _ fun slot inside =>
              alike slot fun start => inside ?_
            have remainder := Int.tmod_nonneg array.nElem start
            omega
      · right
        rw [if_pos finds]
        exact ⟨isLost, _, outside, rfl⟩

/-- The search for an integer that is to be written ends where the lookup
does. -/
private theorem writeSearch_integer {tries : Nat} {idx slot : Int}
    (type : key.type = .integer)
    (search : lookupSearch array key buf tries idx = some slot) :
    (writeSearch array key buf tries idx).At slot := by
  induction tries generalizing idx with
  | zero => cases search
  | succ tries induction =>
      rw [lookupSearch] at search
      rw [writeSearch, writeFinds_integer type]
      split at search
      · next finds =>
          cases search
          split
          · exact .inr (.inr rfl)
          · split
            · exact .inl rfl
            · exact .inl rfl
            · exact .inl rfl
            · exact .inl rfl
            · exact .inr (.inl rfl)
      · next other =>
          split at search
          · cases search
          · next bound =>
              rw [if_neg bound, if_neg other]
              exact induction search

private theorem slotSearch_negative {slot : Int} (type : key.type = .integer)
    (mapped : array.isMapped = true) {start : Int}
    (started : keyStart key = some start)
    (search : lookupSearch array key buf MAX_OPEN_HASH_STEPS start = some slot)
    (outside : slot < 0) :
    keyIndex array key buf array.isMapped < 0 ∧
      (slotSearch array key buf).At slot := by
  have index : keyIndex array key buf true = slot := by
    simp only [keyIndex, started, if_true, search, Option.getD_some]
    exact lookupSearch_tmod search
  have reduced : keyIndex array key buf false = start.tmod array.nElem := by
    simp only [keyIndex, started, Bool.false_eq_true, if_false]
  rw [slotSearch, mapped, index, if_neg (by omega), if_pos rfl, reduced]
  refine ⟨outside, writeSearch_integer type ?_⟩
  rw [lookupSearch_start]
  exact search

end Change

/-! ## Reading and swapping -/

section Calls

variable {array : EmsArray} {idx : Int} {ledger : Ledger} {patience : Nat}
  {type : EMSType}

/-- The ledger with the number in the element. -/
def Ledger.withNumber (ledger : Ledger) (idx : Int) (type : EMSType)
    (word : Int) : Ledger :=
  (ledger.setWord (EMSdataCell idx) word).setTag (EMSdataCell idx)
    ⟨.full, type, 0⟩

theorem casTag_found {α : Type} {value : α} {after : Ledger} {cell : Cell}
    {old new : Tag}
    {rest : Tag → EmsProg α} (found : ledger.buf.tag cell = old) :
    heapSolo.Returns (casTag cell old new >>= rest) ledger value after ↔
      heapSolo.Returns (rest old) (ledger.setTag cell new) value after := by
  rw [← found]
  exact casTag_returns

theorem readElement_number (number : type.IsNumber) {finalFE : Option FE}
    {rw : Fin 8} :
    readElement patience array idx finalFE ⟨.busy, type, rw⟩ = (do
      let word ← load (EMSdataCell idx)
      finishRead array idx finalFE ⟨.busy, type, rw⟩
      return .ok (scalar type word)) := by
  rcases number with rfl | rfl <;> rfl

theorem casRead_number [CRuntime] (number : type.IsNumber) :
    casRead patience idx type = (do
      let word ← load (EMSdataCell idx)
      return .ok (scalar type word)) := by
  rcases number with rfl | rfl <;> rfl

private theorem casStore_number {value : EMSvalueType}
    (number : value.type.IsNumber) :
    casStore patience idx value = (do
      store (EMSdataCell idx) value.value
      return .ok ()) := by
  rw [casStore]
  rcases number with integer | float
  · rw [integer]
  · rw [float]

private theorem readLoop_number (number : type.IsNumber)
    (tag : ledger.buf.tag (EMSdataCell idx) = ⟨.full, type, 0⟩)
    (mapFull : array.isMapped = true →
      (ledger.buf.tag (EMSmapCell array.nElem idx)).fe = .full)
    {tries : Nat} {stack : Tag} :
    heapSolo.Returns (readLoop patience array idx (some .full) (some .full)
      (tries + 1) stack)
      ledger (.ok (scalar type (ledger.buf.word (EMSdataCell idx))))
        ledger := by
  have again : (ledger.setTag (EMSdataCell idx) ⟨.busy, type, 0⟩).finished array
      idx (some .full)
      ⟨.busy, type, 0⟩ = ledger := by
    simp only [Ledger.finished, Ledger.setTag_setTag]
    rw [← tag, Ledger.setTag_self, Ledger.released_full mapFull]
  simp only [readLoop, loadTag_returns, tag, mayRead, decide_true, if_true,
    Option.some.injEq,
    reduceCtorEq, if_false, casTag_found tag, readElement_number number,
    load_returns,
    finishRead_returns, again]
  exact .ret

/-- A compare-and-swap swaps a number for another one if it equals the old
value, and otherwise changes nothing. -/
theorem casElement_number [CRuntime] (positive : 0 < array.nElem)
    (number : type.IsNumber)
    (tag : ledger.buf.tag (EMSdataCell idx) = ⟨.full, type, 0⟩)
    (mapFull : array.isMapped = true →
      (ledger.buf.tag (EMSmapCell array.nElem idx)).fe = .full)
    {oldValue newValue : EMSvalueType} (newNumber : newValue.type.IsNumber) :
    heapSolo.Returns (casElement (patience + 1) array idx oldValue newValue)
      ledger
      (.ok (scalar type (ledger.buf.word (EMSdataCell idx))))
      (if casEqual oldValue
        (scalar type (ledger.buf.word (EMSdataCell idx))) then
        ledger.withNumber idx newValue.type newValue.value else ledger) := by
  have full : (ledger.buf.tag (EMSdataCell idx)).fe = .full := by rw [tag]
  have plain : ¬ (type = .string ∨ type = .json) := by
    rcases number with rfl | rfl <;> decide
  have apart : EMSmapCell array.nElem idx ≠ EMSdataCell idx :=
    (data_cell_ne_map positive).symm
  simp only [casElement, transition_found full, tag, loadTag_returns,
    Ledger.setTag_buf,
    EmsBuf.setTag_tag, EmsBuf.setTag_word, Function.update_self,
    casRead_number number,
    bind_assoc, load_returns, pure_bind]
  have sameType : ∀ word, (scalar type word).type = type := fun _ => rfl
  rw [casFinish]
  split
  · have kept := @Ledger.released_full array idx
      (ledger.withNumber idx newValue.type newValue.value)
      (by simpa [Ledger.withNumber, apart] using mapFull)
    have swapped : ((ledger.setTag (EMSdataCell idx) ⟨.busy, type, 0⟩).setWord
        (EMSdataCell idx)
        newValue.value).setTag (EMSdataCell idx) ⟨.full, newValue.type, 0⟩ =
        ledger.withNumber idx newValue.type newValue.value := by
      simp [Ledger.withNumber, Ledger.setTag, Ledger.setWord, EmsBuf.setTag,
        EmsBuf.setWord]
    simp only [casStore_number newNumber, sameType, if_neg plain, bind_assoc,
      store_returns,
      pure_bind, storeTag_returns, releaseMap_returns]
    rw [swapped, kept]
    exact .ret
  · have same : ledger.setTag (EMSdataCell idx) ⟨.full, type, 0⟩ = ledger := by
      rw [← tag, Ledger.setTag_self]
    simp only [storeTag_returns, releaseMap_returns, Ledger.setTag_setTag,
      sameType, same,
      Ledger.released_full mapFull]
    exact .ret

/-! ### Whole calls -/

variable [CRuntime] {jsKey : JsValue}

/-- The lookup of the key ends at the element, and returns. -/
structure Finds (patience : Nat) (array : EmsArray) (jsKey : JsValue)
    (key : EMSvalueType)
    (idx : Int) (ledger : Ledger) : Prop where
  converted : NAPI_OBJ_2_EMS_OBJ jsKey false = some key
  inside : 0 ≤ idx
  inArray : idx < array.nElem
  returned : heapSolo.Returns (EMSkey2index patience array key array.isMapped)
    ledger idx ledger

variable {key : EMSvalueType}

theorem Finds.mapFull (finds : Finds patience array jsKey key idx ledger)
    (mapped : array.isMapped = true) :
    (ledger.buf.tag (EMSmapCell array.nElem idx)).fe = .full := by
  have returned := finds.returned
  have inside := finds.inside
  have inArray := finds.inArray
  rw [mapped] at returned
  exact EMSkey2index_full (by omega) finds.inside returned

/-- The key is found again when its element has got another number. -/
theorem Finds.again {ledger' : Ledger}
    (finds : Finds patience array jsKey key idx ledger)
    (other : OtherNumber idx ledger.buf ledger'.buf)
    (plain : NotLeast idx ledger.buf)
    (plain' : NotLeast idx ledger'.buf) :
    Finds patience array jsKey key idx ledger' where
  converted := finds.converted
  inside := finds.inside
  inArray := finds.inArray
  returned := by
    refine EMSkey2index_alike ?_ finds.returned
    intro _ start started slot reached
    exact (other.slotAlike plain finds.inArray finds.converted started
      reached).resolve_right
      fun lost => lost.1.1 plain'

/-- The key has its index still, unless the new number is taken for it. -/
theorem Finds.index {ledger' : Ledger}
    (finds : Finds patience array jsKey key idx ledger)
    (other : OtherNumber idx ledger.buf ledger'.buf)
    (plain : NotLeast idx ledger.buf) :
    keyIndex array key ledger'.buf array.isMapped = idx ∨
      key.type = .integer ∧ array.isMapped = true ∧ ∃ start slot,
        keyStart key = some start ∧
        lookupSearch array key ledger'.buf MAX_OPEN_HASH_STEPS start =
          some slot ∧ slot < 0 := by
  have named := (EMSkey2index_returns finds.returned).1
  rw [keyIndex] at named ⊢
  cases started : keyStart key with
  | none =>
      rw [started] at named
      exact .inl named.symm
  | some start =>
      simp only [started] at named ⊢
      split at named
      · next mapped =>
          rw [if_pos mapped]
          have searches := lookupSearch_alike MAX_OPEN_HASH_STEPS start
            fun slot reached => other.slotAlike plain finds.inArray
              finds.converted started reached
          rcases searches with same | ⟨lost, slot, outside, search⟩
          · rw [same]
            exact .inl named.symm
          · exact .inr ⟨lost.2, mapped, start, slot, rfl, search, outside⟩
      · next unmapped =>
          rw [if_neg unmapped]
          exact .inl named.symm

omit [CRuntime] in
theorem textInHeap_number (number : type.IsNumber) (word : Int) :
    textInHeap patience (scalar type word) = pure (scalar type word) := by
  rcases number with rfl | rfl <;> rfl

theorem NodeJSreadFF_lost (positive : 0 < array.nElem)
    (converted : NAPI_OBJ_2_EMS_OBJ jsKey false = some key)
    (integer : key.type = .integer)
    (mapped : array.isMapped = true) {start slot : Int}
    (started : keyStart key = some start)
    (search : lookupSearch array key ledger.buf MAX_OPEN_HASH_STEPS
      start = some slot)
    (outside : slot < 0) {stack : Tag} {result : Option JsValue}
    {after : Ledger}
    (read : heapSolo.Returns
      (NodeJSreadFF patience array stack jsKey) ledger result after) :
    result = none := by
  obtain ⟨absent, ends⟩ :=
    slotSearch_negative integer mapped started search outside
  simp only [NodeJSreadFF, converted] at read
  obtain ⟨value, between, returned, continued⟩ := Solo.returns_bind_iff.mp read
  have searched := EMSreadUsingTags_returns returned
  simp only [if_pos (And.intro mapped absent), reduceCtorEq,
    if_false] at searched
  obtain ⟨answer, claimed, indexed, ended⟩ := searched
  have negative : answer < 0 := by
    by_contra inside
    have taken := EMSwriteIndexMap_returns positive indexed
    obtain rfl := ends.unique (taken.ends (by omega))
    omega
  rw [if_pos negative] at ended
  obtain ⟨rfl, rfl⟩ := ended
  exact (Solo.returns_ret_iff.mp continued).1

theorem NodeJSreadFF_number
    (finds : Finds (patience + 1) array jsKey key idx ledger)
    (number : type.IsNumber)
    (tag : ledger.buf.tag (EMSdataCell idx) = ⟨.full, type, 0⟩)
    (stack : Tag) :
    heapSolo.Returns (NodeJSreadFF (patience + 1) array stack jsKey) ledger
      (ems2napiReturnValue (scalar type (ledger.buf.word (EMSdataCell idx))))
        ledger := by
  have inside := finds.inside
  have inArray := finds.inArray
  have read : heapSolo.Returns (EMSreadFF (patience + 1) array stack key) ledger
      (.ok (scalar type (ledger.buf.word (EMSdataCell idx)))) ledger := by
    rw [EMSreadFF, EMSreadUsingTags]
    refine Solo.returns_bind_iff.mpr ⟨idx, ledger, finds.returned, ?_⟩
    rw [if_neg (by omega), if_neg (by omega)]
    exact readLoop_number number tag finds.mapFull
  simp only [NodeJSreadFF, finds.converted]
  refine Solo.returns_bind_iff.mpr ⟨_, ledger, read, ?_⟩
  simp only [textInHeap_number number, pure_bind]
  exact .ret

theorem NodeJScas_number
    (finds : Finds (patience + 1) array jsKey key idx ledger)
    (number : type.IsNumber)
    (tag : ledger.buf.tag (EMSdataCell idx) = ⟨.full, type, 0⟩)
    {oldVal newVal : JsValue} {oldValue newValue : EMSvalueType}
    (isOld : NAPI_OBJ_2_EMS_OBJ oldVal false = some oldValue)
    (isNew : NAPI_OBJ_2_EMS_OBJ newVal false = some newValue)
    (newNumber : newValue.type.IsNumber) :
    heapSolo.Returns (NodeJScas (patience + 1) array jsKey oldVal newVal) ledger
      (ems2napiReturnValue (scalar type (ledger.buf.word (EMSdataCell idx))))
      (if casEqual oldValue
        (scalar type (ledger.buf.word (EMSdataCell idx))) then
        ledger.withNumber idx newValue.type newValue.value else ledger) := by
  have inside := finds.inside
  have inArray := finds.inArray
  have swapped : heapSolo.Returns
      (EMScas (patience + 1) array key oldValue newValue) ledger
      (.ok (scalar type (ledger.buf.word (EMSdataCell idx))))
      (if casEqual oldValue
          (scalar type (ledger.buf.word (EMSdataCell idx))) then
        ledger.withNumber idx newValue.type newValue.value else ledger) := by
    rw [EMScas]
    refine Solo.returns_bind_iff.mpr ⟨idx, ledger, finds.returned, ?_⟩
    rw [if_neg (by omega), if_neg (by omega)]
    exact casElement_number (by omega) number tag finds.mapFull newNumber
  simp only [NodeJScas, finds.converted, isOld, isNew]
  exact Solo.returns_bind_iff.mpr ⟨_, _, swapped, .ret⟩

end Calls

end EMS
