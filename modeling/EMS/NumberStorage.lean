import EMS.IndexChecks
import EMS.NumberHistories
import EMS.NumberSums
import EMS.QueueOverflow

/-!
# Numbers of JavaScript in storage

An integer of JavaScript is stored in 64 bits, by every operation that stores
it.  Every operation that returns it converts it in the same way, and keeps 32
bits.
-/

namespace EMS

open SharedProgram Doubles

/-! ## More calls of the binding -/

section Binding

variable [CRuntime] (patience : Nat) (array : EmsArray)

/-- A call of the binding that reads. -/
def NodeJSreadWith
    (read : EMSvalueType → EmsProg (Except EMSError EMSvalueType))
    (key : JsValue) : EmsProg (Option JsValue) :=
  match NAPI_OBJ_2_EMS_OBJ key false with
  | none => pure none
  | some key => do
      let read ← read key
      match read with
      | .error _ => pure none
      | .ok value => do
          let value ← textInHeap patience value
          return ems2napiReturnValue value

def NodeJSread (stack : Tag) (key : JsValue) : EmsProg (Option JsValue) :=
  NodeJSreadWith patience (EMSread patience array stack) key

def NodeJSreadFE (stack : Tag) (key : JsValue) : EmsProg (Option JsValue) :=
  NodeJSreadWith patience (EMSreadFE patience array stack) key

def NodeJSreadRW (stack : Tag) (key : JsValue) : EmsProg (Option JsValue) :=
  NodeJSreadWith patience (EMSreadRW patience array stack) key

/-- What `EMSpush` and `EMSenqueue` return in C. -/
def returnedIndex : Except EMSError Int → Int
  | .ok idx => idx
  | .error _ => -1

def NodeJSpush (value : JsValue) (stringIsJSON : Bool) :
    EmsProg (Option JsValue) :=
  match NAPI_OBJ_2_EMS_OBJ value stringIsJSON with
  | none => pure none
  | some value => do
      let returnValue ← EMSpush patience array value
      return some (.number (Float.ofInt (returnedIndex returnValue)))

def NodeJSpop : EmsProg (Option JsValue) := do
  let popped ← EMSpop patience
  match popped with
  | .error _ => pure none
  | .ok value => pure (ems2napiReturnValue value)

def NodeJSenqueue (value : JsValue) (stringIsJSON : Bool) :
    EmsProg (Option JsValue) :=
  match NAPI_OBJ_2_EMS_OBJ value stringIsJSON with
  | none => pure none
  | some value => do
      let returnValue ← EMSenqueue patience array value
      return some (.number (Float.ofInt (returnedIndex returnValue)))

def NodeJSdequeue : EmsProg (Option JsValue) := do
  let dequeued ← EMSdequeue patience array
  match dequeued with
  | .error _ => pure none
  | .ok value => pure (ems2napiReturnValue value)

/-- The calls of the binding that read an element. -/
inductive Reading where
  | read
  | readFE
  | readFF
  | readRW

def Reading.code (stack : Tag) (key : JsValue) :
    Reading → EmsProg (Option JsValue)
  | .read => NodeJSread patience array stack key
  | .readFE => NodeJSreadFE patience array stack key
  | .readFF => NodeJSreadFF patience array stack key
  | .readRW => NodeJSreadRW patience array stack key

/-- The states between which a read changes the tag. -/
def Reading.initialFE : Reading → Option FE
  | .read => none
  | .readFE | .readFF => some .full
  | .readRW => some .rwLock

def Reading.finalFE : Reading → Option FE
  | .read => none
  | .readFE => some .empty
  | .readFF => some .full
  | .readRW => some .rwLock

theorem Reading.code_eq (reading : Reading) {stack : Tag} {key : JsValue} :
    reading.code patience array stack key = NodeJSreadWith patience
      (fun key => EMSreadUsingTags patience array stack key reading.initialFE
        reading.finalFE)
      key := by
  cases reading <;> rfl

/-- The calls of the binding that return the value of an element. -/
inductive ValueCall where
  | reading (kind : Reading) (stack : Tag)
  | faa (value : JsValue) (stringIsJSON : Bool)
  | cas (oldVal newVal : JsValue)

def ValueCall.code (key : JsValue) : ValueCall → EmsProg (Option JsValue)
  | .reading kind stack => kind.code patience array stack key
  | .faa value stringIsJSON => NodeJSfaa patience array key value stringIsJSON
  | .cas oldVal newVal => NodeJScas patience array key oldVal newVal

/-- The call is given nothing but numbers. -/
def ValueCall.OfNumbers : ValueCall → Prop
  | .reading _ _ => True
  | .faa value _ => ∃ y, value = .number y
  | .cas oldVal newVal => (∃ y, oldVal = .number y) ∧ ∃ z, newVal = .number z

/-- A push, and a pop of what was pushed. -/
def pushPop (value : JsValue) : EmsProg (Option JsValue) := do
  let _ ← NodeJSpush patience array value false
  NodeJSpop patience

/-- The value that comes out of the queue after as many others. -/
def dequeueAfter : Nat → EmsProg (Option JsValue)
  | 0 => NodeJSdequeue patience array
  | others + 1 => do
      let _ ← NodeJSdequeue patience array
      dequeueAfter others

/-- An enqueue, and the dequeue that gets its value. -/
def enqueueDequeue (value : JsValue) (others : Nat) :
    EmsProg (Option JsValue) := do
  let _ ← NodeJSenqueue patience array value false
  dequeueAfter patience array others

end Binding

/-! ## What JavaScript gets -/

/-- The number is what JavaScript gets. -/
def Gives (x : Float) (result : Option JsValue) : Prop :=
  ∃ y, result = some (.number y) ∧ SameNumber y x

theorem gives_integer_iff {x : Float} {k : Int} (integer : IsInt x k) :
    Gives x (ems2napiReturnValue (scalar .integer k)) ↔ Int32Range k := by
  have same : SameNumber (Float.ofInt (toInt32 k)) x ↔ Int32Range k := by
    rw [sameNumber_iff (isInt_toInt32 k), (isInt_toInt32 k).beq integer,
      toInt32_eq_iff]
  rw [integer_2_napi, ← same]
  constructor
  · rintro ⟨y, isNumber, same⟩
    cases isNumber
    exact same
  · exact fun same => ⟨_, rfl, same⟩

/-! ## Elements -/

local instance storageRuntime : CRuntime := ieeeRuntime

section Elements

variable {array : EmsArray} {idx k : Int} {i x : Float}
  {ledger before after : Ledger}
  {patience : Nat}

/-- The number is an index of an array without a map. -/
structure DenotesIndex (array : EmsArray) (i : Float) (idx : Int) : Prop where
  unmapped : array.isMapped = false
  number : IsInt i idx
  inside : 0 ≤ idx
  below : idx < array.nElem
  inWord : array.nElem ≤ 2 ^ 63

theorem DenotesIndex.converted (index : DenotesIndex array i idx) :
    NAPI_OBJ_2_EMS_OBJ (.number i) false = some (scalar .integer idx) := by
  have inside := index.inside
  have below := index.below
  have inWord := index.inWord
  exact integer_2_ems index.number (by omega) (by omega) false

theorem DenotesIndex.returns (index : DenotesIndex array i idx) :
    heapSolo.Returns (EMSkey2index patience array (scalar .integer idx)
      array.isMapped) ledger idx
      ledger := by
  rw [index.unmapped, EMSkey2index_unmapped _ _ index.inside index.below]
  exact .ret

theorem DenotesIndex.keyIndex_eq (index : DenotesIndex array i idx)
    (buf : EmsBuf) :
    keyIndex array (scalar .integer idx) buf array.isMapped = idx := by
  have looked : heapSolo.Returns
      (EMSkey2index 0 array (scalar .integer idx) array.isMapped)
      ⟨buf, [], false⟩ idx ⟨buf, [], false⟩ := index.returns
  exact (EMSkey2index_returns looked).1.symm

theorem DenotesIndex.at (index : DenotesIndex array i idx) (buf : EmsBuf) :
    (slotSearch array (scalar .integer idx) buf).At idx := by
  have inside := index.inside
  have below := index.below
  have named := index.keyIndex_eq buf
  rw [index.unmapped] at named
  rw [slotSearch_unmapped index.unmapped (by omega), named, if_neg (by omega)]
  exact .inl rfl

/-- An integer that has been written is in the element. -/
theorem DenotesIndex.written (index : DenotesIndex array i idx)
    (integer : IsInt x k)
    (small : k.natAbs ≤ 2 ^ 53)
    (written : heapSolo.Returns
      (NodeJSwriteXF patience array (.number i) (.number x) false) before
      (some (.boolean true)) after) :
        (NumberCell.integer k).In idx after.buf := by
  have inside := index.inside
  have below := index.below
  have call : NumberCall array idx before (.writeXF k) after :=
    .writeXF index.converted (index.at before.buf) integer written
  have bounded : ∀ next, (NumberOp.writeXF k).next none = some next →
      next.amount.natAbs ≤ 2 ^ 53 := by
    rintro next ⟨⟩
    exact small
  exact call.keeps (by omega) (fun _ (wrong : none = some _) => nomatch wrong)
    bounded _ rfl

/-- The ledger after a read of an integer. -/
def Ledger.afterRead (ledger : Ledger) (array : EmsArray) (idx : Int) :
    Reading → Ledger
  | .read => ledger.finished array idx none ⟨.busy, .integer, 0⟩
  | .readFE =>
      (ledger.setTag (EMSdataCell idx) ⟨.busy, .integer, 0⟩).finished array idx
      (some .empty) ⟨.busy, .integer, 0⟩
  | .readFF =>
      (ledger.setTag (EMSdataCell idx) ⟨.busy, .integer, 0⟩).finished array idx
      (some .full) ⟨.busy, .integer, 0⟩
  | .readRW =>
      (ledger.setTag (EMSdataCell idx) ⟨.busy, .integer, 1⟩).finished array idx
      (some .rwLock) ⟨.busy, .integer, 1⟩

private theorem readLoop_integer (reading : Reading)
    (tag : ledger.buf.tag (EMSdataCell idx) = ⟨.full, .integer, 0⟩)
    (tries : Nat) (stack : Tag) :
    heapSolo.Returns
      (readLoop patience array idx reading.initialFE reading.finalFE
        (tries + 1) stack) ledger
      (.ok (scalar .integer (ledger.buf.word (EMSdataCell idx))))
      (ledger.afterRead array idx reading) := by
  cases reading with
  | read =>
      simp only [readLoop, Reading.initialFE, Reading.finalFE, loadTag_returns,
        tag, mayRead,
        if_true, reduceCtorEq, if_false, readElement_number (.inl rfl),
        load_returns,
        finishRead_returns]
      exact .ret
  | readFE | readFF =>
      simp only [readLoop, Reading.initialFE, Reading.finalFE, loadTag_returns,
        tag, mayRead,
        decide_true, if_true, Option.some.injEq, reduceCtorEq, if_false,
        casTag_found tag,
        readElement_number (.inl rfl), load_returns, finishRead_returns]
      exact .ret
  | readRW =>
      have may : mayRead (some .rwLock) ⟨.full, .integer, 0⟩ stack = true := by
        simp [mayRead]
      simp only [readLoop, Reading.initialFE, Reading.finalFE,
        loadTag_returns, tag, may,
        if_true, casTag_found tag, readElement_number (.inl rfl), load_returns,
        finishRead_returns]
      exact .ret

theorem Reading.returns (index : DenotesIndex array i idx)
    (holds : (NumberCell.integer k).In idx ledger.buf) (reading : Reading)
    (stack : Tag) :
    heapSolo.Returns (reading.code (patience + 1) array stack (.number i))
      ledger
      (ems2napiReturnValue (scalar .integer k))
        (ledger.afterRead array idx reading) := by
  have inside := index.inside
  have below := index.below
  have word : ledger.buf.word (EMSdataCell idx) = k := holds.word
  have read :=
    @readLoop_integer array idx ledger (patience + 1) reading holds.tag
      patience stack
  rw [word] at read
  rw [Reading.code_eq]
  simp only [NodeJSreadWith, index.converted, EMSreadUsingTags, bind_assoc,
    index.returns.bind_iff]
  rw [if_neg (by omega), if_neg (by omega), read.bind_iff]
  simp only [textInHeap_number (.inl rfl), pure_bind]
  exact .ret

/-- A fetch-and-add returns the integer that was there. -/
theorem faa_old (index : DenotesIndex array i idx)
    (holds : (NumberCell.integer k).In idx before.buf)
    {value : JsValue} {stringIsJSON : Bool} {old : JsValue}
    (returned : heapSolo.Returns
      (NodeJSfaa patience array (.number i) value stringIsJSON) before
      (some old) after) : some old = ems2napiReturnValue
        (scalar .integer k) := by
  have inside := index.inside
  have below := index.below
  have word : before.buf.word (EMSdataCell idx) = k := holds.word
  simp only [NodeJSfaa, index.converted] at returned
  cases converted : NAPI_OBJ_2_EMS_OBJ value stringIsJSON with
  | none =>
      simp only [converted] at returned
      cases (Solo.returns_ret_iff.mp returned).1
  | some value =>
      simp only [converted] at returned
      obtain ⟨result, between, added, ended⟩ :=
        Solo.returns_bind_iff.mp returned
      have searched : heapSolo.Returns
          (EMSwriteIndexMap patience array (scalar .integer idx))
          before idx before := by
        rw [EMSwriteIndexMap_unmapped _ _ index.unmapped inside below]
        exact .ret
      have sums := EMSfaa_searched (by omega) searched added
      rw [if_neg (by omega), holds.tag] at sums
      obtain ⟨-, sum, summed, adding, isResult⟩ := sums
      simp only [NumberCell.type, faaElement, load_returns, Ledger.setTag_buf,
        EmsBuf.setTag_word,
        word] at adding
      obtain ⟨type, _, _, ended'⟩ := Solo.returns_bind_iff.mp adding
      obtain ⟨rfl, -⟩ := Solo.returns_ret_iff.mp ended'
      cases type with
      | error error =>
          obtain ⟨rfl, -⟩ := isResult
          cases (Solo.returns_ret_iff.mp ended).1
      | ok type =>
          obtain ⟨rfl, -⟩ := isResult
          exact (Solo.returns_ret_iff.mp ended).1

/-- A compare-and-swap returns the integer that was there. -/
theorem cas_old (index : DenotesIndex array i idx)
    (holds : (NumberCell.integer k).In idx before.buf)
    {oldVal newVal old : JsValue}
    (returned : heapSolo.Returns
      (NodeJScas patience array (.number i) oldVal newVal) before
      (some old) after) : some old = ems2napiReturnValue
        (scalar .integer k) := by
  have inside := index.inside
  have below := index.below
  have word : before.buf.word (EMSdataCell idx) = k := holds.word
  simp only [NodeJScas, index.converted] at returned
  split at returned
  · next key oldValue newValue isKey isOld isNew =>
      obtain rfl := Option.some.inj isKey
      obtain ⟨result, between, swapped, ended⟩ :=
        Solo.returns_bind_iff.mp returned
      have swaps := EMScas_returns (by omega) swapped
      rw [index.keyIndex_eq, if_neg (by omega), if_neg (by omega)] at swaps
      have readable : Readable idx (NumberCell.integer k).type before.buf :=
        .of_not_text (by simp [NumberCell.type, IsValue])
          (by simp [NumberCell.type, EMSType.IsText])
      obtain ⟨-, swaps⟩ := casElement_returns (by omega) swaps
      rw [holds.tag] at swaps
      obtain ⟨-, current, reading, finished⟩ | ⟨unreadable, -⟩ := swaps
      case inr => exact absurd readable unreadable
      rw [NumberCell.type, casRead_number (.inl rfl)] at reading
      simp only [load_returns, Ledger.setTag_buf, EmsBuf.setTag_word,
        word] at reading
      obtain ⟨isCurrent, -⟩ := Solo.returns_ret_iff.mp reading
      obtain rfl := Except.ok.inj isCurrent
      have gives : result = .ok (scalar .integer k) ∨ ∃ error,
          result = .error error := by
        have finishes := casFinish_returns finished
        split at finishes
        · obtain ⟨placed, stored, outcome, -, -, isResult⟩ := finishes
          cases outcome with
          | error error => exact .inr ⟨error, isResult.1⟩
          | ok => exact .inl isResult.1
        · exact .inl finishes.1
      rcases gives with rfl | ⟨error, rfl⟩
      · exact (Solo.returns_ret_iff.mp ended).1
      · cases (Solo.returns_ret_iff.mp ended).1
  · cases (Solo.returns_ret_iff.mp returned).1

private theorem faaElement_adds {value : EMSvalueType}
    (number : value.type.IsNumber) :
    ∃ (sumType : EMSType) (sum : Int),
      heapSolo.Returns (faaElement patience idx .integer value)
      before (.ok (scalar .integer
        (before.buf.word (EMSdataCell idx)), sumType))
      (before.setWord (EMSdataCell idx) sum) := by
  generalize isWord : before.buf.word (EMSdataCell idx) = word
  rcases number with type | type
  · by_cases large : 2 ^ 30 ≤ toInt64 (word + value.value)
    · refine ⟨.float, CRuntime.ofInt (toInt64 (word + value.value)), ?_⟩
      simp only [faaElement, faaInteger, type, bind_assoc, load_returns, isWord,
        if_pos large,
        store_returns, pure_bind]
      exact .ret
    · refine ⟨.integer, toInt64 (word + value.value), ?_⟩
      simp only [faaElement, faaInteger, type, bind_assoc, load_returns, isWord,
        if_neg large,
        store_returns, pure_bind]
      exact .ret
  · refine ⟨.float, CRuntime.add (CRuntime.ofInt word) value.value, ?_⟩
    simp only [faaElement, faaInteger, type, bind_assoc, load_returns, isWord,
      store_returns,
      pure_bind]
    exact .ret

private theorem EMSfaa_adds (index : DenotesIndex array i idx)
    (holds : (NumberCell.integer k).In idx before.buf)
    {value : EMSvalueType} (number : value.type.IsNumber) :
    ∃ after, heapSolo.Returns
      (EMSfaa (patience + 1) array (scalar .integer idx) value) before
      (.ok (scalar .integer k)) after := by
  have inside := index.inside
  have below := index.below
  have word : before.buf.word (EMSdataCell idx) = k := holds.word
  have full : (before.buf.tag (EMSdataCell idx)).fe = .full := by rw [holds.tag]
  obtain ⟨sumType, sum, adds⟩ := @faaElement_adds idx
    (before.setTag (EMSdataCell idx) ⟨.busy, .integer, 0⟩) (patience + 1)
      value number
  simp only [Ledger.setTag_buf, EmsBuf.setTag_word, word] at adds
  refine ⟨(((before.setTag (EMSdataCell idx) ⟨.busy, .integer, 0⟩).setWord
    (EMSdataCell idx)
    sum).setTag (EMSdataCell idx) ⟨.full, sumType, 0⟩).released array idx, ?_⟩
  simp only [EMSfaa, EMSwriteIndexMap_unmapped _ _ index.unmapped inside below,
    Prog.ret_bind]
  rw [if_neg (by omega)]
  simp only [transition_found full, holds.tag, NumberCell.type]
  refine Solo.returns_bind_iff.mpr ⟨_, _, adds, ?_⟩
  simp only [storeTag_returns, releaseMap_returns]
  exact .ret

theorem valueCall_gives (index : DenotesIndex array i idx)
    (holds : (NumberCell.integer k).In idx before.buf) {call : ValueCall}
    {old : JsValue}
    (returned : heapSolo.Returns (call.code patience array (.number i)) before
      (some old) after) :
    some old = ems2napiReturnValue (scalar .integer k) := by
  cases call with
  | faa value stringIsJSON => exact faa_old index holds returned
  | cas oldVal newVal => exact cas_old index holds returned
  | reading kind stack =>
      cases patience with
      | zero =>
          have inside := index.inside
          have below := index.below
          rw [ValueCall.code, Reading.code_eq] at returned
          simp only [NodeJSreadWith, index.converted,
            EMSreadUsingTags, bind_assoc,
            index.returns.bind_iff] at returned
          rw [if_neg (by omega), if_neg (by omega)] at returned
          cases returned
      | succ patience =>
          exact (Solo.Returns.unique
            (kind.returns index holds stack) returned).1

/-- Given numbers, the calls return when somebody waits for them. -/
private theorem valueCall_returns (index : DenotesIndex array i idx)
    (holds : (NumberCell.integer k).In idx before.buf) {call : ValueCall}
    (numbers : call.OfNumbers) :
    ∃ old after, heapSolo.Returns (call.code (patience + 1) array (.number i))
      before (some old)
      after := by
  have inside := index.inside
  have below := index.below
  cases call with
  | reading kind stack => exact ⟨_, _, kind.returns index holds stack⟩
  | faa value stringIsJSON =>
      obtain ⟨y, rfl⟩ := numbers
      obtain ⟨type, word, _, reads⟩ := exists_readsAs y
      have converted : NAPI_OBJ_2_EMS_OBJ (.number y) stringIsJSON =
          some (scalar type word) :=
        reads.converted
      obtain ⟨after, adds⟩ :=
        @EMSfaa_adds _ _ _ _ _ patience index holds (scalar type word)
        reads.number
      refine ⟨.number (Float.ofInt (toInt32 k)), after, ?_⟩
      simp only [ValueCall.code, NodeJSfaa, index.converted, converted]
      exact Solo.returns_bind_iff.mpr ⟨_, _, adds, .ret⟩
  | cas oldVal newVal =>
      obtain ⟨⟨y, rfl⟩, z, rfl⟩ := numbers
      obtain ⟨oldType, oldWord, _, reads⟩ := exists_readsAs y
      obtain ⟨newType, newWord, _, reads'⟩ := exists_readsAs z
      have finds : Finds (patience + 1) array (.number i) (scalar .integer idx)
          idx before :=
        ⟨index.converted, inside, below, index.returns⟩
      exact ⟨_, _, NodeJScas_number finds (.inl rfl) holds.tag reads.converted
        reads'.converted
        reads'.number⟩

end Elements

/-! ## Stacks and queues -/

section Sequences

variable {array : EmsArray} {level patience : Nat} {kept : List Block}
  {buf : EmsBuf}
  {stack queue : List EMSvalueType} {k : Int} {js : JsValue}

theorem Patient.not_le {values : List EMSvalueType} {value : EMSvalueType}
    (patient : Patient patience values) (member : value ∈ values) :
    ¬ patience ≤ value.text.bytes.length :=
  Nat.not_le.mpr (patient.2 value member)

theorem Patient.integer {values : List EMSvalueType}
    (patient : Patient patience values) :
    Patient patience (values ++ [scalar .integer k]) := by
  refine ⟨patient.1, ?_⟩
  intro value member
  rcases List.mem_append.mp member with old | new
  · exact patient.2 value old
  · rw [List.mem_singleton.mp new]
    exact patient.1

theorem integer_fits : (scalar .integer k).Fits :=
  ⟨⟨nofun, nofun⟩, by simp [scalar, CString.empty]⟩

theorem integer_held {mem : EmsMem} : CanHold mem (scalar .integer k) := by
  intro isText
  simp [scalar, EMSType.IsText] at isText

private theorem NodeJSpush_ends [CRuntime]
    (converted : NAPI_OBJ_2_EMS_OBJ js false = some (scalar .integer k))
    (shape : StackShape array level kept buf stack)
    (room : (stack.length : Int) + 1 < array.nElem)
    (bounded : (stack.length : Int) < 2 ^ 31) (positive : 0 < patience) :
    (aloneSolo False).Ends
      (fun _ after => StackShape array level kept after
        (stack ++ [scalar .integer k]))
      (NodeJSpush patience array js false) buf := by
  have hasRoom : (StackOp.push (scalar .integer k)).HasRoom array buf := by
    refine ⟨?_, integer_held⟩
    rw [shape.top]
    exact room
  simp only [NodeJSpush, converted]
  apply Solo.Ends.bind
  refine (EMSpush_ends integer_fits shape (by omega) bounded (by omega)).mono ?_
  intro res after ends
  obtain ⟨next, lawful, ordered⟩ := ends.room hasRoom
  cases lawful with
  | pushed => exact ordered
  | refused refused => exact absurd ⟨by omega, integer_held⟩ refused

private theorem NodeJSpop_ends [CRuntime]
    (small : EMS_MEM_BLOCKSZ * 2 ^ level < 2 ^ 63)
    (shape : StackShape array level kept buf (stack ++ [scalar .integer k]))
    (patient : Patient patience (stack ++ [scalar .integer k])) :
    (aloneSolo False).Ends
      (fun result _ => result = ems2napiReturnValue (scalar .integer k))
      (NodeJSpop patience) buf := by
  have positive := patient.1
  rw [NodeJSpop]
  apply Solo.Ends.bind
  refine (EMSpop_ends small shape (by omega) fun value =>
    patient.not_le).mono ?_
  intro res after ends
  obtain ⟨next, lawful, -⟩ := ends.room trivial
  cases lawful with
  | popped applied =>
      simp only [StackOp.apply, List.getLast?_append, List.getLast?_singleton,
        Option.some_or, Prod.mk.injEq, EntryRes.value.injEq] at applied
      rw [← applied.2]
      rfl

private theorem pushPop_ends [CRuntime]
    (converted : NAPI_OBJ_2_EMS_OBJ js false = some (scalar .integer k))
    (small : EMS_MEM_BLOCKSZ * 2 ^ level < 2 ^ 63)
    (shape : StackShape array level kept buf stack)
    (room : (stack.length : Int) + 1 < array.nElem)
    (bounded : (stack.length : Int) < 2 ^ 31)
    (patient : Patient patience stack) :
    (aloneSolo False).Ends
    (fun result _ => result = ems2napiReturnValue (scalar .integer k))
      (pushPop patience array js) buf := by
  rw [pushPop]
  apply Solo.Ends.bind
  refine (NodeJSpush_ends converted shape room bounded patient.1).mono ?_
  intro _ after ordered
  exact NodeJSpop_ends small ordered patient.integer

private theorem NodeJSenqueue_ends [CRuntime]
    (converted : NAPI_OBJ_2_EMS_OBJ js false = some (scalar .integer k))
    {taken : Nat}
    (shape : QueueShape array level kept buf taken queue)
    (room : (queue.length : Int) < array.nElem)
    (bounded : ((taken + queue.length : Nat) : Int) % array.nElem < 2 ^ 31)
    (positive : 0 < patience) :
    (aloneSolo False).Ends
      (fun _ after => QueueInOrder array level kept
        (queue ++ [scalar .integer k]) after)
      (NodeJSenqueue patience array js false) buf := by
  have hasRoom : (QueueOp.enqueue (scalar .integer k)).HasRoom array buf := by
    refine ⟨?_, integer_held⟩
    rw [shape.top, shape.bottom]
    omega
  simp only [NodeJSenqueue, converted]
  apply Solo.Ends.bind
  refine (EMSenqueue_ends integer_fits shape (by omega) bounded (by omega)).mono
    ?_
  intro res after ends
  obtain ⟨next, lawful, ordered⟩ := ends.room hasRoom
  cases lawful with
  | enqueued => exact ordered
  | refused refused _ =>
      rcases refused with full | refused
      · omega
      · exact absurd integer_held refused

theorem NodeJSdequeue_ends [CRuntime]
    (small : EMS_MEM_BLOCKSZ * 2 ^ level < 2 ^ 63)
    (positive : 0 < array.nElem) {value : EMSvalueType}
    (ordered : QueueInOrder array level kept (value :: queue) buf)
    (patient : Patient patience (value :: queue)) :
    (aloneSolo False).Ends
      (fun result after => result = ems2napiReturnValue value.back ∧
        QueueInOrder array level kept queue after)
      (NodeJSdequeue patience array) buf := by
  have spins := patient.1
  obtain ⟨taken, shape⟩ := ordered
  rw [NodeJSdequeue]
  apply Solo.Ends.bind
  refine (EMSdequeue_ends small shape positive (by omega) fun value =>
    patient.not_le).mono ?_
  intro res after ends
  obtain ⟨next, lawful, ordered⟩ := ends.room trivial
  cases lawful with
  | dequeued => exact ⟨rfl, ordered⟩

private theorem dequeueAfter_ends [CRuntime]
    (small : EMS_MEM_BLOCKSZ * 2 ^ level < 2 ^ 63)
    (positive : 0 < array.nElem)
    (ordered : QueueInOrder array level kept (queue ++ [scalar .integer k]) buf)
    (patient : Patient patience (queue ++ [scalar .integer k])) :
    (aloneSolo False).Ends
    (fun result _ => result = ems2napiReturnValue (scalar .integer k))
      (dequeueAfter patience array queue.length) buf := by
  induction queue generalizing buf with
  | nil =>
      exact (NodeJSdequeue_ends small positive ordered patient).mono fun _ _
        gets => gets.1
  | cons value later induction =>
      rw [List.length_cons, dequeueAfter]
      apply Solo.Ends.bind
      refine (NodeJSdequeue_ends small positive ordered patient).mono ?_
      intro _ after dequeued
      refine induction dequeued.2
        ⟨patient.1, fun value member => patient.2 value ?_⟩
      exact List.mem_cons_of_mem _ member

private theorem enqueueDequeue_ends [CRuntime]
    (converted : NAPI_OBJ_2_EMS_OBJ js false = some (scalar .integer k))
    (small : EMS_MEM_BLOCKSZ * 2 ^ level < 2 ^ 63) {taken : Nat}
    (shape : QueueShape array level kept buf taken queue)
    (room : (queue.length : Int) < array.nElem)
    (bounded : ((taken + queue.length : Nat) : Int) % array.nElem < 2 ^ 31)
    (patient : Patient patience queue) :
    (aloneSolo False).Ends
    (fun result _ => result = ems2napiReturnValue (scalar .integer k))
      (enqueueDequeue patience array js queue.length) buf := by
  rw [enqueueDequeue]
  apply Solo.Ends.bind
  refine (NodeJSenqueue_ends converted shape room bounded patient.1).mono ?_
  intro _ after ordered
  exact dequeueAfter_ends small (by omega) ordered patient.integer

end Sequences

/-! ## The way of a number -/

/-- The number comes back out of the element, a stack and a queue if `back`
holds, and only then. -/
structure ComesBack (array : EmsArray) (i x : Float) (back : Prop) : Prop where
  element : ∀ patience before after,
    heapSolo.Returns (NodeJSwriteXF patience array (.number i) (.number x)
      false) before
      (some (.boolean true)) after →
    ∀ call : ValueCall,
      (∀ patience old last,
        heapSolo.Returns (call.code patience array (.number i)) after
          (some old) last →
          (Gives x (some old) ↔ back)) ∧
      (call.OfNumbers → ∀ patience, ∃ old last,
        heapSolo.Returns (call.code (patience + 1) array (.number i)) after
          (some old) last)
  stack : ∀ level kept buf stack, EMS_MEM_BLOCKSZ * 2 ^ level < 2 ^ 63 →
    StackShape array level kept buf stack → (stack.length : Int) + 1 <
      array.nElem →
    (stack.length : Int) < 2 ^ 31 → ∀ patience, Patient patience stack →
      ∃ result last, (aloneSolo True).Returns
        (pushPop patience array (.number x)) buf result last ∧
        (Gives x result ↔ back)
  queue : ∀ level kept buf (taken : Nat) queue,
    EMS_MEM_BLOCKSZ * 2 ^ level < 2 ^ 63 →
    QueueShape array level kept buf taken queue →
      (queue.length : Int) < array.nElem →
    ((taken + queue.length : Nat) : Int) % array.nElem < 2 ^ 31 →
    ∀ patience, Patient patience queue →
      ∃ result last, (aloneSolo True).Returns
          (enqueueDequeue patience array (.number x) queue.length) buf
            result last ∧
        (Gives x result ↔ back)

/-- An integer of JavaScript that is stored comes back if it has 32 bits. -/
theorem stored_number_back {array : EmsArray} {i x : Float} {idx k : Int}
    (index : DenotesIndex array i idx) (integer : IsInt x k)
    (small : k.natAbs ≤ 2 ^ 53) :
    ComesBack array i x (Int32Range k) := by
  have converted : NAPI_OBJ_2_EMS_OBJ (.number x) false =
      some (scalar .integer k) :=
    integer_2_ems integer (by omega) (by omega) false
  constructor
  · intro patience before after written call
    have holds := index.written integer small written
    constructor
    · intro patience old last returned
      rw [valueCall_gives index holds returned]
      exact gives_integer_iff integer
    · intro numbers patience
      exact valueCall_returns index holds numbers
  · intro level kept buf stack inMemory shape room bounded patience patient
    obtain ⟨result, last, returned, rfl⟩ :=
      (pushPop_ends converted inMemory shape room bounded
        patient).exists_returns
        fun _ _ => trivial
    exact ⟨_, last, returned, gives_integer_iff integer⟩
  · intro level kept buf taken queue inMemory shape room bounded
      patience patient
    obtain ⟨result, last, returned, rfl⟩ :=
      (enqueueDequeue_ends converted inMemory shape room bounded
        patient).exists_returns
        fun _ _ => trivial
    exact ⟨_, last, returned, gives_integer_iff integer⟩

theorem isInt_two_pow_35 : IsInt (Float.ofInt (2 ^ 35)) (2 ^ 35) :=
  isInt_ofInt (representable_of_le (by decide))

theorem twoElements_isIndex : DenotesIndex ⟨2, false⟩ (Float.ofInt 0) 0 :=
  ⟨rfl, isInt_ofInt (representable_of_le (by decide)),
    le_rfl, by decide, by decide⟩

/-- A number that is pushed on an empty stack and popped comes back as another
one. -/
theorem stored_number_back_popped :
    ∃ result last, (aloneSolo True).Returns
        (pushPop 1 ⟨2, false⟩ (.number (Float.ofInt (2 ^ 35)))) emptyStackBuf
          result last ∧
      ¬ Gives (Float.ofInt (2 ^ 35)) result := by
  obtain ⟨result, last, returned, gives⟩ :=
    (stored_number_back twoElements_isIndex isInt_two_pow_35 (by decide)).stack
      0 [] emptyStackBuf
      [] (by decide) (emptyStackBuf_empty ⟨2, false⟩).shape (by decide)
        (by decide) 1
      ⟨by decide, nofun⟩
  refine ⟨result, last, returned, ?_⟩
  rw [gives, Int32Range]
  decide

private theorem exists_written : ∃ after, heapSolo.Returns
    (NodeJSwriteXF 1 ⟨2, false⟩ (.number (Float.ofInt 0))
      (.number (Float.ofInt (2 ^ 35))) false)
    untouched (some (.boolean true)) after := by
  obtain ⟨result, after, written, ok⟩ := heapSolo.exists_returns
    (EMSwriteXF 1 ⟨2, false⟩ (scalar .integer 0) (scalar .integer (2 ^ 35)))
      untouched
    (fun played => played.1.isOk) (by decide +kernel)
  refine ⟨after, ?_⟩
  simp only [NodeJSwriteXF, twoElements_isIndex.converted,
    integer_2_ems isInt_two_pow_35 (by decide) (by decide) false]
  refine Solo.returns_bind_iff.mpr ⟨result, after, written, ?_⟩
  rw [ok]
  exact .ret

theorem not_stored_number_back :
    ¬ ∀ (array : EmsArray) (i x : Float) (idx k : Int),
      DenotesIndex array i idx → IsInt x k →
      k.natAbs ≤ 2 ^ 53 → ComesBack array i x True := by
  intro claim
  obtain ⟨after, written⟩ := exists_written
  have comesBack :=
    claim _ _ _ _ _ twoElements_isIndex isInt_two_pow_35 (by decide)
  obtain ⟨gives, returns⟩ := comesBack.element 1 untouched after written
    (.reading .readFF ⟨.full, .undefined, 0⟩)
  obtain ⟨old, last, read⟩ := returns trivial 0
  have holds := twoElements_isIndex.written isInt_two_pow_35 (by decide) written
  have given := (gives 1 old last read).mpr trivial
  rw [valueCall_gives twoElements_isIndex holds read,
    gives_integer_iff isInt_two_pow_35,
    Int32Range] at given
  exact absurd given (by decide)

end EMS
