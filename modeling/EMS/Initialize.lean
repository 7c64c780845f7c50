import EMS.AloneCalls
import EMS.CriticalRegion
import EMS.ElementStore
import EMS.KeyedCalls
import EMS.RegionCreation
import EMS.SingleRegion

/-!
# Initialization of a region

`EMSinitialize` opens and maps the file of a region, initialises the caller's
share of its elements, and enters the mapping into the table of the process.
What the operating system answers is a parameter.  So are the contents of the
variable `tag` when it is declared, since no option has to set its full/empty
bits.
-/

namespace EMS

open SharedProgram

/-! ## The table of mappings -/

def EMS_MAX_N_BUFS : Nat := 4096

def MAX_FNAME_LEN : Nat := 256

/-- `EMS_TAG_BUSY`, as a lock of the control block holds it. -/
def EMS_TAG_BUSY : Int := 2

/-- `emsBufs`, `emsBufLengths` and `emsBufFilenames` of a process. -/
structure Buffers (Mapping : Type) where
  emsBufs : Nat → Option Mapping
  emsBufLengths : Nat → Nat
  emsBufFilenames : Nat → List UInt8

/-- The bytes that `strncpy` stores. -/
def strncpy (text : CString) (n : Nat) : List UInt8 :=
  text.bytes.take n ++ List.replicate (n - text.bytes.length) 0

/-- The text stands in the bytes and ends there. -/
def StandsIn (text : CString) (bytes : List UInt8) : Prop :=
  bytes.takeWhile (· ≠ 0) = text.bytes ∧ 0 ∈ bytes

section Tables

variable {Mapping : Type}

/-- The first free index from `emsBufN` on, of those that are left. -/
def findBuf (emsBufs : Nat → Option Mapping) : Nat → Nat → Nat
  | 0, emsBufN => emsBufN
  | left + 1, emsBufN =>
      if (emsBufs emsBufN).isSome then findBuf emsBufs left (emsBufN + 1)
        else emsBufN

/-- The table with an entry for the mapping. -/
def Buffers.enter (buffers : Buffers Mapping) (emsBufN : Nat) (emsBuf : Mapping)
    (filesize : Nat)
    (filename : CString) : Buffers Mapping where
  emsBufs := Function.update buffers.emsBufs emsBufN (some emsBuf)
  emsBufLengths := Function.update buffers.emsBufLengths emsBufN filesize
  emsBufFilenames :=
    Function.update buffers.emsBufFilenames emsBufN
      (strncpy filename MAX_FNAME_LEN)

end Tables

/-! ## The call -/

inductive Errno where
  | EINVAL
  | other
  deriving DecidableEq, Repr

/-- What the operating system answers to the calls of one `EMSinitialize`. -/
structure SystemCalls (Mapping : Type) where
  /-- The file exists, now or later. -/
  stat : Bool
  /-- The file descriptor of `open` or `shm_open`. -/
  fd : Int
  /-- The error of `ftruncate`, if it fails. -/
  ftruncate : Option Errno
  mmap : Option Mapping

/-- The arguments of `EMSinitialize` that it uses for the file, the elements and
the table. -/
structure InitializeArgs where
  nElements : Int
  heapSize : Nat
  useMap : Bool
  filename : CString
  useExisting : Bool
  doDataFill : Bool
  fillValue : EMSvalueType
  doSetFEtags : Bool
  setFEtagsFull : Bool
  EMSmyID : Nat
  nThreads : Nat
  deriving DecidableEq

/-- What a call leaves: its result, the table, and the words of the file when it
is the control block. -/
structure InitializeRes (Mapping : Type) where
  result : Int
  buffers : Buffers Mapping
  bufInt32 : ControlBlock

namespace InitializeArgs

variable (args : InitializeArgs)

def layout : Layout :=
  EMSinitializeLayout args.nThreads args.nElements.toNat
    args.heapSize args.useMap

def WritesHeader : Prop :=
  args.EMSmyID = 0 ∧ 0 < args.nElements ∧ args.useExisting = false

instance : Decidable args.WritesHeader :=
  inferInstanceAs (Decidable (_ ∧ _ ∧ _))

/-- The variable `tag` when it has been set for an element, with the full/empty
bits that it had before. -/
def elementTag (stackFE : FE) : Tag where
  fe := if args.doSetFEtags then (if args.setFEtagsFull then .full else .empty)
    else stackFE
  type := if args.doDataFill then args.fillValue.type else .undefined
  rw := 0

def share : List Int := elementShare args.nElements args.nThreads args.EMSmyID

end InitializeArgs

/-- The words of the EMS control block, which has no elements. -/
def initializeControlBlock (nThreads : Nat) (bufInt32 : ControlBlock) :
    ControlBlock := fun word =>
  if word = EMS_CB_NTHREADS ∨ word = EMS_CB_NBAR0 ∨
    word = EMS_CB_NBAR1 then nThreads
  else if word = EMS_CB_BARPHASE ∨ word = EMS_CB_CRITICAL ∨
    word = EMS_CB_SINGLE then 0
  else if EMS_CB_LOCKS ≤ word ∧ word < EMS_CB_LOCKS + nThreads then EMS_TAG_BUSY
  else bufInt32 word

/-- Process 0 writes the header of an array that is new.  What nothing changes
later is the array's `Layout`. -/
def initializeHeader (args : InitializeArgs) : EmsProg Unit :=
  if args.WritesHeader then do
    store queueBottom 0
    storeTag queueBottom ⟨.full, .integer, 0⟩
    store stackTop 0
    storeTag stackTop ⟨.full, .integer, 0⟩
    storeMutex .empty
  else pure ()

section Elements

variable (patience : Nat) (args : InitializeArgs) (nElem : Int)

/-- Store the fill value into an element.  An error is what the call returns. -/
def fillElement (idx : Int) (fillValue : EMSvalueType) :
    EmsProg (Except Int Unit) :=
  match fillValue.type with
  | .boolean | .integer | .float => do
      store (EMSdataCell idx) fillValue.value
      return .ok ()
  | .undefined => do
      store (EMSdataCell idx) 0xdeadbeef
      return .ok ()
  | .json | .string => do
      let textOffset ← emsMutexMem_alloc patience (fillValue.length + 1)
      -- "out of memory to store string", the call returns false
      if textOffset < 0 then pure (.error 0)
      else do
        store (EMSdataCell idx) textOffset
        copyToHeap textOffset fillValue.text.bytes
        return .ok ()
  -- "EMSinitialize: fill type is unknown"
  | _ => pure (.error (-1))

def fillData (idx : Int) : EmsProg (Except Int Unit) :=
  if args.doDataFill then fillElement patience idx args.fillValue
    else pure (.ok ())

/-- Reset the slot of the map with the index of an element. -/
def resetSlot (idx : Int) : EmsProg Unit :=
  if args.useMap then do
    storeFE (EMSmapCell nElem idx) .full
    if args.useExisting then pure ()
      else storeType (EMSmapCell nElem idx) .undefined
  else pure ()

/-- Store the tag of an element, and reset its slot. -/
def tagElement (idx : Int) (tag : Tag) : EmsProg Unit := do
  if args.doSetFEtags || args.doDataFill then storeTag (EMSdataCell idx) tag
    else pure ()
  resetSlot args nElem idx

/-- The loop of `EMSinitialize` over its share of the elements. -/
def initializeElements : List Int → FE → EmsProg (Except Int Unit)
  | [], _ => pure (.ok ())
  | idx :: share, fe => do
      let filled ← fillData patience args idx
      match filled with
      | .error result => pure (.error result)
      | .ok () => do
          tagElement args nElem idx (args.elementTag fe)
          initializeElements share (args.elementTag fe).fe

end Elements

/-- Allocate and initialize the EMS domain memory.  `fe` is what the full/empty
bits of `tag` are when it is declared, and `nElem` the number of elements that
the header of the file says unless this call writes it. -/
def EMSinitialize {Mapping : Type} (patience : Nat)
    (system : SystemCalls Mapping) (fe : FE)
    (nElem : Int) (args : InitializeArgs) (buffers : Buffers Mapping)
    (bufInt32 : ControlBlock) :
    EmsProg (InitializeRes Mapping) := do
  if args.useExisting && !system.stat then .spin
  else if system.fd < 0 then pure ⟨-1, buffers, bufInt32⟩
  else if system.ftruncate = some .other then pure ⟨-1, buffers, bufInt32⟩
  else
    match system.mmap with
    | none => pure ⟨-1, buffers, bufInt32⟩
    | some emsBuf => do
        let bufInt32 :=
          if args.EMSmyID = 0 ∧ args.nElements ≤ 0 then
            initializeControlBlock args.nThreads bufInt32
          else bufInt32
        initializeHeader args
        let nElem := if args.WritesHeader then args.nElements else nElem
        let initialized ← initializeElements patience args nElem args.share fe
        match initialized with
        | .error result => pure ⟨result, buffers, bufInt32⟩
        | .ok () =>
            let emsBufN := findBuf buffers.emsBufs EMS_MAX_N_BUFS 0
            if emsBufN < EMS_MAX_N_BUFS then
              pure ⟨emsBufN, buffers.enter emsBufN emsBuf args.layout.fileSz
                args.filename,
                bufInt32⟩
            -- "Unable to allocate a buffer ID/index"
            else pure ⟨-1, buffers, bufInt32⟩

/-- The call with the arguments. -/
abbrev InitializeArgs.code {Mapping : Type} (args : InitializeArgs)
    (patience : Nat)
    (system : SystemCalls Mapping) (fe : FE) (nElem : Int)
    (buffers : Buffers Mapping)
    (bufInt32 : ControlBlock) : EmsProg (InitializeRes Mapping) :=
  EMSinitialize patience system fe nElem args buffers bufInt32

/-! ## What an initialised element is -/

/-- The memory of the allocator after a request. -/
def servedMem (mem : EmsMem) (bytes : Nat) : EmsMem :=
  match emsMem_alloc mem bytes with
  | .ok (_, mem) => mem
  | .error _ => mem

/-- The allocator serves as many requests for the bytes, one after the other. -/
def ServesAll (bytes : Nat) : Nat → EmsMem → Prop
  | 0, _ => True
  | count + 1, mem =>
      Serves mem bytes ∧ ServesAll bytes count (servedMem mem bytes)

namespace InitializeArgs

variable (args : InitializeArgs)

/-- So many elements can be filled. -/
def Fillable (count : Nat) (mem : EmsMem) : Prop :=
  args.doDataFill → 0 < count → IsValue args.fillValue.type ∧
    (args.fillValue.type.IsText →
      ServesAll (args.fillValue.length + 1) count mem)

/-- The tag of an element after the call, which had the tag `old` before. -/
def finalTag (stackFE : FE) (old : Tag) : Tag :=
  if args.doSetFEtags || args.doDataFill then args.elementTag stackFE else old

end InitializeArgs

/-- The element has its value, and its slot of the map is reset. -/
structure ElementInitialized (args : InitializeArgs) (ledger : Ledger)
    (idx : Int) : Prop where
  filled : args.doDataFill → ∃ blocks : List Block,
    (∀ block ∈ blocks, block ∈ ledger.live) ∧
    WordHolds (ledger.buf.word (EMSdataCell idx)) ledger.buf.heap
      args.fillValue blocks
  slot : args.useMap →
    (ledger.buf.tag (EMSmapCell args.nElements idx)).fe = .full ∧
    (args.useExisting = false →
      (ledger.buf.tag (EMSmapCell args.nElements idx)).type = .undefined)

/-- Everything but some elements and their slots is as it was. -/
structure KeepsOthers (args : InitializeArgs) (share : List Int)
    (before after : Ledger) : Prop where
  live : ∀ block ∈ before.live, block ∈ after.live ∧
    block.Same before.buf.heap after.buf.heap
  word : ∀ cell, (∀ idx ∈ share, cell ≠ EMSdataCell idx) →
    after.buf.word cell = before.buf.word cell
  tag : ∀ cell, (∀ idx ∈ share, cell ≠ EMSdataCell idx ∧
    (args.useMap → cell ≠ EMSmapCell args.nElements idx)) →
    after.buf.tag cell = before.buf.tag cell

section Loop

variable {args : InitializeArgs} {level : Nat}
  {ledger between after : Ledger} {idx : Int}

theorem KeepsOthers.refl : KeepsOthers args [] ledger ledger where
  live := fun _ member => ⟨member, fun _ _ _ => rfl⟩
  word := fun _ _ => rfl
  tag := fun _ _ => rfl

theorem KeepsOthers.trans {first second : List Int}
    (keeps : KeepsOthers args first ledger between)
    (keeps' : KeepsOthers args second between after) :
    KeepsOthers args (first ++ second) ledger after where
  live := by
    intro block member
    obtain ⟨member', same⟩ := keeps.live block member
    obtain ⟨member'', same'⟩ := keeps'.live block member'
    exact ⟨member'', fun a lower upper =>
      (same' a lower upper).trans (same a lower upper)⟩
  word := by
    intro cell other
    rw [keeps'.word cell fun idx member =>
      other idx (List.mem_append_right _ member)]
    exact keeps.word cell fun idx member =>
      other idx (List.mem_append_left _ member)
  tag := by
    intro cell other
    rw [keeps'.tag cell fun idx member =>
      other idx (List.mem_append_right _ member)]
    exact keeps.tag cell fun idx member =>
      other idx (List.mem_append_left _ member)

theorem dataCell_ne_mapCell {nElem i j : Int} (below : i < nElem)
    (inside : 0 ≤ j) :
    EMSdataCell i ≠ EMSmapCell nElem j := by
  rw [EMSmapCell_eq, ne_eq, EMSdataCell_inj]
  omega

/-- Two elements of an array have different cells. -/
theorem KeepsOthers.initialized {share : List Int}
    (keeps : KeepsOthers args share ledger after)
    (apart : idx ∉ share)
    (inside : ∀ other ∈ share, 0 ≤ other ∧ other < args.nElements)
    (lower : 0 ≤ idx) (initialized : ElementInitialized args ledger idx) :
    ElementInitialized args after idx where
  filled := by
    intro fills
    obtain ⟨blocks, live, holds⟩ := initialized.filled fills
    refine ⟨blocks, fun block
      member => (keeps.live block (live block member)).1, ?_⟩
    rw [keeps.word _ fun other member => by
      rw [ne_eq, EMSdataCell_inj]
      rintro rfl
      exact apart member]
    exact holds.same fun block member =>
      (keeps.live block (live block member)).2
  slot := by
    intro mapped
    rw [keeps.tag _ fun other member =>
      ⟨(dataCell_ne_mapCell (inside other member).2 lower).symm,
      fun _ => by
        rw [ne_eq, EMSmapCell_inj]
        rintro rfl
        exact apart member⟩]
    exact initialized.slot mapped

theorem KeepsOthers.dataTag {share : List Int}
    (keeps : KeepsOthers args share ledger after)
    (apart : idx ∉ share)
    (inside : ∀ other ∈ share, 0 ≤ other ∧ other < args.nElements)
    (upper : idx < args.nElements) :
    after.buf.tag (EMSdataCell idx) = ledger.buf.tag (EMSdataCell idx) := by
  apply keeps.tag
  intro other member
  refine ⟨?_, fun _ => dataCell_ne_mapCell upper (inside other member).1⟩
  rw [ne_eq, EMSdataCell_inj]
  rintro rfl
  exact apart member

/-- The fill value has been stored into an element, if there is one. -/
structure ElementFilled (args : InitializeArgs) (level : Nat) (idx : Int)
    (ledger after : Ledger) :
    Prop where
  served : args.doDataFill → IsValue args.fillValue.type ∧
    (args.fillValue.type.IsText →
      Serves ledger.buf.mem (args.fillValue.length + 1))
  mem : after.buf.mem =
    if args.doDataFill ∧ args.fillValue.type.IsText then
      servedMem ledger.buf.mem (args.fillValue.length + 1)
    else ledger.buf.mem
  shape : ∃ tree, HeapShape level ⟨after.buf.mem, after.live⟩ tree
  live : ∀ block ∈ ledger.live, block ∈ after.live ∧
    block.Same ledger.buf.heap after.buf.heap
  word : ∀ cell, cell ≠ EMSdataCell idx → after.buf.word cell =
    ledger.buf.word cell
  tag : after.buf.tag = ledger.buf.tag
  holds : args.doDataFill → ∃ blocks : List Block,
    (∀ block ∈ blocks, block ∈ after.live) ∧
    WordHolds (after.buf.word (EMSdataCell idx)) after.buf.heap
      args.fillValue blocks

/-- The length of a string is its length, and fits into memory. -/
def EMSvalueType.TextFits (value : EMSvalueType) : Prop :=
  value.type.IsText → value.text.bytes.length ≤ value.length ∧
    value.length + 32 < 2 ^ 64

theorem ElementFilled.none (without : args.doDataFill = false)
    (shape : ∃ tree, HeapShape level ⟨ledger.buf.mem, ledger.live⟩ tree) :
    ElementFilled args level idx ledger ledger where
  served := by simp [without]
  mem := by simp [without]
  shape := shape
  live := fun _ member => ⟨member, fun _ _ _ => rfl⟩
  word := fun _ _ => rfl
  tag := rfl
  holds := by simp [without]

/-- A string has been stored, or the allocator has refused the request. -/
theorem fillText_returns {patience : Nat} {result : Except Int Unit}
    (fills : args.doDataFill = true) (text : args.fillValue.type.IsText)
    (fits : args.fillValue.TextFits)
    (shape : ∃ tree, HeapShape level ⟨ledger.buf.mem, ledger.live⟩ tree)
    (returned : heapSolo.Returns (do
      let textOffset ← emsMutexMem_alloc patience (args.fillValue.length + 1)
      if textOffset < 0 then pure (.error 0)
      else do
        store (EMSdataCell idx) textOffset
        copyToHeap textOffset args.fillValue.text.bytes
        return .ok ()) ledger result after) :
    match result with
    | .ok () => ElementFilled args level idx ledger after
    | .error result =>
        ¬ Serves ledger.buf.mem (args.fillValue.length + 1) ∧ result = 0 := by
  obtain ⟨short, small⟩ := fits text
  obtain ⟨address, requested, asked, continued⟩ :=
    Solo.returns_bind_iff.mp returned
  obtain ⟨mem, answer, rfl⟩ := emsMutexMem_alloc_returns asked
  have serves := serves_of_answer answer
  split at continued
  · next negative =>
      obtain ⟨rfl, rfl⟩ := Solo.returns_ret_iff.mp continued
      refine ⟨?_, rfl⟩
      rw [serves]
      omega
  · next positive =>
      rw [store_returns] at continued
      have copied := copyToHeap_returns continued
      obtain ⟨rfl, rfl⟩ := Solo.returns_ret_iff.mp copied
      have served : Serves ledger.buf.mem (args.fillValue.length + 1) :=
        serves.mpr (by omega)
      obtain ⟨tree, shape⟩ := shape
      obtain ⟨offset, mem', tree', success, shape'⟩ :=
        shape.serve (by constructor <;> omega) served
      obtain ⟨rfl, rfl⟩ :=
        Prod.mk.inj (Except.ok.inj (answer.symm.trans success))
      have inRange : (0 : Int) ≤ (offset : Int) := Int.natCast_nonneg offset
      have live : (ledger.allocated (args.fillValue.length + 1)
          offset mem).live =
          ⟨offset, args.fillValue.length + 1⟩ :: ledger.live := by
        simp only [Ledger.allocated, if_pos inRange, Int.toNat_natCast]
      have room : args.fillValue.text.bytes.length <
          (⟨offset, args.fillValue.length + 1⟩ : Block).bytes := by
        simp only
        omega
      refine ⟨fun _ => ⟨?_, fun _ => served⟩, ?_, ⟨tree', ?_⟩, ?_, ?_, rfl,
        fun _ => ?_⟩
      · rcases text with type | type <;> simp [type, IsValue]
      · simp [fills, if_pos text, servedMem, answer, Ledger.allocated]
      · simpa [live] using shape'
      · intro block member
        refine ⟨?_, ?_⟩
        · simp [live, member]
        · exact writeText_apart room
            (List.rel_of_pairwise_cons shape'.apart member)
      · intro cell different
        simp [different]
      · refine ⟨[⟨offset, args.fillValue.length + 1⟩], ?_, ?_⟩
        · simp [live]
        · rw [wordHolds_text text]
          exact ⟨_, rfl, by simp, room, writeText_holds _ _ _⟩

theorem fillData_returns {patience : Nat} {result : Except Int Unit}
    (fits : args.doDataFill → args.fillValue.TextFits)
    (shape : ∃ tree, HeapShape level ⟨ledger.buf.mem, ledger.live⟩ tree)
    (returned : heapSolo.Returns
      (fillData patience args idx) ledger result after) :
    match result with
    | .ok () => ElementFilled args level idx ledger after
    | .error result => args.doDataFill ∧
        (args.fillValue.type.IsText ∧
            ¬ Serves ledger.buf.mem (args.fillValue.length + 1) ∧
            result = 0 ∨
          ¬ IsValue args.fillValue.type ∧ result = -1) := by
  rw [fillData] at returned
  cases fills : args.doDataFill with
  | false =>
      simp only [fills] at returned
      obtain ⟨rfl, rfl⟩ := Solo.returns_ret_iff.mp returned
      exact .none fills shape
  | true =>
      simp only [fills, if_true, fillElement] at returned
      cases type : args.fillValue.type with
      | boolean | integer | float | undefined =>
          simp only [type, store_returns] at returned
          obtain ⟨rfl, rfl⟩ := Solo.returns_ret_iff.mp returned
          refine ⟨fun _ => ⟨?_, ?_⟩, ?_, shape,
            fun _ member => ⟨member, fun _ _ _ => rfl⟩, ?_, rfl,
            fun _ => ⟨[], by simp, ?_⟩⟩
          · simp [type, IsValue]
          · simp [type, EMSType.IsText]
          · simp [type, EMSType.IsText]
          · intro cell different
            simp [different]
          · simp [WordHolds, type]
      | invalid | unassigned =>
          simp only [type] at returned
          obtain ⟨rfl, rfl⟩ := Solo.returns_ret_iff.mp returned
          exact ⟨rfl, .inr ⟨by decide, rfl⟩⟩
      | json | string =>
          simp only [type] at returned
          have text : args.fillValue.type.IsText := by
            simp [type, EMSType.IsText]
          have stored := fillText_returns fills text (fits fills) shape returned
          cases result with
          | ok => exact stored
          | error result => exact ⟨rfl, .inl ⟨by decide, stored⟩⟩

/-- The memory after the slot of an element has been reset. -/
def slotReset (args : InitializeArgs) (idx : Int) (ledger : Ledger) : Ledger :=
  let slot := EMSmapCell args.nElements idx
  if args.useMap then
    ledger.setTag slot { ledger.buf.tag slot with
      fe := .full
      type := if args.useExisting then (ledger.buf.tag slot).type
        else .undefined }
  else ledger

theorem resetSlot_returns {α : Type} {value : α} {rest : Unit → EmsProg α} :
    heapSolo.Returns (resetSlot args args.nElements idx >>= rest) ledger
      value after ↔
      heapSolo.Returns (rest ()) (slotReset args idx ledger) value after := by
  rw [resetSlot, slotReset]
  cases args.useMap with
  | false => rfl
  | true =>
      simp only [if_true, bind_assoc, storeFE_returns]
      cases args.useExisting with
      | true => rfl
      | false =>
          simp only [Bool.false_eq_true, if_false, storeType_returns,
            Ledger.setTag_setTag,
            Ledger.setTag_buf, EmsBuf.setTag_tag, Function.update_self]

/-- The memory after an element has been given its tag. -/
def taggedElement (args : InitializeArgs) (idx : Int) (tag : Tag)
    (ledger : Ledger) : Ledger :=
  slotReset args idx
    (if args.doSetFEtags || args.doDataFill then
      ledger.setTag (EMSdataCell idx) tag else ledger)

private theorem tagElement_returns {α : Type} {tag : Tag} {value : α}
    {rest : Unit → EmsProg α} :
    heapSolo.Returns (tagElement args args.nElements idx tag >>= rest) ledger
      value after ↔
      heapSolo.Returns (rest ()) (taggedElement args idx tag ledger)
        value after := by
  rw [tagElement, taggedElement]
  cases args.doSetFEtags || args.doDataFill with
  | false => exact resetSlot_returns
  | true =>
      simp only [if_true, bind_assoc, storeTag_returns]
      exact resetSlot_returns

/-! ## One element after the other -/

theorem taggedElement_buf {tag : Tag} :
    (taggedElement args idx tag ledger).live = ledger.live ∧
      (taggedElement args idx tag ledger).buf.mem = ledger.buf.mem ∧
      (taggedElement args idx tag ledger).buf.heap = ledger.buf.heap ∧
      (taggedElement args idx tag ledger).buf.word = ledger.buf.word := by
  rw [taggedElement, slotReset]
  cases args.useMap <;> cases args.doSetFEtags || args.doDataFill <;>
    exact ⟨rfl, rfl, rfl, rfl⟩

theorem taggedElement_dataTag {fe : FE} (lower : 0 ≤ idx)
    (upper : idx < args.nElements) :
    (taggedElement args idx (args.elementTag fe) ledger).buf.tag
    (EMSdataCell idx) =
      args.finalTag fe (ledger.buf.tag (EMSdataCell idx)) := by
  have apart := dataCell_ne_mapCell upper lower
  have slot : ∀ tagged : Ledger,
      (slotReset args idx tagged).buf.tag (EMSdataCell idx) =
      tagged.buf.tag (EMSdataCell idx) := by
    intro tagged
    rw [slotReset]
    cases args.useMap with
    | false => rfl
    | true => simp [apart]
  rw [taggedElement, slot, InitializeArgs.finalTag]
  cases args.doSetFEtags || args.doDataFill with
  | false => rfl
  | true => simp

theorem taggedElement_slot {tag : Tag} (mapped : args.useMap = true) :
    ((taggedElement args idx tag ledger).buf.tag
      (EMSmapCell args.nElements idx)).fe = .full ∧
      (args.useExisting = false →
        ((taggedElement args idx tag ledger).buf.tag
          (EMSmapCell args.nElements idx)).type =
          .undefined) := by
  simp +contextual [taggedElement, slotReset, mapped]

theorem taggedElement_others {tag : Tag} {cell : Cell}
    (data : cell ≠ EMSdataCell idx)
    (slot : args.useMap → cell ≠ EMSmapCell args.nElements idx) :
    (taggedElement args idx tag ledger).buf.tag cell = ledger.buf.tag cell := by
  rw [taggedElement, slotReset]
  cases mapped : args.useMap with
  | false =>
      cases args.doSetFEtags || args.doDataFill with
      | false => rfl
      | true => simp [data]
  | true =>
      have slot := slot mapped
      cases args.doSetFEtags || args.doDataFill with
      | false => simp [slot]
      | true => simp [slot, data]

/-- An element that has been filled and tagged is initialised. -/
theorem ElementFilled.tagged (fe : FE)
    (filled : ElementFilled args level idx ledger between)
    (lower : 0 ≤ idx) (upper : idx < args.nElements)
    (isAfter : after = taggedElement args idx (args.elementTag fe) between) :
    KeepsOthers args [idx] ledger after ∧ ElementInitialized args after idx ∧
      after.buf.tag (EMSdataCell idx) =
        args.finalTag fe (ledger.buf.tag (EMSdataCell idx)) := by
  obtain ⟨live, -, heap, word⟩ :=
    @taggedElement_buf args between idx (args.elementTag fe)
  have dataTag := @taggedElement_dataTag args between idx fe lower upper
  subst isAfter
  refine ⟨⟨?_, ?_, ?_⟩, ⟨?_, taggedElement_slot⟩, ?_⟩
  · rw [live, heap]
    exact filled.live
  · intro cell other
    rw [word]
    exact filled.word cell (other idx (by simp))
  · intro cell other
    obtain ⟨data, slot⟩ := other idx (by simp)
    rw [taggedElement_others data slot, filled.tag]
  · rw [live, heap, word]
    exact filled.holds
  · rw [dataTag, filled.tag]

/-- A call has initialised its share. -/
structure ShareInitialized (args : InitializeArgs) (level : Nat) (fe : FE)
    (share : List Int)
    (ledger after : Ledger) : Prop where
  fillable : args.Fillable share.length ledger.buf.mem
  shape : ∃ tree, HeapShape level ⟨after.buf.mem, after.live⟩ tree
  keeps : KeepsOthers args share ledger after
  elements : ∀ idx ∈ share, ElementInitialized args after idx
  dataTags : ∀ idx ∈ share, after.buf.tag (EMSdataCell idx) =
    args.finalTag fe (ledger.buf.tag (EMSdataCell idx))

theorem InitializeArgs.elementTag_fe (fe : FE) :
    args.elementTag (args.elementTag fe).fe = args.elementTag fe := by
  unfold InitializeArgs.elementTag
  cases args.doSetFEtags <;> rfl

theorem InitializeArgs.finalTag_fe (fe : FE) (old : Tag) :
    args.finalTag (args.elementTag fe).fe old = args.finalTag fe old := by
  simp only [InitializeArgs.finalTag, InitializeArgs.elementTag_fe]

theorem InitializeArgs.finalTag_finalTag (fe : FE) (old : Tag) :
    args.finalTag fe (args.finalTag fe old) = args.finalTag fe old := by
  unfold InitializeArgs.finalTag
  split <;> rfl

theorem InitializeArgs.fillable_succ {count : Nat} {mem : EmsMem} :
    args.Fillable (count + 1) mem ↔
      (args.doDataFill → IsValue args.fillValue.type ∧
        (args.fillValue.type.IsText → Serves mem (args.fillValue.length + 1))) ∧
      args.Fillable count (if args.doDataFill ∧ args.fillValue.type.IsText then
        servedMem mem (args.fillValue.length + 1) else mem) := by
  unfold InitializeArgs.Fillable
  by_cases fills : args.doDataFill
  · by_cases text : args.fillValue.type.IsText
    · cases count with
      | zero => simp [fills, text, ServesAll]
      | succ count => simp [fills, text, ServesAll, and_assoc, and_left_comm]
    · simp +contextual [fills, text]
  · simp [fills]

/-- The loop initialises the share, or ends where the fill value cannot be
stored. -/
theorem initializeElements_returns {patience : Nat} {fe : FE} {share : List Int}
    {result : Except Int Unit}
    (fits : args.doDataFill → args.fillValue.TextFits)
    (inside : ∀ idx ∈ share, 0 ≤ idx ∧ idx < args.nElements)
    (shape : ∃ tree, HeapShape level ⟨ledger.buf.mem, ledger.live⟩ tree)
    (returned : heapSolo.Returns
      (initializeElements patience args args.nElements share fe)
      ledger result after) :
    match result with
    | .ok () => ShareInitialized args level fe share ledger after
    | .error result => ¬ args.Fillable share.length ledger.buf.mem ∧
        (args.fillValue.type.IsText ∧ result = 0 ∨
            ¬ IsValue args.fillValue.type ∧ result = -1) := by
  induction share generalizing fe ledger with
  | nil =>
      obtain ⟨rfl, rfl⟩ := Solo.returns_ret_iff.mp returned
      refine ⟨?_, shape, .refl, by simp, by simp⟩
      simp [InitializeArgs.Fillable]
  | cons idx share induction =>
      obtain ⟨filled, between, filling, continued⟩ :=
        Solo.returns_bind_iff.mp returned
      have stored := fillData_returns fits shape filling
      rw [List.length_cons, InitializeArgs.fillable_succ]
      cases filled with
      | error reason =>
          obtain ⟨rfl, rfl⟩ := Solo.returns_ret_iff.mp continued
          obtain ⟨fills, ⟨text, refused, rfl⟩ | ⟨unknown, rfl⟩⟩ := stored
          · exact ⟨fun fillable => refused ((fillable.1 fills).2 text),
              .inl ⟨text, rfl⟩⟩
          · exact ⟨fun fillable => unknown (fillable.1 fills).1,
              .inr ⟨unknown, rfl⟩⟩
      | ok =>
          replace stored : ElementFilled args level idx ledger between := stored
          replace continued := tagElement_returns.mp continued
          obtain ⟨lower, upper⟩ := inside idx (by simp)
          obtain ⟨keeps, initialized, dataTag⟩ :=
            stored.tagged fe lower upper rfl
          obtain ⟨live, mem, -, -⟩ :=
            @taggedElement_buf args between idx (args.elementTag fe)
          have inside' : ∀ other ∈ share, 0 ≤ other ∧ other < args.nElements :=
            fun other member => inside other (by simp [member])
          have ended :=
            induction inside' (by rw [live, mem]; exact stored.shape) continued
          rw [mem, stored.mem] at ended
          cases result with
          | error reason =>
              obtain ⟨unfillable, reasons⟩ := ended
              exact ⟨fun fillable => unfillable fillable.2, reasons⟩
          | ok =>
              obtain ⟨fillable, shape', keeps', elements, dataTags⟩ := ended
              have alone : ∀ other ∈ [idx],
                  0 ≤ other ∧ other < args.nElements := by
                simp [lower, upper]
              refine ⟨?_, shape', keeps.trans keeps', ?_, ?_⟩
              · rw [List.length_cons, InitializeArgs.fillable_succ]
                rw [mem, stored.mem] at fillable
                exact ⟨stored.served, fillable⟩
              · intro other member
                by_cases later : other ∈ share
                · exact elements other later
                · obtain rfl : other = idx := by simpa [later] using member
                  exact keeps'.initialized later inside' lower initialized
              · intro other member
                by_cases later : other ∈ share
                · rw [dataTags other later, InitializeArgs.finalTag_fe]
                  by_cases same : other = idx
                  · rw [same, dataTag, InitializeArgs.finalTag_finalTag]
                  · rw [keeps.dataTag (by simpa using same) alone
                      (inside' other later).2]
                · obtain rfl : other = idx := by simpa [later] using member
                  rw [keeps'.dataTag later inside' upper, dataTag]

end Loop

/-! ## The share of a call -/

/-- An index is in the share whose number it has when the indexes are counted
off. -/
theorem mem_elementShare {nElements idx : Int} {nThreads EMSmyID : Nat}
    (positive : 0 < nThreads) :
    idx ∈ elementShare nElements nThreads EMSmyID ↔
      0 ≤ idx ∧ idx < nElements ∧ idx / (nElements / nThreads + 1) =
        EMSmyID := by
  have myID : (0 : Int) ≤ EMSmyID := Int.natCast_nonneg _
  simp only [elementShare, List.mem_map, List.mem_range, Int.mul_add (_ + 1),
    Int.mul_one]
  by_cases elements : 0 ≤ nElements
  · rw [Int.tdiv_eq_ediv_of_nonneg elements]
    have quotient : 0 ≤ nElements / nThreads :=
      Int.ediv_nonneg elements (Int.natCast_nonneg _)
    generalize nElements / (nThreads : Int) = q at quotient
    have inside : 0 ≤ (q + 1) * EMSmyID := Int.mul_nonneg (by omega) myID
    rw [Int.ediv_eq_iff_of_pos (by omega), Int.mul_comm EMSmyID]
    generalize (q + 1) * (EMSmyID : Int) = start at *
    constructor
    · rintro ⟨i, below, rfl⟩
      split at below <;> omega
    · rintro ⟨lower, upper, first, last⟩
      refine ⟨(idx - start).toNat, ?_, by omega⟩
      split <;> omega
  · have quotient : nElements.tdiv nThreads ≤ 0 := by
      have mirrored :=
        Int.tdiv_nonneg (a := -nElements) (b := nThreads) (by omega) (by omega)
      rw [Int.neg_tdiv] at mirrored
      omega
    generalize nElements.tdiv nThreads = q at quotient
    have inside : q = 0 → 0 ≤ (q + 1) * EMSmyID := by
      rintro rfl
      omega
    generalize (q + 1) * (EMSmyID : Int) = start at *
    constructor
    · rintro ⟨i, below, rfl⟩
      split at below <;> omega
    · omega

/-! ## The whole call -/

section Calls

variable {Mapping : Type} {patience : Nat} {system : SystemCalls Mapping}
  {fe : FE} {nElem : Int}
  {args : InitializeArgs} {buffers : Buffers Mapping} {bufInt32 : ControlBlock}
  {ledger after : Ledger}

theorem InitializeArgs.share_inside (positive : 0 < args.nThreads) :
    ∀ idx ∈ args.share, 0 ≤ idx ∧ idx < args.nElements := by
  intro idx member
  obtain ⟨lower, upper, -⟩ := (mem_elementShare positive).mp member
  exact ⟨lower, upper⟩

/-- The file is opened and mapped. -/
def SystemCalls.Maps (system : SystemCalls Mapping) : Prop :=
  0 ≤ system.fd ∧ system.ftruncate ≠ some .other ∧ system.mmap.isSome

/-- The memory in which the elements are initialised. -/
def headed (args : InitializeArgs) (ledger : Ledger) : Ledger :=
  if args.WritesHeader then
    { (((ledger.setWord queueBottom 0).setTag queueBottom
        ⟨.full, .integer, 0⟩).setWord
        stackTop 0).setTag stackTop ⟨.full, .integer, 0⟩
          with buf.memMutex := .empty }
  else ledger

theorem headed_mem : (headed args ledger).buf.mem = ledger.buf.mem := by
  unfold headed
  split <;> rfl

theorem headed_live : (headed args ledger).live = ledger.live := by
  unfold headed
  split <;> rfl

theorem headed_heap : (headed args ledger).buf.heap = ledger.buf.heap := by
  unfold headed
  split <;> rfl

theorem headed_data {idx : Int} (lower : 0 ≤ idx) :
    (headed args ledger).buf.tag (EMSdataCell idx) = ledger.buf.tag
    (EMSdataCell idx) ∧
      (headed args ledger).buf.word (EMSdataCell idx) = ledger.buf.word
        (EMSdataCell idx) := by
  unfold headed
  split
  · simp [EMSdataCell_ne_queueBottom lower, EMSdataCell_ne_stackTop lower]
  · exact ⟨rfl, rfl⟩

private theorem header_returns {α : Type} {value : α}
    {rest : Unit → EmsProg α} :
    heapSolo.Returns (initializeHeader args >>= rest) ledger value after ↔
      heapSolo.Returns (rest ()) (headed args ledger) value after := by
  rw [initializeHeader, headed]
  split
  · simp only [bind_assoc, store_returns, storeTag_returns]
    exact quiet_returns (.storeMutex .empty) trivial
  · rfl

private theorem initializeElements_sameSize
    (sameSize : 0 < args.nElements → args.WritesHeader ∨ nElem = args.nElements)
    (positive : 0 < args.nThreads) :
    initializeElements patience args
      (if args.WritesHeader then args.nElements else nElem)
      args.share fe = initializeElements patience args args.nElements
        args.share fe := by
  by_cases elements : 0 < args.nElements
  · split
    · rfl
    · next header =>
      rw [(sameSize elements).resolve_left header]
  · have noShare : args.share = [] := by
      rw [List.eq_nil_iff_forall_not_mem]
      intro idx member
      have inside := InitializeArgs.share_inside positive idx member
      omega
    rw [noShare]
    rfl

/-- The call ends before it has mapped the file, or with the loop over its
share, or with the search for a free entry of the table. -/
theorem EMSinitialize_ends {res : InitializeRes Mapping}
    (returned : heapSolo.Returns
      (args.code patience system fe nElem buffers bufInt32) ledger res
      after) :
    ¬ system.Maps ∧ res.result = -1 ∧ res.buffers = buffers ∧ after = ledger ∨
      ∃ emsBuf outcome, system.Maps ∧ system.mmap = some emsBuf ∧
        heapSolo.Returns (initializeElements patience args
          (if args.WritesHeader then args.nElements else nElem) args.share fe)
          (headed args ledger) outcome after ∧
        match outcome with
        | .error result => res.result = result ∧ res.buffers = buffers
        | .ok () =>
            let emsBufN := findBuf buffers.emsBufs EMS_MAX_N_BUFS 0
            if emsBufN < EMS_MAX_N_BUFS then res.result = emsBufN ∧
              res.buffers =
              buffers.enter emsBufN emsBuf args.layout.fileSz args.filename
            else res.result = -1 ∧ res.buffers = buffers := by
  rw [InitializeArgs.code] at returned
  unfold EMSinitialize at returned
  split at returned
  · cases returned
  split at returned
  · next closed =>
    obtain ⟨rfl, rfl⟩ := Solo.returns_ret_iff.mp returned
    exact .inl ⟨fun maps => absurd maps.1 (not_le_of_gt closed), rfl, rfl, rfl⟩
  · next opened =>
    split at returned
    · next short =>
      obtain ⟨rfl, rfl⟩ := Solo.returns_ret_iff.mp returned
      exact .inl ⟨fun maps => maps.2.1 short, rfl, rfl, rfl⟩
    · next sized =>
      cases mapping : system.mmap with
      | none =>
          simp only [mapping] at returned
          obtain ⟨rfl, rfl⟩ := Solo.returns_ret_iff.mp returned
          exact .inl
            ⟨fun maps => by simpa [mapping] using maps.2.2, rfl, rfl, rfl⟩
      | some emsBuf =>
          simp only [mapping] at returned
          rw [header_returns] at returned
          have maps : system.Maps :=
            ⟨not_lt.mp opened, sized, by simp [mapping]⟩
          obtain ⟨outcome, between, looped, ended⟩ :=
            Solo.returns_bind_iff.mp returned
          refine .inr ⟨emsBuf, outcome, maps, rfl, ?_⟩
          cases outcome with
          | error result =>
              obtain ⟨rfl, rfl⟩ := Solo.returns_ret_iff.mp ended
              exact ⟨looped, rfl, rfl⟩
          | ok =>
              simp only at ended ⊢
              split at ended
              · next free =>
                obtain ⟨rfl, rfl⟩ := Solo.returns_ret_iff.mp ended
                rw [if_pos free]
                exact ⟨looped, rfl, rfl⟩
              · next full =>
                obtain ⟨rfl, rfl⟩ := Solo.returns_ret_iff.mp ended
                rw [if_neg full]
                exact ⟨looped, rfl, rfl⟩

/-- The loop is about as many elements as the call has been asked for. -/
theorem EMSinitialize_returns {res : InitializeRes Mapping}
    (sameSize : 0 < args.nElements → args.WritesHeader ∨ nElem = args.nElements)
    (positive : 0 < args.nThreads)
    (returned : heapSolo.Returns
      (args.code patience system fe nElem buffers bufInt32) ledger res
      after) :
    ¬ system.Maps ∧ res.result = -1 ∧ res.buffers = buffers ∧ after = ledger ∨
      ∃ emsBuf outcome, system.Maps ∧ system.mmap = some emsBuf ∧
        heapSolo.Returns (initializeElements patience args args.nElements
          args.share fe)
          (headed args ledger) outcome after ∧
        match outcome with
        | .error result => res.result = result ∧ res.buffers = buffers
        | .ok () =>
            let emsBufN := findBuf buffers.emsBufs EMS_MAX_N_BUFS 0
            if emsBufN < EMS_MAX_N_BUFS then res.result = emsBufN ∧
              res.buffers =
              buffers.enter emsBufN emsBuf args.layout.fileSz args.filename
            else res.result = -1 ∧ res.buffers = buffers := by
  have ends := EMSinitialize_ends returned
  rwa [initializeElements_sameSize sameSize positive] at ends

end Calls

/-- A fresh file, as it is mapped: its bytes are zero. -/
def zeroFile (level : Nat) : Ledger where
  buf := {
    word := fun _ => 0
    tag := fun _ => ⟨.full, .invalid, 0⟩
    memMutex := .full
    mem := emsMem_new level
    heap := fun _ => 0 }
  live := []
  misfreed := false

end EMS
