import EMS.Alloc
import EMS.Layout
import EMS.SharedProgram
import Mathlib.Data.Fin.Basic
import Mathlib.Data.List.TakeWhile

/-!
# EMS memory and its accesses

The memory of an array as its processes share it: data words with their tags,
the allocator with its mutex, and the bytes of the heap.  An access is one
load, store or compare-and-swap of a word, a tag or a byte.  The allocator is
only entered under its mutex, so a call of it is one access.

A bit field is stored by loading its byte, changing the field and storing the
byte, which are two accesses.
-/

namespace EMS

open SharedProgram

/-! ## Tags and values -/

/-- `EMS_TAG_FULL`, `EMS_TAG_EMPTY`, `EMS_TAG_BUSY` and `EMS_TAG_RW_LOCK`.
`EMS_TAG_ANY` is never stored; where it is an argument, the argument is an
option. -/
inductive FE where
  | full
  | empty
  | busy
  | rwLock
  deriving DecidableEq, Repr

/-- The values of the three bits that hold a type. -/
inductive EMSType where
  | invalid
  | boolean
  | string
  | float
  | integer
  | undefined
  | json
  | unassigned
  deriving DecidableEq, Repr

/-- Numbers of readers are written as numerals. -/
instance neZero_eight : NeZero 8 := ⟨Nat.succ_ne_zero 7⟩

/-- `EMStag_t`. -/
structure Tag where
  fe : FE
  type : EMSType
  rw : Fin 8
  deriving DecidableEq, Repr

/-- The bytes of a string before its terminating zero. -/
structure CString where
  bytes : List UInt8
  terminated : ∀ byte ∈ bytes, byte ≠ 0
  deriving DecidableEq

theorem terminated_hi : ∀ byte ∈ ([104, 105] : List UInt8), byte ≠ 0 := by simp

theorem terminated_takeWhile (bytes : List UInt8) :
    ∀ byte ∈ bytes.takeWhile (· ≠ 0), byte ≠ 0 := by
  intro byte member
  simpa using List.mem_takeWhile_imp member

def CString.empty : CString := ⟨[], by simp⟩

/-- `EMSvalueType`.  `value` is the 64-bit word, and `text` what it points to
when it is the address of a string. -/
structure EMSvalueType where
  type : EMSType
  value : Int
  text : CString
  length : Nat
  deriving DecidableEq

/-- A value that is its word. -/
def scalar (type : EMSType) (value : Int) : EMSvalueType :=
  ⟨type, value, .empty, 0⟩

/-- What the compiler and its library do: operations on the bit patterns of
doubles, and the answers of `malloc`. -/
class CRuntime where
  ofInt : Int → Int
  add : Int → Int → Int
  nan : Int
  eq : Int → Int → Bool
  /-- The format `%lf`. -/
  format : Int → CString
  /-- Whether `malloc` serves a request for that many bytes. -/
  mallocs : Nat → Bool

/-- No process runs out of memory of its own. -/
def MallocServes [CRuntime] : Prop := ∀ bytes, CRuntime.mallocs bytes = true

/-- The bytes of characters below 256 up to the first zero. -/
def textOf (characters : List Char) : CString where
  bytes :=
    (characters.map fun character =>
      UInt8.ofNat character.toNat).takeWhile (· ≠ 0)
  terminated := by
    intro byte member
    simpa using List.mem_takeWhile_imp member

/-- The 64-bit word that a sum is stored as. -/
def toInt64 (x : Int) : Int := Int.bmod x (2 ^ 64)

/-- The double with the bit pattern of a word. -/
def toDouble (word : Int) : Float :=
  Float.ofBits (UInt64.ofNat (word % 2 ^ 64).toNat)

/-- The word with the bit pattern of a double. -/
def ofDouble (double : Float) : Int := toInt64 double.toBits.toNat

/-- The doubles of the machine, with memory for every request. -/
@[reducible] def ieeeRuntime : CRuntime where
  ofInt := fun word => ofDouble (Float.ofInt word)
  add := fun first second => ofDouble (toDouble first + toDouble second)
  nan := 0x7ff8000000000000
  eq := fun first second => toDouble first == toDouble second
  format := fun word => textOf (toString (toDouble word)).toList
  mallocs := fun _ => true

/-- The messages with which a call reports that it failed. -/
inductive EMSError where
  | indexOutOfBounds
  | outOfMemory
  | unableToMalloc
  | unknownType
  | lostTagLock
  | unableToAllocate
  | outOfStackEntries
  | countAlreadyZero
  | otherLockState
  | notMapped
  deriving DecidableEq, Repr

/-! ## Cells -/

/-- Index of an entry of tagged memory: its data word and its tag. -/
abbrev Cell := Int

def EMScbCell (idx : Int) : Cell := idx

def EMSdataCell (idx : Int) : Cell := idx + EMS_ARR_CB_SIZE

@[simp] theorem EMSdataCell_inj {i j : Int} :
    EMSdataCell i = EMSdataCell j ↔ i = j := by
  simp [EMSdataCell]

def EMSmapCell (nElem idx : Int) : Cell := idx + EMS_ARR_CB_SIZE + nElem

/-- The slots of the map stand where the elements after the last one would. -/
theorem EMSmapCell_eq {nElem idx : Int} :
    EMSmapCell nElem idx = EMSdataCell (idx + nElem) :=
  Int.add_right_comm idx EMS_ARR_CB_SIZE nElem

@[simp] theorem EMSmapCell_inj {nElem i j : Int} :
    EMSmapCell nElem i = EMSmapCell nElem j ↔ i = j := by
  simp [EMSmapCell]

def EMS_ARR_Q_BOTTOM : Int := 32

def EMS_ARR_STACKTOP : Int := 48

/-- What `EMSinitialize` stored about an array and nothing changes later. -/
structure EmsArray where
  nElem : Int
  isMapped : Bool

/-! ## Accesses -/

/-- `emsBuf`. -/
structure EmsBuf where
  word : Cell → Int
  tag : Cell → Tag
  memMutex : FE
  mem : EmsMem
  heap : Int → UInt8

/-- A memory whose entries all have one tag and one word, with an empty heap. -/
def uniformBuf (tag : Tag) (word : Int) : EmsBuf where
  word := fun _ => word
  tag := fun _ => tag
  memMutex := .empty
  mem := emsMem_new 0
  heap := fun _ => 0

inductive Access where
  | load (cell : Cell)
  | store (cell : Cell) (word : Int)
  | loadTag (cell : Cell)
  | storeTag (cell : Cell) (tag : Tag)
  | casTag (cell : Cell) (old new : Tag)
  | casMutex (old new : FE)
  | storeMutex (fe : FE)
  | memAlloc (bytes : Nat)
  | memFree (address : Int)
  | loadByte (address : Int)
  | storeByte (address : Int) (byte : UInt8)
  deriving DecidableEq

abbrev Reply : Access → Type
  | .load _ => Int
  | .store _ _ => Unit
  | .loadTag _ => Tag
  | .storeTag _ _ => Unit
  | .casTag _ _ _ => Tag
  | .casMutex _ _ => Bool
  | .storeMutex _ => Unit
  | .memAlloc _ => Except AllocFault Int
  | .memFree _ => Except AllocFault Unit
  | .loadByte _ => UInt8
  | .storeByte _ _ => Unit

/-- One access to memory.  A compare-and-swap answers the tag it found. -/
def Access.perform : (act : Access) → EmsBuf → Reply act × EmsBuf
  | .load cell, buf => (buf.word cell, buf)
  | .store cell word, buf =>
      ((), { buf with word := Function.update buf.word cell word })
  | .loadTag cell, buf => (buf.tag cell, buf)
  | .storeTag cell tag, buf =>
      ((), { buf with tag := Function.update buf.tag cell tag })
  | .casTag cell old new, buf =>
      (buf.tag cell,
        if buf.tag cell = old then
          { buf with tag := Function.update buf.tag cell new }
        else buf)
  | .casMutex old new, buf =>
      if buf.memMutex = old then (true, { buf with memMutex := new })
        else (false, buf)
  | .storeMutex fe, buf => ((), { buf with memMutex := fe })
  | .memAlloc bytes, buf =>
      match emsMem_alloc buf.mem bytes with
      | .ok (address, mem) => (.ok address, { buf with mem := mem })
      | .error fault => (.error fault, buf)
  | .memFree address, buf =>
      match emsMem_free buf.mem (address % 2 ^ 64).toNat with
      | .ok mem => (.ok (), { buf with mem := mem })
      | .error fault => (.error fault, buf)
  | .loadByte address, buf => (buf.heap address, buf)
  | .storeByte address byte, buf =>
      ((), { buf with heap := Function.update buf.heap address byte })

section

attribute [local simp] Access.perform

theorem perform_casTag_found {buf : EmsBuf} {cell : Cell} {old new : Tag}
    (found : buf.tag cell = old) :
    Access.perform (.casTag cell old new) buf =
      (old, { buf with tag := Function.update buf.tag cell new }) := by
  simp [found]

theorem perform_casTag_lost {buf : EmsBuf} {cell : Cell} {old new : Tag}
    (other : buf.tag cell ≠ old) :
    Access.perform (.casTag cell old new) buf = (buf.tag cell, buf) := by
  simp [other]

end

abbrev EmsProg := Prog Access Reply

/-- The program of one access. -/
abbrev does (act : Access) : EmsProg (Reply act) := Prog.perform act

abbrev load (cell : Cell) : EmsProg Int := does (.load cell)

abbrev store (cell : Cell) (word : Int) : EmsProg Unit :=
  does (.store cell word)

abbrev loadTag (cell : Cell) : EmsProg Tag := does (.loadTag cell)

abbrev storeTag (cell : Cell) (tag : Tag) : EmsProg Unit :=
  does (.storeTag cell tag)

abbrev casTag (cell : Cell) (old new : Tag) : EmsProg Tag :=
  does (.casTag cell old new)

abbrev casMutex (old new : FE) : EmsProg Bool := does (.casMutex old new)

abbrev storeMutex (fe : FE) : EmsProg Unit := does (.storeMutex fe)

abbrev memAlloc (bytes : Nat) : EmsProg (Except AllocFault Int) :=
  does (.memAlloc bytes)

abbrev memFree (address : Int) : EmsProg (Except AllocFault Unit) :=
  does (.memFree address)

abbrev loadByte (address : Int) : EmsProg UInt8 := does (.loadByte address)

abbrev storeByte (address : Int) (byte : UInt8) : EmsProg Unit :=
  does (.storeByte address byte)

/-- `tags.fe = fe`. -/
def storeFE (cell : Cell) (fe : FE) : EmsProg Unit := do
  let tag ← loadTag cell
  storeTag cell { tag with fe := fe }

/-- `tags.type = type`. -/
def storeType (cell : Cell) (type : EMSType) : EmsProg Unit := do
  let tag ← loadTag cell
  storeTag cell { tag with type := type }

/-- `tags.rw = rw`. -/
def storeRW (cell : Cell) (rw : Fin 8) : EmsProg Unit := do
  let tag ← loadTag cell
  storeTag cell { tag with rw := rw }

/-! ## The heap -/

/-- Wait until the allocator's mutex is acquired. -/
def lockMemMutex : Nat → EmsProg Unit
  | 0 => .spin
  | patience + 1 => do
      let acquired ← casMutex .empty .full
      if acquired then pure () else lockMemMutex patience

def emsMutexMem_alloc (patience : Nat) (len : Nat) : EmsProg Int := do
  lockMemMutex patience
  let retval ← memAlloc len
  match retval with
  | .error _ => .abort
  | .ok address =>
      storeMutex .empty
      return address

def emsMutexMem_free (patience : Nat) (addr : Int) : EmsProg Unit := do
  lockMemMutex patience
  let freed ← memFree addr
  match freed with
  | .error _ => .abort
  | .ok () => storeMutex .empty

/-- `strcpy(EMSheapPtr(address), text)`. -/
def copyToHeap : Int → List UInt8 → EmsProg Unit
  | address, [] => storeByte address 0
  | address, byte :: text => do
      storeByte address byte
      copyToHeap (address + 1) text

/-- `strlen(EMSheapPtr(address))`. -/
def heapStrlen : Nat → Int → EmsProg Nat
  | 0, _ => .spin
  | patience + 1, address => do
      let byte ← loadByte address
      if byte = 0 then pure 0
      else do
        let rest ← heapStrlen patience (address + 1)
        return rest + 1

/-- Copy the string at `EMSheapPtr(address)` out of the heap. -/
def copyFromHeap : Nat → Int → EmsProg CString
  | 0, _ => .spin
  | patience + 1, address => do
      let byte ← loadByte address
      if nonzero : byte = 0 then pure .empty
      else do
        let rest ← copyFromHeap patience (address + 1)
        return ⟨byte :: rest.bytes,
          List.forall_mem_cons.mpr ⟨nonzero, rest.terminated⟩⟩

/-- `strcmp(text, EMSheapPtr(address)) == 0`. -/
def equalsHeap : List UInt8 → Int → EmsProg Bool
  | [], address => do
      let byte ← loadByte address
      return byte = 0
  | expected :: text, address => do
      let byte ← loadByte address
      if byte = expected then equalsHeap text (address + 1) else pure false

end EMS
