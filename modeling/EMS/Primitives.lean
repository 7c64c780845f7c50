import EMS.Memory
import EMS.Elements

/-!
# Stacks and queues

The shared stack and the shared queue of `primitives.cc`.  The words `STACKTOP`
and `Q_BOTTOM` of the control block are changed while their tags are held busy.
-/

namespace EMS

open SharedProgram

/-- The value of an assignment to an `int32_t`. -/
def toInt32 (x : Int) : Int := Int.bmod x (2 ^ 32)

theorem toInt32_eq {x : Int} (lower : -2 ^ 31 ≤ x) (upper : x < 2 ^ 31) :
    toInt32 x = x := by
  apply Int.bmod_eq_of_le <;> omega

def stackTop : Cell := EMScbCell EMS_ARR_STACKTOP

def queueBottom : Cell := EMScbCell EMS_ARR_Q_BOTTOM

theorem stackTop_ne_queueBottom : stackTop ≠ queueBottom := by decide

theorem EMSdataCell_ne_queueBottom {i : Int} (inside : 0 ≤ i) :
    EMSdataCell i ≠ queueBottom := by
  intro same
  have sameIndex : i + EMS_ARR_CB_SIZE = EMS_ARR_Q_BOTTOM := same
  simp only [EMS_ARR_Q_BOTTOM, EMS_ARR_CB_SIZE] at sameIndex
  omega

theorem EMSdataCell_ne_stackTop {i : Int} (inside : 0 ≤ i) :
    EMSdataCell i ≠ stackTop := by
  intro same
  have sameIndex : i + EMS_ARR_CB_SIZE = EMS_ARR_STACKTOP := same
  simp only [EMS_ARR_STACKTOP, EMS_ARR_CB_SIZE] at sameIndex
  omega

variable (patience : Nat) (array : EmsArray)

/-- Write a value onto the stack or the queue. -/
def storeEntry (idx : Int) (value : EMSvalueType) :
    EmsProg (Except EMSError Unit) :=
  match value.type with
  | .boolean | .integer | .float => do
      store (EMSdataCell idx) value.value
      return .ok ()
  | .json | .string => do
      let textOffset ← emsMutexMem_alloc patience (value.text.bytes.length + 1)
      if textOffset < 0 then pure (.error .outOfMemory)
      else do
        store (EMSdataCell idx) textOffset
        copyToHeap textOffset value.text.bytes
        return .ok ()
  | .undefined => do
      store (EMSdataCell idx) 0xdeadbeef
      return .ok ()
  | _ => pure (.error .unknownType)

/-- Push onto stack. -/
def EMSpush (value : EMSvalueType) : EmsProg (Except EMSError Int) := do
  let _ ← EMStransitionFEtag patience stackTop none .full .busy
  let top ← load stackTop
  let idx := toInt32 top
  let top ← load stackTop
  store stackTop (top + 1)
  if idx = array.nElem - 1 then pure (.error .outOfStackEntries)
  else do
    let held ← EMStransitionFEtag patience (EMSdataCell idx) none .empty .busy
    let newTag : Tag := { held with rw := 0, type := value.type, fe := .full }
    let stored ← storeEntry patience idx value
    match stored with
    | .error error => pure (.error error)
    | .ok () => do
        storeTag (EMSdataCell idx) newTag
        storeFE stackTop .full
        return .ok idx

/-- Pop data from stack.  `malloc` is taken to serve the copy of a string. -/
def EMSpop : EmsProg (Except EMSError EMSvalueType) := do
  let _ ← EMStransitionFEtag patience stackTop none .full .busy
  let top ← load stackTop
  store stackTop (top - 1)
  let idx ← load stackTop
  if idx < 0 then do
    store stackTop 0
    storeFE stackTop .full
    return .ok (scalar .undefined 0xf00dd00f)
  else do
    let dataTag ← EMStransitionFEtag patience (EMSdataCell idx) none .full .busy
    match dataTag.type with
    | .boolean | .integer | .float => do
        let word ← load (EMSdataCell idx)
        storeFE (EMSdataCell idx) .empty
        storeFE stackTop .full
        return .ok (scalar dataTag.type word)
    | .json | .string => do
        let textOffset ← load (EMSdataCell idx)
        let memStrLen ← heapStrlen patience textOffset
        let textOffset ← load (EMSdataCell idx)
        let text ← copyFromHeap patience textOffset
        let textOffset ← load (EMSdataCell idx)
        emsMutexMem_free patience textOffset
        storeFE (EMSdataCell idx) .empty
        storeFE stackTop .full
        return .ok ⟨dataTag.type, 0, text, memStrLen⟩
    | .undefined => do
        storeFE (EMSdataCell idx) .empty
        storeFE stackTop .full
        return .ok (scalar .undefined 0xdeadbeef)
    | _ => pure (.error .unknownType)

/-- Enqueue data. -/
def EMSenqueue (value : EMSvalueType) : EmsProg (Except EMSError Int) := do
  let _ ← EMStransitionFEtag patience stackTop none .full .busy
  let top ← load stackTop
  let idx := toInt32 (top.tmod array.nElem)
  let top ← load stackTop
  store stackTop (top + 1)
  let top ← load stackTop
  let bottom ← load queueBottom
  if array.nElem < top - bottom then pure (.error .outOfStackEntries)
  else do
    -- the tag of the slot is changed without waiting for it to be empty
    storeRW (EMSdataCell idx) 0
    storeType (EMSdataCell idx) value.type
    let tag ← loadTag (EMSdataCell idx)
    let stored ← storeEntry patience idx { value with type := tag.type }
    match stored with
    | .error error => pure (.error error)
    | .ok () => do
        storeFE (EMSdataCell idx) .full
        storeFE stackTop .full
        return .ok idx

/-- Dequeue.  `malloc` is taken to serve the copy of a string. -/
def EMSdequeue : EmsProg (Except EMSError EMSvalueType) := do
  let _ ← EMStransitionFEtag patience queueBottom none .full .busy
  let bottom ← load queueBottom
  let idx := bottom.tmod array.nElem
  let bottom ← load queueBottom
  let top ← load stackTop
  if top ≤ bottom then do
    let top ← load stackTop
    store queueBottom top
    storeFE queueBottom .full
    return .ok (scalar .undefined 0xf00dd00f)
  else do
    let bottom ← load queueBottom
    store queueBottom (bottom + 1)
    let dataTag ← EMStransitionFEtag patience (EMSdataCell idx) none .full .busy
    let released : Tag := { dataTag with fe := .empty }
    match dataTag.type with
    | .boolean | .integer | .float => do
        let word ← load (EMSdataCell idx)
        storeTag (EMSdataCell idx) released
        storeFE queueBottom .full
        return .ok (scalar dataTag.type word)
    | .json | .string => do
        storeTag (EMSdataCell idx) released
        storeFE queueBottom .full
        let textOffset ← load (EMSdataCell idx)
        let memStrLen ← heapStrlen patience textOffset
        let textOffset ← load (EMSdataCell idx)
        let text ← copyFromHeap patience textOffset
        let textOffset ← load (EMSdataCell idx)
        emsMutexMem_free patience textOffset
        return .ok ⟨dataTag.type, 0, text, memStrLen⟩
    | .undefined => do
        storeTag (EMSdataCell idx) released
        storeFE queueBottom .full
        return .ok (scalar .undefined 0xdeadbeef)
    | _ => pure (.error .unknownType)

end EMS
