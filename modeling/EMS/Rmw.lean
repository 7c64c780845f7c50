import EMS.Elements

/-!
# Read-modify-write operations

Fetch-and-add and compare-and-swap of `rmw.cc`.  Both wait until the element is
full, hold it busy while they work, and leave it full.
-/

namespace EMS

open SharedProgram

/-- Maximum number of characters in a `%d` or `%f` format. -/
def MAX_NUMBER2STR_LEN : Nat := 40

/-- The format `%lld`. -/
def formatInt (value : Int) : CString := textOf (toString value).toList

def CString.append (first second : CString) : CString where
  bytes := first.bytes ++ second.bytes
  terminated := List.forall_mem_append.mpr ⟨first.terminated, second.terminated⟩

/-! ## Fetch and add -/

section Faa

variable [CRuntime] (patience : Nat) (idx : Int)

/-- Allocate space for a string, write it there, and store its address.  The
text is composed once there is space for it. -/
def storeText (len : Nat) (compose : EmsProg CString) :
    EmsProg (Except EMSError Unit) := do
  let textOffset ← emsMutexMem_alloc patience len
  if textOffset < 0 then pure (.error .outOfMemory)
  else do
    let text ← compose
    copyToHeap textOffset text.bytes
    store (EMSdataCell idx) textOffset
    return .ok ()

/-- Add to a boolean; the type of the sum. -/
def faaBoolean (value : EMSvalueType) : EmsProg (Except EMSError EMSType) :=
  match value.type with
  | .integer | .boolean => do
      let word ← load (EMSdataCell idx)
      store (EMSdataCell idx) (toInt64 (word + value.value))
      return .ok .integer
  | .float => do
      let word ← load (EMSdataCell idx)
      store (EMSdataCell idx) (CRuntime.add (CRuntime.ofInt word) value.value)
      return .ok .float
  | .undefined => do
      store (EMSdataCell idx) CRuntime.nan
      return .ok .float
  | .string => do
      let stored ← storeText patience idx (value.length + 1 + 5) (do
        let word ← load (EMSdataCell idx)
        return (textOf (if word ≠ 0 then "true" else "false").toList).append
          value.text)
      return stored.map fun _ => .string
  | _ => pure (.error .unknownType)

/-- Add to an integer; the type of the sum.  A sum that may overflow becomes a
double. -/
def faaInteger (value : EMSvalueType) : EmsProg (Except EMSError EMSType) :=
  match value.type with
  | .integer => do
      let word ← load (EMSdataCell idx)
      let memInt := toInt64 (word + value.value)
      if 2 ^ 30 ≤ memInt then do
        store (EMSdataCell idx) (CRuntime.ofInt memInt)
        return .ok .float
      else do
        store (EMSdataCell idx) memInt
        return .ok .integer
  | .float => do
      let word ← load (EMSdataCell idx)
      store (EMSdataCell idx) (CRuntime.add (CRuntime.ofInt word) value.value)
      return .ok .float
  | .undefined => do
      store (EMSdataCell idx) CRuntime.nan
      return .ok .float
  | .boolean => do
      let word ← load (EMSdataCell idx)
      store (EMSdataCell idx) (toInt64 (word + value.value))
      return .ok .integer
  | .string => do
      let stored ← storeText patience idx
          (value.length + 1 + MAX_NUMBER2STR_LEN) (do
        let word ← load (EMSdataCell idx)
        return (formatInt word).append value.text)
      return stored.map fun _ => .string
  | _ => pure (.error .unknownType)

/-- Add to a double; the type of the sum. -/
def faaFloat (value : EMSvalueType) : EmsProg (Except EMSError EMSType) :=
  match value.type with
  | .integer | .boolean => do
      let word ← load (EMSdataCell idx)
      store (EMSdataCell idx) (CRuntime.add word (CRuntime.ofInt value.value))
      return .ok .float
  | .float => do
      let word ← load (EMSdataCell idx)
      store (EMSdataCell idx) (CRuntime.add word value.value)
      return .ok .float
  | .string => do
      let stored ← storeText patience idx
          (value.length + 1 + MAX_NUMBER2STR_LEN) (do
        let word ← load (EMSdataCell idx)
        return (CRuntime.format word).append value.text)
      return stored.map fun _ => .string
  | .undefined => do
      store (EMSdataCell idx) CRuntime.nan
      return .ok .float
  | _ => pure (.error .unknownType)

/-- What is added to a string, and the bytes that are requested for the sum. -/
def faaSuffix (oldStrLen : Nat) (value : EMSvalueType) :
    Option (Nat × CString) :=
  match value.type with
  | .integer => some (oldStrLen + 1 + MAX_NUMBER2STR_LEN, formatInt value.value)
  | .float =>
      some (oldStrLen + 1 + MAX_NUMBER2STR_LEN, CRuntime.format value.value)
  | .string => some (oldStrLen + 1 + value.length, value.text)
  | .boolean => some (oldStrLen + 1 + 5,
      textOf (if value.value ≠ 0 then "true" else "false").toList)
  | .undefined => some (oldStrLen + 1 + 9, textOf "undefined".toList)
  | _ => none

/-- Append to a string: its old text, and the type of the sum.  The old text is
copied to memory of the process first. -/
def faaString (value : EMSvalueType) :
    EmsProg (Except EMSError (CString × EMSType)) := do
  let textOffset ← load (EMSdataCell idx)
  let oldStrLen ← heapStrlen patience textOffset
  if CRuntime.mallocs (oldStrLen + 1) then do
    let old ← copyFromHeap patience textOffset
    match faaSuffix oldStrLen value with
    | none => pure (.error .unknownType)
    | some (len, suffix) => do
        let newOffset ← emsMutexMem_alloc patience len
        if newOffset < 0 then pure (.error .outOfMemory)
        else do
          let text ← copyFromHeap patience textOffset
          copyToHeap newOffset (text.append suffix).bytes
          emsMutexMem_free patience textOffset
          store (EMSdataCell idx) newOffset
          return .ok (old, .string)
  else pure (.error .unableToMalloc)

/-- Add to an undefined element; the type of the sum. -/
def faaUndefined (value : EMSvalueType) : EmsProg (Except EMSError EMSType) :=
  match value.type with
  | .integer | .float | .boolean | .undefined => do
      store (EMSdataCell idx) CRuntime.nan
      return .ok .float
  | .string => do
      let stored ← storeText patience idx (value.length + 1 + 3)
        (pure ((textOf "NaN".toList).append value.text))
      return stored.map fun _ => .undefined
  | _ => pure (.error .unknownType)

/-- The part of `EMSfaa` that works on the element it holds: the value returned
and the type of the sum. -/
def faaElement (type : EMSType) (value : EMSvalueType) :
    EmsProg (Except EMSError (EMSvalueType × EMSType)) :=
  match type with
  | .boolean => do
      let word ← load (EMSdataCell idx)
      let sum ← faaBoolean patience idx value
      return sum.map fun sumType =>
        (scalar .boolean (if word ≠ 0 then 1 else 0), sumType)
  | .integer => do
      let word ← load (EMSdataCell idx)
      let sum ← faaInteger patience idx value
      return sum.map fun sumType => (scalar .integer word, sumType)
  | .float => do
      let word ← load (EMSdataCell idx)
      let sum ← faaFloat patience idx value
      return sum.map fun sumType => (scalar .float word, sumType)
  | .string => do
      let sum ← faaString patience idx value
      return sum.map fun sum => (⟨.string, 0, sum.1, sum.1.bytes.length⟩, sum.2)
  | .undefined => do
      let sum ← faaUndefined patience idx value
      return sum.map fun sumType => (scalar .undefined 0xf00dd00f, sumType)
  | _ => pure (.error .unknownType)

/-- Fetch and add: returns the value the element had. -/
def EMSfaa (array : EmsArray) (key value : EMSvalueType) :
    EmsProg (Except EMSError EMSvalueType) := do
  let idx ← EMSwriteIndexMap patience array key
  if idx < 0 ∨ array.nElem ≤ idx then pure (.error .indexOutOfBounds)
  else do
    let oldTag ← EMStransitionFEtag patience (EMSdataCell idx)
      (mapTagOf array idx) .full .busy
    let sum ← faaElement patience idx oldTag.type value
    match sum with
    | .error error => pure (.error error)
    | .ok (returnValue, sumType) => do
        storeTag (EMSdataCell idx) { oldTag with fe := .full, type := sumType }
        releaseMap array idx
        return .ok returnValue

end Faa

/-! ## Compare and swap -/

section Cas

variable [CRuntime] (patience : Nat) (array : EmsArray)

/-- The value in memory, as `EMScas` returns it.  A string is copied to memory
of the process. -/
def casRead (idx : Int) (memType : EMSType) :
    EmsProg (Except EMSError EMSvalueType) :=
  match memType with
  | .undefined => pure (.ok (scalar .undefined 0xf00dcafe))
  | .boolean | .integer | .float => do
      let word ← load (EMSdataCell idx)
      return .ok (scalar memType word)
  | .json | .string => do
      let textOffset ← load (EMSdataCell idx)
      let memStrLen ← heapStrlen patience textOffset
      if CRuntime.mallocs (memStrLen + 1) then do
        let text ← copyFromHeap patience textOffset
        return .ok ⟨memType, 0, text, memStrLen⟩
      else pure (.error .unableToMalloc)
  | _ => pure (.error .unknownType)

/-- Whether the value in memory is the one that is to be replaced. -/
def casEqual (oldValue current : EMSvalueType) : Bool :=
  oldValue.type == current.type &&
    match current.type with
    | .undefined => true
    | .boolean | .integer | .float => current.value == oldValue.value
    | .json | .string => current.text == oldValue.text
    | _ => false

/-- Store the new value of a successful swap.  The string is written before its
address is stored. -/
def casStore (idx : Int) (newValue : EMSvalueType) :
    EmsProg (Except EMSError Unit) :=
  match newValue.type with
  | .undefined => do
      store (EMSdataCell idx) 0xbeeff00d
      return .ok ()
  | .boolean | .integer | .float => do
      store (EMSdataCell idx) newValue.value
      return .ok ()
  | .json | .string =>
      storeText patience idx (newValue.length + 1) (pure newValue.text)
  | _ => pure (.error .unknownType)

/-- The end of `EMScas`, where memory and the old value have been compared. -/
def casFinish (idx : Int) (current newValue : EMSvalueType) (swapped : Bool) :
    EmsProg (Except EMSError EMSvalueType) :=
  if swapped then do
    if current.type = .string ∨ current.type = .json then
      let old ← load (EMSdataCell idx)
      emsMutexMem_free patience old
    let stored ← casStore patience idx newValue
    match stored with
    | .error error => pure (.error error)
    | .ok () => do
        storeTag (EMSdataCell idx) ⟨.full, newValue.type, 0⟩
        releaseMap array idx
        return .ok current
  else do
    storeTag (EMSdataCell idx) ⟨.full, current.type, 0⟩
    releaseMap array idx
    return .ok current

/-- `EMScas` on an element that exists. -/
def casElement (idx : Int) (oldValue newValue : EMSvalueType) :
    EmsProg (Except EMSError EMSvalueType) := do
  let _ ← EMStransitionFEtag patience (EMSdataCell idx)
    (mapTagOf array idx) .full .busy
  let tag ← loadTag (EMSdataCell idx)
  let current ← casRead patience idx tag.type
  match current with
  | .error error => pure (.error error)
  | .ok current =>
      casFinish patience array idx current newValue (casEqual oldValue current)

/-- Atomic compare and swap: returns the value the element had. -/
def EMScas (key oldValue newValue : EMSvalueType) :
    EmsProg (Except EMSError EMSvalueType) := do
  let idx ← EMSkey2index patience array key array.isMapped
  if (¬ array.isMapped ∧ idx < 0) ∨ array.nElem ≤ idx then pure (.error .indexOutOfBounds)
  else if array.isMapped ∧ idx < 0 then
    -- the key is absent, so the value in memory is undefined
    if oldValue.type = .undefined then do
      let idx ← EMSwriteIndexMap patience array key
      if idx < 0 then pure (.error .unableToAllocate)
      else do
        store (EMSdataCell idx) 0xcafebabe
        storeTag (EMSdataCell idx) ⟨.full, .undefined, 0⟩
        casElement patience array idx oldValue newValue
    else casFinish patience array idx (scalar .undefined 0xf00dcafe) newValue false
  else casElement patience array idx oldValue newValue

end Cas

end EMS
