import EMS.Memory

/-!
# Keys, tags and elements

The functions of `ems.cc` that find the element of a key and that read and
write elements under their full/empty tags.  Loops take a bound, their
patience; the loops over slots of the map are bounded by the source.
-/

namespace EMS

open SharedProgram

/-- Maximum number of slots to check due to conflicts. -/
def MAX_OPEN_HASH_STEPS : Nat := 200

/-- Wait until the FE tag is a particular state, then transition it to the new
state and return the new tag.  All callers pass `EMS_TAG_ANY` as the type to
wait for.  While it waits the map tag, if there is one, is given up. -/
def EMStransitionFEtag : Nat → Cell → Option Cell → FE → FE → EmsProg Tag
  | 0, _, _, _, _ => .spin
  | patience + 1, tag, mapTag, oldFE, newFE => do
      let memTag ← loadTag tag
      let oldTag := { memTag with fe := oldFE }
      let newTag := { memTag with fe := newFE }
      let found ← casTag tag oldTag newTag
      if found = oldTag then pure newTag
      else
        match mapTag with
        | none => EMStransitionFEtag patience tag none oldFE newFE
        | some map => do
            storeFE map .full
            let _ ← EMStransitionFEtag patience map none .full .busy
            EMStransitionFEtag patience tag (some map) oldFE newFE

/-! ## Keys -/

def llabs (x : Int) : Int := if x = -2 ^ 63 then x else |x|

/-- A `char` as a number. -/
def charValue (byte : UInt8) : Int :=
  if byte.toNat < 128 then byte.toNat else byte.toNat - 256

/-- Hash a string into an integer. -/
def EMShashString (key : CString) : Int :=
  let hash := key.bytes.foldl
    (fun hash byte =>
      (charValue byte + hash * 2 ^ 6 + hash * 2 ^ 16 - hash) % 2 ^ 64) 0
  llabs (toInt64 (hash * 1191613))

/-- Where the search for a key starts, before it is reduced to a slot. -/
def keyStart (key : EMSvalueType) : Option Int :=
  match key.type with
  | .boolean => some (if key.value ≠ 0 then 1 else 0)
  | .integer => some (llabs key.value)
  | .float => some (llabs key.value)
  | .string => some (EMShashString key.text)
  | _ => none

section Keys

variable [CRuntime] (patience : Nat) (array : EmsArray) (key : EMSvalueType)

/-- The comparison of a key with the slot that `EMSkey2index` looks at. -/
def lookupMatches (mapTags : Tag) (idx : Int) : EmsProg Bool :=
  if mapTags.type = key.type then
    match key.type with
    | .boolean | .integer => do
        let word ← load (EMSmapCell array.nElem idx)
        return key.value = word
    | .float => do
        let word ← load (EMSmapCell array.nElem idx)
        return CRuntime.eq key.value word
    | .string => do
        let keyStrOffset ← load (EMSmapCell array.nElem idx)
        equalsHeap key.text.bytes keyStrOffset
    | .undefined => pure false
    | _ => pure true
  else pure false

/-- The probe loop of `EMSkey2index`. -/
def lookupProbe : Nat → Int → EmsProg Int
  | 0, _ => pure (-1)
  | tries + 1, idx => do
      let idx := idx.tmod array.nElem
      let mapTags ← EMStransitionFEtag patience (EMSmapCell array.nElem idx)
        none .full .busy
      let matched ← lookupMatches array key mapTags idx
      storeFE (EMSmapCell array.nElem idx) .full
      if matched then pure idx
      else if mapTags.type = .undefined then pure (-1)
      else lookupProbe tries (idx + 1)

/-- Convert any type of key to an index. -/
def EMSkey2index (isMapped : Bool) : EmsProg Int :=
  match keyStart key with
  | none => pure (-1)
  | some idx =>
      if isMapped then do
        let idx ← lookupProbe patience array key MAX_OPEN_HASH_STEPS idx
        return idx.tmod array.nElem
      else pure (idx.tmod array.nElem)

/-- Store a new key in a slot that has none. -/
def insertKey (idx : Int) : EmsProg (Except EMSError Unit) := do
  storeType (EMSmapCell array.nElem idx) key.type
  match key.type with
  | .boolean => do
      store (EMSmapCell array.nElem idx) (if key.value ≠ 0 then 1 else 0)
      return .ok ()
  | .integer => do
      store (EMSmapCell array.nElem idx) key.value
      return .ok ()
  | .float => do
      store (EMSmapCell array.nElem idx) key.value
      return .ok ()
  | .string => do
      let textOffset ← emsMutexMem_alloc patience (key.length + 1)
      if textOffset < 0 then pure (.error .outOfMemory)
      else do
        store (EMSmapCell array.nElem idx) textOffset
        copyToHeap textOffset key.text.bytes
        return .ok ()
  | .undefined => do
      store (EMSmapCell array.nElem idx) 0xdeadbeef
      return .ok ()
  | _ => pure (.ok ())

/-- The comparison of a key with the slot that `EMSwriteIndexMap` looks at. -/
def writeMatches (mapTags : Tag) (idx : Int) : EmsProg Bool :=
  match mapTags.type with
  | .boolean => do
      let word ← load (EMSmapCell array.nElem idx)
      return key.value = if word ≠ 0 then 1 else 0
  | .integer => do
      let word ← load (EMSmapCell array.nElem idx)
      return key.value = word
  | .float => do
      let word ← load (EMSmapCell array.nElem idx)
      return CRuntime.eq key.value word
  | .string => do
      let keyStrOffset ← load (EMSmapCell array.nElem idx)
      equalsHeap key.text.bytes keyStrOffset
  | _ => pure true

/-- The probe loop of `EMSwriteIndexMap`.  A slot that was free is left busy. -/
def writeProbe : Nat → Int → EmsProg Int
  | 0, _ => pure (-1)
  | tries + 1, idx => do
      let idx := idx.tmod array.nElem
      let mapTags ← EMStransitionFEtag patience (EMSmapCell array.nElem idx)
        none .full .busy
      if mapTags.type = .undefined then do
        let inserted ← insertKey patience array key idx
        match inserted with
        | .error _ => pure (-1)
        | .ok () => pure idx
      else do
        let matched ←
          if mapTags.type = key.type then writeMatches array key mapTags idx
            else pure false
        if matched then
          match mapTags.type with
          | .boolean | .integer | .float | .string => do
              storeFE (EMSmapCell array.nElem idx) .full
              return idx
          | _ => pure idx
        else do
          storeFE (EMSmapCell array.nElem idx) .full
          writeProbe tries (idx + 1)

/-- Find the matching map key, if not present, find the next available open
address. -/
def EMSwriteIndexMap : EmsProg Int := do
  let idx ← EMSkey2index patience array key array.isMapped
  if 0 < idx then pure idx
  else do
    let idx ← EMSkey2index patience array key false
    if array.isMapped then writeProbe patience array key MAX_OPEN_HASH_STEPS idx
    else if idx < 0 ∨ array.nElem ≤ idx then pure (-1)
    else pure idx

/-- On an unmapped array an index is its own slot. -/
theorem EMSkey2index_unmapped {idx : Int} (inside : 0 ≤ idx)
    (below : idx < array.nElem) :
    EMSkey2index patience array (scalar .integer idx) false = .ret idx := by
  have absolute : llabs idx = idx := by
    rw [llabs, if_neg (by omega), abs_of_nonneg inside]
  simp [EMSkey2index, keyStart, scalar, absolute,
    Int.tmod_eq_of_lt inside below]

theorem EMSwriteIndexMap_unmapped {idx : Int}
    (unmapped : array.isMapped = false)
    (inside : 0 ≤ idx) (below : idx < array.nElem) :
    EMSwriteIndexMap patience array (scalar .integer idx) = .ret idx := by
  have inRange : ¬ (idx < 0 ∨ array.nElem ≤ idx) := by omega
  simp [EMSwriteIndexMap, unmapped,
    EMSkey2index_unmapped patience array inside below, inRange]

end Keys

/-! ## Reading -/

/-- Give the map tag of an element back to full, if the array is mapped. -/
def releaseMap (array : EmsArray) (idx : Int) : EmsProg Unit :=
  if array.isMapped then storeFE (EMSmapCell array.nElem idx) .full else pure ()

/-- The map tag of an element that is waited for, if the array is mapped. -/
def mapTagOf (array : EmsArray) (idx : Int) : Option Cell :=
  if array.isMapped then some (EMSmapCell array.nElem idx) else none

/-- Whether `EMSreadUsingTags` tries to acquire an element with this tag.  The
last argument is what its variable `newTag` holds. -/
def mayRead (initialFE : Option FE) (memTag newTag : Tag) : Bool :=
  match initialFE with
  | none => true
  | some .rwLock =>
      ((memTag.fe = .rwLock ∧ newTag.rw < 7) ∨ memTag.fe = .full) ∧
        memTag.rw < 7
  | some initialFE => memTag.fe = initialFE

section Reading

variable (patience : Nat) (array : EmsArray) (idx : Int)

/-- Set the final tag of an element that was read, unless it is to stay. -/
def finishRead (finalFE : Option FE) (newTag : Tag) : EmsProg Unit := do
  match finalFE with
  | some fe => storeTag (EMSdataCell idx) { newTag with fe := fe }
  | none => pure ()
  releaseMap array idx

/-- What `EMSreadUsingTags` does with an element it has acquired. -/
def readElement (finalFE : Option FE) (newTag : Tag) :
    EmsProg (Except EMSError EMSvalueType) :=
  match newTag.type with
  | .boolean => do
      let word ← load (EMSdataCell idx)
      finishRead array idx finalFE newTag
      return .ok (scalar .boolean (if word ≠ 0 then 1 else 0))
  | .integer => do
      let word ← load (EMSdataCell idx)
      finishRead array idx finalFE newTag
      return .ok (scalar .integer word)
  | .float => do
      let word ← load (EMSdataCell idx)
      finishRead array idx finalFE newTag
      return .ok (scalar .float word)
  | .json | .string => do
      let textOffset ← load (EMSdataCell idx)
      let length ← heapStrlen patience textOffset
      finishRead array idx finalFE newTag
      -- the caller gets the address of the string in the heap
      return .ok ⟨newTag.type, textOffset, .empty, length⟩
  | .undefined => do
      finishRead array idx finalFE newTag
      return .ok (scalar .undefined 0xcafebeef)
  | _ => pure (.error .unknownType)

/-- The loop of `EMSreadUsingTags`. -/
def readLoop (initialFE finalFE : Option FE) :
    Nat → Tag → EmsProg (Except EMSError EMSvalueType)
  | 0, _ => .spin
  | tries + 1, newTag => do
      let memTag ← loadTag (EMSdataCell idx)
      let newTag' := { memTag with
        fe := .busy
        rw := if initialFE = some .rwLock then memTag.rw + 1 else memTag.rw }
      let retry := fun newTag => do
        if array.isMapped then
          storeFE (EMSmapCell array.nElem idx) .full
          let _ ← EMStransitionFEtag patience (EMSmapCell array.nElem idx)
            none .full .busy
          readLoop initialFE finalFE tries newTag
        else readLoop initialFE finalFE tries newTag
      if mayRead initialFE memTag newTag then
        match initialFE with
        | none => readElement patience array idx finalFE newTag'
        | some fe => do
            let oldTag :=
              if fe = .rwLock then memTag else { memTag with fe := fe }
            let found ← casTag (EMSdataCell idx) oldTag newTag'
            if found = oldTag then
              readElement patience array idx finalFE newTag'
            else retry newTag'
      else retry newTag

end Reading

section Elements

variable [CRuntime] (patience : Nat) (array : EmsArray)

/-- Read EMS memory, enforcing full/empty tag transitions.  `stack` is what the
variable `newTag` holds before it is first set. -/
def EMSreadUsingTags (stack : Tag) (key : EMSvalueType)
    (initialFE finalFE : Option FE) :
    EmsProg (Except EMSError EMSvalueType) := do
  let idx ← EMSkey2index patience array key array.isMapped
  if array.isMapped ∧ idx < 0 then
    if finalFE = none then pure (.ok (scalar .undefined 0xdeafbeef))
    else do
      let idx ← EMSwriteIndexMap patience array key
      if idx < 0 then pure (.error .unableToAllocate)
      else if array.nElem ≤ idx then pure (.error .indexOutOfBounds)
      else readLoop patience array idx initialFE finalFE patience stack
  else if idx < 0 ∨ array.nElem ≤ idx then pure (.error .indexOutOfBounds)
  else readLoop patience array idx initialFE finalFE patience stack

/-- Read when full and leave empty. -/
def EMSreadFE (stack : Tag) (key : EMSvalueType) :
    EmsProg (Except EMSError EMSvalueType) :=
  EMSreadUsingTags patience array stack key (some .full) (some .empty)

/-- Read when full and leave full. -/
def EMSreadFF (stack : Tag) (key : EMSvalueType) :
    EmsProg (Except EMSError EMSvalueType) :=
  EMSreadUsingTags patience array stack key (some .full) (some .full)

/-- Read whatever the tag is, and leave it. -/
def EMSread (stack : Tag) (key : EMSvalueType) :
    EmsProg (Except EMSError EMSvalueType) :=
  EMSreadUsingTags patience array stack key none none

/-- Read under the multiple readers-single writer lock. -/
def EMSreadRW (stack : Tag) (key : EMSvalueType) :
    EmsProg (Except EMSError EMSvalueType) :=
  EMSreadUsingTags patience array stack key (some .rwLock) (some .rwLock)

/-- The loop of `EMSreleaseRW`. -/
def releaseLoop (idx : Int) : Nat → EmsProg Int
  | 0 => .spin
  | tries + 1 => do
      let oldTag ← loadTag (EMSdataCell idx)
      if oldTag.fe = .rwLock then
        -- "locked but Count already 0"
        if oldTag.rw = 0 then pure (-1)
        else do
          let rw := oldTag.rw - 1
          let newTag :=
            { oldTag with rw := rw, fe := if rw = 0 then .full else .rwLock }
          let found ← casTag (EMSdataCell idx) oldTag newTag
          if found = oldTag then pure rw.val else releaseLoop idx tries
      else if oldTag.fe ≠ .busy then pure (-1)
      else releaseLoop idx tries

/-- Decrement the reference count of the multiple readers-single writer lock. -/
def EMSreleaseRW (key : EMSvalueType) : EmsProg Int := do
  let idx ← EMSkey2index patience array key array.isMapped
  if idx < 0 ∨ array.nElem ≤ idx then pure (-1) else releaseLoop idx patience

/-! ## Writing -/

/-- Store a value into an element that is held. -/
def storeValue (idx : Int) (value : EMSvalueType) :
    EmsProg (Except EMSError Unit) :=
  match value.type with
  | .boolean | .integer | .float => do
      store (EMSdataCell idx) value.value
      return .ok ()
  | .json | .string => do
      let textOffset ← emsMutexMem_alloc patience (value.length + 1)
      if textOffset < 0 then pure (.error .outOfMemory)
      else do
        store (EMSdataCell idx) textOffset
        copyToHeap textOffset value.text.bytes
        return .ok ()
  | .undefined => do
      store (EMSdataCell idx) 0xdeadbeef
      return .ok ()
  | _ => pure (.error .unknownType)

/-- What `EMSwriteUsingTags` does with an element it has acquired.  `oldTag` is
the tag it had and `newTag` the tag it has now. -/
def writeElement (idx : Int) (value : EMSvalueType) (finalFE : Option FE)
    (oldTag newTag : Tag) : EmsProg (Except EMSError Unit) := do
  if oldTag.type = .string ∨ oldTag.type = .json then
    let old ← load (EMSdataCell idx)
    emsMutexMem_free patience old
  let stored ← storeValue patience idx value
  match stored with
  | .error error => pure (.error error)
  | .ok () =>
      match finalFE with
      | none => do
          storeTag (EMSdataCell idx) { newTag with type := value.type }
          releaseMap array idx
          return .ok ()
      | some fe => do
          let current ← loadTag (EMSdataCell idx)
          -- "Lost tag lock while BUSY"
          if current ≠ newTag then pure (.error .lostTagLock)
          else do
            storeTag (EMSdataCell idx) ⟨fe, value.type, 0⟩
            releaseMap array idx
            return .ok ()

/-- The loop of `EMSwriteUsingTags`. -/
def writeLoop (value : EMSvalueType) (initialFE finalFE : Option FE) :
    Nat → Int → EmsProg (Except EMSError Unit)
  | 0, _ => .spin
  | tries + 1, idx => do
      let idx := idx.tmod array.nElem
      let memTag ← loadTag (EMSdataCell idx)
      let newTag :=
        if finalFE = none then memTag else { memTag with fe := .busy }
      if initialFE ≠ none ∨ finalFE = none then
        writeElement patience array idx value finalFE memTag newTag
      else if memTag.fe ≠ .busy then do
        let found ← casTag (EMSdataCell idx) memTag newTag
        if found = memTag then
          writeElement patience array idx value finalFE memTag newTag
        else writeLoop value initialFE finalFE tries idx
      else writeLoop value initialFE finalFE tries idx

/-- Write EMS honoring the full/empty tags. -/
def EMSwriteUsingTags (key value : EMSvalueType)
    (initialFE finalFE : Option FE) :
    EmsProg (Except EMSError Unit) := do
  let idx ← EMSwriteIndexMap patience array key
  if idx < 0 then pure (.error .indexOutOfBounds)
  else do
    match initialFE with
    | none => pure ()
    | some fe => do
        let _ ← EMStransitionFEtag patience (EMSdataCell idx)
          (mapTagOf array idx) fe .busy
    writeLoop patience array value initialFE finalFE patience idx

def EMSwriteXF (key value : EMSvalueType) : EmsProg (Except EMSError Unit) :=
  EMSwriteUsingTags patience array key value none (some .full)

def EMSwriteXE (key value : EMSvalueType) : EmsProg (Except EMSError Unit) :=
  EMSwriteUsingTags patience array key value none (some .empty)

def EMSwriteEF (key value : EMSvalueType) : EmsProg (Except EMSError Unit) :=
  EMSwriteUsingTags patience array key value (some .empty) (some .full)

def EMSwrite (key value : EMSvalueType) : EmsProg (Except EMSError Unit) :=
  EMSwriteUsingTags patience array key value none none

/-- Set only the full/empty tag. -/
def EMSsetTag (key : EMSvalueType) (isFull : Bool) : EmsProg Bool := do
  let idx ← EMSkey2index patience array key array.isMapped
  if idx < 0 ∨ array.nElem ≤ idx then pure false
  else do
    let tag ← loadTag (EMSdataCell idx)
    storeTag (EMSdataCell idx)
      { tag with fe := if isFull then .full else .empty }
    return true

end Elements

/-! ## From indexes to keys -/

/-- Return the key of a mapped object given the EMS index. -/
def EMSindex2key (array : EmsArray) (idx : Int) :
    EmsProg (Except EMSError EMSvalueType) :=
  if ¬ array.isMapped then pure (.error .notMapped)
  else if idx < 0 ∨ array.nElem ≤ idx then pure (.error .indexOutOfBounds)
  else do
    let tag ← loadTag (EMSmapCell array.nElem idx)
    match tag.type with
    | .boolean | .integer | .float => do
        let word ← load (EMSmapCell array.nElem idx)
        return .ok (scalar tag.type word)
    | .json | .string => do
        let textOffset ← load (EMSmapCell array.nElem idx)
        -- the caller gets the address of the string in the heap
        return .ok ⟨tag.type, textOffset, .empty, 0⟩
    | .undefined => pure (.ok (scalar .undefined 0))
    | _ => pure (.error .unknownType)

end EMS
