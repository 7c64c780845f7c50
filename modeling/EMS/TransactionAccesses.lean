import EMS.PythonTransactions
import EMS.PythonValues

/-!
# Transactions, access by access

The native calls that a transaction on elements of unmapped arrays consists of,
each in the accesses that it makes: `EMSreadUsingTags` under which the elements
are locked, `EMSwriteUsingTags` with which the transaction writes and an abort
writes back, `EMSreleaseRW` and `EMSsetTag`.  A call of the allocator is one
access, and so is the copying of a string into a block that has just been handed
out.
-/

namespace EMS

open SharedProgram Interleaving BulkSynchronous

/-! ## Memory -/

/-- The memory of every array, with the account of its heap. -/
structure TxMemory where
  region : Nat → Ledger

/-- What a reader finds of an element. -/
structure Shown where
  type : EMSType
  word : Int
  heap : Int → UInt8

/-- What is found is the value. -/
def Shown.Is (shown : Shown) (value : EMSvalueType) : Prop :=
  shown.type = value.type ∧ ∃ blocks,
    WordHolds shown.word shown.heap value blocks

/-- An element is named by the number of its array and its index. -/
abbrev ElementName := Nat × Nat

namespace TxMemory

variable (memory : TxMemory) (name : ElementName)

def tag : Tag := (memory.region name.1).buf.tag (EMSdataCell name.2)

def word : Int := (memory.region name.1).buf.word (EMSdataCell name.2)

def shown : Shown :=
  ⟨(memory.tag name).type, memory.word name, (memory.region name.1).buf.heap⟩

def setRegion (ledger : Ledger) : TxMemory :=
  ⟨Function.update memory.region name.1 ledger⟩

def setTag (tag : Tag) : TxMemory :=
  memory.setRegion name
    { memory.region name.1 with buf :=
      (memory.region name.1).buf.setTag (EMSdataCell name.2) tag }

end TxMemory

/-! ## Processes -/

/-- The tag that a lock is acquired from. -/
def TmLock.initialFE : TmLock → FE
  | .readRW => .rwLock
  | .readFE => .full

/-- The tag that a lock leaves. -/
def TmLock.finalFE : TmLock → FE
  | .readRW => .rwLock
  | .readFE => .empty

/-- `oldTag` and `newTag` of `EMSreadUsingTags`. -/
def TmLock.oldTag (lock : TmLock) (memTag : Tag) : Tag :=
  match lock with
  | .readRW => memTag
  | .readFE => { memTag with fe := .full }

def TmLock.newTag (lock : TmLock) (memTag : Tag) : Tag :=
  match lock with
  | .readRW => { memTag with fe := .busy, rw := memTag.rw + 1 }
  | .readFE => { memTag with fe := .busy }

/-- An entry of a handle, with what was found when the element was locked. -/
structure TxHeld where
  name : ElementName
  lock : TmLock
  locked : Shown
  value : PyValue

/-- A call of `EMSwriteUsingTags`, which for `EMSwriteEF` has acquired the
element. -/
structure TxWrite where
  name : ElementName
  value : EMSvalueType
  finalFE : Option FE

/-- The next access of a native call. -/
inductive TxPc where
  | idle
  | readTag
  | readCas (memTag : Tag)
  | readData (newTag : Tag)
  | readStore (newTag : Tag) (word : Int)
  | fetch (type : EMSType) (word : Int)
  | releaseTag
  | releaseCas (oldTag : Tag)
  | setLoad
  | setStore (tag : Tag)
  | awaitTag (value : EMSvalueType)
  | awaitCas (value : EMSvalueType) (memTag : Tag)
  | writeTag (write : TxWrite)
  | writeFree (write : TxWrite) (tag : Tag)
  | writePlace (write : TxWrite) (tag : Tag)
  | writeFinish (write : TxWrite) (tag : Tag)

/-- A process.  While elements are locked, the last one is the first of the
handle. -/
structure TxProcess where
  python : Bool
  phase : TmPhase
  pending : List (ElementName × TmLock)
  handle : List TxHeld
  pc : TxPc

/-- What a read returns of a type and a word, and of the text that a string
is. -/
def readValue (type : EMSType) (word : Int) (text : CString) : EMSvalueType :=
  ⟨type, if type = .boolean then if word ≠ 0 then 1 else 0 else word, text, 0⟩

/-- The word that is stored for a value that is not a string. -/
def storedWord (value : EMSvalueType) : Int :=
  if value.type = .undefined then 0xdeadbeef else value.value

/-- The tag that a write leaves. -/
def TxWrite.finalTag (write : TxWrite) (tag : Tag) : Tag :=
  match write.finalFE with
  | none => { tag with type := write.value.type }
  | some fe => ⟨fe, write.value.type, 0⟩

/-- The process after a write.  With that of an abort, an entry of the handle is
done. -/
def TxProcess.written (process : TxProcess) (write : TxWrite) : TxProcess :=
  { process with
    handle :=
      if write.finalFE = none then process.handle else process.handle.tail
    pc := .idle }

def PyTmEntry.name (elem : PyTmEntry) : ElementName :=
  match elem.index with
  | .integer n => (elem.array.created, n.toNat)
  | .string _ => (elem.array.created, 0)

/-- The entry names an element of an unmapped array. -/
structure PyTmEntry.InArray (nElem : Nat → Nat) (elem : PyTmEntry) : Prop where
  unmapped : elem.array.useMap = false
  index : ∃ n : Nat, elem.index = .integer n ∧ n < nElem elem.array.created

/-- A step of Python or JavaScript, an access, a call that fails, the release of
an element that has been written back, and that of a shared one. -/
inductive TxAct where
  | call
  | access
  | fail
  | restored
  | unshared
  deriving DecidableEq

section Program

variable {N : Nat}

/-- The steps of one process.  Other processes than those of Python acquire
their locks in any order, and write back any values. -/
inductive TxProgram (nElem : Nat → Nat) (p : Fin N) :
    TxMemory → TxProcess → TxAct → TxMemory → TxProcess → Prop where
  | tmStart {memory : TxMemory} {process : TxProcess}
      (emsElems : List PyTmEntry) :
      process.phase = .outside → (∀ elem ∈ emsElems, elem.InArray nElem) →
      (emsElems.map PyTmEntry.name).Nodup →
      TxProgram nElem p memory process .call memory
        { process with
          python := true
          phase := .starting
          pending :=
            (tmStartLocks emsElems).map fun lock => (lock.1.name, lock.2) }
  | otherStart {memory : TxMemory} {process : TxProcess}
      (locks : List (ElementName × TmLock)) :
      process.phase = .outside → (∀ lock ∈ locks, lock.1.2 < nElem lock.1.1) →
      (locks.map Prod.fst).Nodup →
      TxProgram nElem p memory process .call memory
        { process with python := false, phase := .starting, pending := locks }
  | lock {memory : TxMemory} {process : TxProcess} :
      process.phase = .starting → process.pc = .idle → process.pending ≠ [] →
      TxProgram nElem p memory process .call memory
        { process with pc := .readTag }
  -- `newTag` is not initialised before the first test of the tag
  | readTag {memory : TxMemory} {process : TxProcess} {name : ElementName}
      {lock : TmLock}
      {pending : List (ElementName × TmLock)} (newTag : Tag) :
      process.pc = .readTag → process.pending = (name, lock) :: pending →
      TxProgram nElem p memory process .access memory
        { process with
          pc := if mayRead (some lock.initialFE) (memory.tag name) newTag
            then .readCas (memory.tag name) else .readTag }
  | readCas {memory : TxMemory} {process : TxProcess} {name : ElementName}
      {lock : TmLock}
      {pending : List (ElementName × TmLock)} {memTag : Tag} :
      process.pc = .readCas memTag → process.pending = (name, lock) :: pending →
      memory.tag name = lock.oldTag memTag →
      TxProgram nElem p memory process .access
        (memory.setTag name (lock.newTag memTag))
        { process with
          pending := pending
          handle := ⟨name, lock, memory.shown name, .none⟩ :: process.handle
          pc := .readData (lock.newTag memTag) }
  | readCasFailed {memory : TxMemory} {process : TxProcess} {name : ElementName}
      {lock : TmLock}
      {pending : List (ElementName × TmLock)} {memTag : Tag} :
      process.pc = .readCas memTag → process.pending = (name, lock) :: pending →
      memory.tag name ≠ lock.oldTag memTag →
      TxProgram nElem p memory process .access memory
        { process with pc := .readTag }
  | readData {memory : TxMemory} {process : TxProcess} {held : TxHeld}
      {handle : List TxHeld}
      {newTag : Tag} :
      process.pc = .readData newTag → process.handle = held :: handle →
      TxProgram nElem p memory process .access memory
        { process with pc := .readStore newTag (memory.word held.name) }
  | readStore {memory : TxMemory} {process : TxProcess} {held : TxHeld}
      {handle : List TxHeld}
      {newTag : Tag} {word : Int} :
      process.pc = .readStore newTag word → process.handle = held :: handle →
      TxProgram nElem p memory process .access
        (memory.setTag held.name { newTag with fe := held.lock.finalFE })
        { process with pc := .fetch newTag.type word }
  -- `_returnData`
  | fetch {memory : TxMemory} {process : TxProcess} {held : TxHeld}
      {handle : List TxHeld}
      {type : EMSType} {word : Int} {text : CString} {val : PyValue} :
      process.pc = .fetch type word → process.handle = held :: handle →
      (type.IsText → HeapHolds (memory.region held.name.1).buf.heap word
      text.bytes) →
      returnData (readValue type word text) = some val →
      TxProgram nElem p memory process .call memory
        { process
          with handle := { held with value := val } :: handle, pc := .idle }
  | started {memory : TxMemory} {process : TxProcess} :
      process.phase = .starting → process.pc = .idle → process.pending = [] →
      TxProgram nElem p memory process .call memory
        { process with phase := .inside }
  | write {memory : TxMemory} {process : TxProcess} {held : TxHeld}
      {value : EMSvalueType} :
      process.phase = .inside → process.pc = .idle → held ∈ process.handle →
      held.lock = .readFE → PlainValue value →
      TxProgram nElem p memory process .call memory
        { process with pc := .writeTag ⟨held.name, value, none⟩ }
  | tmEnd {memory : TxMemory} {process : TxProcess} (doCommit : Bool) :
      process.phase = .inside → process.pc = .idle →
      TxProgram nElem p memory process .call memory
        { process
          with phase := .ending doCommit, handle := process.handle.reverse }
  | releaseRW {memory : TxMemory} {process : TxProcess} {held : TxHeld}
      {handle : List TxHeld}
      {doCommit : Bool} :
      process.phase = .ending doCommit → process.pc = .idle → process.handle =
        held :: handle →
      held.lock = .readRW →
      TxProgram nElem p memory process .call memory
        { process with pc := .releaseTag }
  | releaseTag {memory : TxMemory} {process : TxProcess} {held : TxHeld}
      {handle : List TxHeld} :
      process.pc = .releaseTag → process.handle = held :: handle →
      (memory.tag held.name).fe = .rwLock → (memory.tag held.name).rw ≠ 0 →
      TxProgram nElem p memory process .access memory
        { process with pc := .releaseCas (memory.tag held.name) }
  | releaseWait {memory : TxMemory} {process : TxProcess} {held : TxHeld}
      {handle : List TxHeld} :
      process.pc = .releaseTag → process.handle = held :: handle →
      (memory.tag held.name).fe = .busy →
      TxProgram nElem p memory process .access memory process
  -- "locked but Count already 0", or "in some other state"
  | releaseFailed {memory : TxMemory} {process : TxProcess} {held : TxHeld}
      {handle : List TxHeld} :
      process.pc = .releaseTag → process.handle = held :: handle →
      (memory.tag held.name).fe ≠ .busy →
      ((memory.tag held.name).fe = .rwLock → (memory.tag held.name).rw = 0) →
      TxProgram nElem p memory process .fail memory
        { process with handle := handle, pc := .idle }
  | releaseCas {memory : TxMemory} {process : TxProcess} {held : TxHeld}
      {handle : List TxHeld}
      {oldTag : Tag} :
      process.pc = .releaseCas oldTag → process.handle = held :: handle →
      memory.tag held.name = oldTag →
      TxProgram nElem p memory process .unshared
        (memory.setTag held.name { oldTag with
          rw := oldTag.rw - 1
          fe := if oldTag.rw - 1 = 0 then .full else .rwLock })
        { process with handle := handle, pc := .idle }
  | releaseCasFailed {memory : TxMemory} {process : TxProcess} {held : TxHeld}
      {handle : List TxHeld} {oldTag : Tag} :
      process.pc = .releaseCas oldTag → process.handle = held :: handle →
      memory.tag held.name ≠ oldTag →
      TxProgram nElem p memory process .access memory
        { process with pc := .releaseTag }
  | commit {memory : TxMemory} {process : TxProcess} {held : TxHeld}
      {handle : List TxHeld} :
      process.phase = .ending true → process.pc = .idle → process.handle =
        held :: handle →
      held.lock = .readFE →
      TxProgram nElem p memory process .call memory
        { process with pc := .setLoad }
  | setLoad {memory : TxMemory} {process : TxProcess} {held : TxHeld}
      {handle : List TxHeld} :
      process.pc = .setLoad → process.handle = held :: handle →
      TxProgram nElem p memory process .access memory
        { process with pc := .setStore (memory.tag held.name) }
  | setStore {memory : TxMemory} {process : TxProcess} {held : TxHeld}
      {handle : List TxHeld}
      {tag : Tag} :
      process.pc = .setStore tag → process.handle = held :: handle →
      TxProgram nElem p memory process .access
        (memory.setTag held.name { tag with fe := .full })
        { process with handle := handle, pc := .idle }
  | abort {memory : TxMemory} {process : TxProcess} {held : TxHeld}
      {handle : List TxHeld}
      {value : EMSvalueType} :
      process.phase = .ending false → process.pc = .idle → process.handle =
        held :: handle →
      held.lock = .readFE →
      (process.python = true ∧ value = newEMSval held.value) ∨
        (process.python = false ∧ PlainValue value) →
      TxProgram nElem p memory process .call memory
        { process with pc := .awaitTag value }
  | awaitTag {memory : TxMemory} {process : TxProcess} {held : TxHeld}
      {handle : List TxHeld}
      {value : EMSvalueType} :
      process.pc = .awaitTag value → process.handle = held :: handle →
      TxProgram nElem p memory process .access memory
        { process with pc := .awaitCas value (memory.tag held.name) }
  | awaitCas {memory : TxMemory} {process : TxProcess} {held : TxHeld}
      {handle : List TxHeld}
      {value : EMSvalueType} {memTag : Tag} :
      process.pc = .awaitCas value memTag → process.handle = held :: handle →
      memory.tag held.name = { memTag with fe := .empty } →
      TxProgram nElem p memory process .access
        (memory.setTag held.name { memTag with fe := .busy })
        { process with pc := .writeTag ⟨held.name, value, some .full⟩ }
  | awaitCasFailed {memory : TxMemory} {process : TxProcess} {held : TxHeld}
      {handle : List TxHeld} {value : EMSvalueType} {memTag : Tag} :
      process.pc = .awaitCas value memTag → process.handle = held :: handle →
      memory.tag held.name ≠ { memTag with fe := .empty } →
      TxProgram nElem p memory process .access memory
        { process with pc := .awaitTag value }
  | writeTag {memory : TxMemory} {process : TxProcess} {write : TxWrite} :
      process.pc = .writeTag write →
      TxProgram nElem p memory process .access memory
        { process with pc := .writeFree write (memory.tag write.name) }
  | writeFree {memory : TxMemory} {process : TxProcess}
      {write : TxWrite} {tag : Tag}
      {ledger : Ledger} :
      process.pc = .writeFree write tag → tag.type.IsText →
      Access.account (.memFree (memory.word write.name))
        (memory.region write.name.1) =
        (.ok (), ledger) →
      TxProgram nElem p memory process .access
        (memory.setRegion write.name ledger)
        { process with pc := .writePlace write tag }
  | writeKeep {memory : TxMemory} {process : TxProcess} {write : TxWrite}
      {tag : Tag} :
      process.pc = .writeFree write tag → ¬ tag.type.IsText →
      TxProgram nElem p memory process .access memory
        { process with pc := .writePlace write tag }
  | writeWord {memory : TxMemory} {process : TxProcess} {write : TxWrite}
      {tag : Tag} :
      process.pc = .writePlace write tag → ¬ write.value.type.IsText →
      TxProgram nElem p memory process .access
        (memory.setRegion write.name { memory.region write.name.1 with
          buf :=
            (memory.region write.name.1).buf.setWord (EMSdataCell write.name.2)
            (storedWord write.value) })
        { process with pc := .writeFinish write tag }
  | writeText {memory : TxMemory} {process : TxProcess}
      {write : TxWrite} {tag : Tag}
      {address : Int} {ledger : Ledger} :
      process.pc = .writePlace write tag → write.value.type.IsText →
      Access.account (.memAlloc (write.value.length + 1))
        (memory.region write.name.1) =
        (.ok address, ledger) →
      0 ≤ address →
      TxProgram nElem p memory process .access
        (memory.setRegion write.name { ledger with
          buf := (ledger.buf.setWord (EMSdataCell write.name.2) address).setHeap
            (EMS.writeText ledger.buf.heap address write.value.text.bytes) })
        { process with pc := .writeFinish write tag }
  -- "out of memory to store string"
  | writeRefused {memory : TxMemory} {process : TxProcess}
      {write : TxWrite} {tag : Tag}
      {address : Int} {ledger : Ledger} :
      process.pc = .writePlace write tag → write.value.type.IsText →
      Access.account (.memAlloc (write.value.length + 1))
        (memory.region write.name.1) =
        (.ok address, ledger) →
      address < 0 →
      TxProgram nElem p memory process .fail
        (memory.setRegion write.name ledger)
        (process.written write)
  | writeFinish {memory : TxMemory} {process : TxProcess} {write : TxWrite}
      {tag : Tag} :
      process.pc = .writeFinish write tag →
      (write.finalFE ≠ none → memory.tag write.name =
      { tag with fe := .busy }) →
      TxProgram nElem p memory process
        (if write.finalFE = none then .access else .restored)
        (memory.setTag write.name (write.finalTag tag)) (process.written write)
  -- "Lost tag lock while BUSY"
  | writeLost {memory : TxMemory} {process : TxProcess} {write : TxWrite}
      {tag : Tag} :
      process.pc = .writeFinish write tag → write.finalFE ≠ none →
      memory.tag write.name ≠ { tag with fe := .busy } →
      TxProgram nElem p memory process .fail memory (process.written write)
  | ended {memory : TxMemory} {process : TxProcess} {doCommit : Bool} :
      process.phase = .ending doCommit → process.pc = .idle →
        process.handle = [] →
      TxProgram nElem p memory process .call memory
        { process with phase := .outside }

abbrev TxConfig (N : Nat) := Config (Fin N) TxMemory TxProcess

/-- Any process takes any of its steps. -/
def TxStep (nElem : Nat → Nat) (config : TxConfig N) (label : Fin N × TxAct)
    (next : TxConfig N) :
    Prop :=
  Step (TxProgram nElem) config label next

/-- The allocator does not refuse what the process asks it for next. -/
def TxServed (config : TxConfig N) (p : Fin N) : Prop :=
  ∀ write tag, (config.control p).pc = .writePlace write tag →
    write.value.type.IsText →
    Serves (config.shared.region write.name.1).buf.mem (write.value.length + 1)

/-- As `TxStep`, where the allocator refuses nothing. -/
def ServedStep (nElem : Nat → Nat) (config : TxConfig N) (label : Fin N × TxAct)
    (next : TxConfig N) : Prop :=
  TxServed config label.1 ∧ TxStep nElem config label next

/-- Nobody has started a transaction yet. -/
def initialTx (N : Nat) (memory : TxMemory) : TxConfig N :=
  ⟨memory, fun _ => ⟨true, .outside, [], [], .idle⟩⟩

/-- The elements are full and of plain values, which take up the heap with what
is kept besides. -/
structure InitialTx (nElem : Nat → Nat) (level : Nat → Nat)
    (kept : Nat → Multiset Block)
    (memory : TxMemory) : Prop where
  holds : ∀ r, ∃ store,
    StoreHolds ⟨nElem r, false⟩ (level r) (kept r) store (memory.region r) ∧
    ∀ i : Nat, i < nElem r → PlainValue (store i)
  full : ∀ name : ElementName, name.2 < nElem name.1 →
    (memory.tag name).fe = .full ∧ (memory.tag name).rw = 0
  small : ∀ r, EMS_MEM_BLOCKSZ * 2 ^ level r < 2 ^ 63

/-! ## The promise -/

/-- How often the handle names the element under the lock. -/
def TxProcess.count (name : ElementName) (lock : TmLock)
    (process : TxProcess) : Nat :=
  process.handle.countP fun held => held.name = name ∧ held.lock = lock

/-- The process is about to read what it has locked, or to store the tag of
it. -/
def TxPc.isLocking : TxPc → Bool
  | .readData _ | .readStore _ _ => true
  | _ => false

/-- The process can take a step in which it does not stand still. -/
def CanMove (step : TxConfig N → Fin N × TxAct → TxConfig N → Prop)
    (config : TxConfig N)
    (p : Fin N) : Prop :=
  ∃ act next, step config (p, act) next ∧ next.control p ≠ config.control p

/-- What an abort promises, of a state and the steps from it. -/
structure RollsBack (nElem : Nat → Nat)
    (step : TxConfig N → Fin N × TxAct → TxConfig N → Prop)
    (config : TxConfig N) : Prop where
  /-- It does not wait, but for a process in the middle of locking the
  element. -/
  moves : ∀ p, (config.control p).phase = .ending false →
    CanMove (TxStep nElem) config p ∨
      ∃ q held rest other others, q ≠ p ∧ (config.control p).handle =
        held :: rest ∧
        (config.control q).handle = other :: others ∧ other.name = held.name ∧
        (config.control q).pc.isLocking = true ∧ CanMove (TxStep nElem) config q
  /-- No call fails. -/
  succeeds : ∀ p next, (config.control p).phase = .ending false →
    ¬ step config (p, .fail) next
  /-- What is released is full and as it was when it was locked. -/
  restores : ∀ p held rest next, (config.control p).python = true →
    (config.control p).handle = held :: rest → step config (p, .restored) next →
    (next.shared.tag held.name).fe = .full ∧
      ∃ value, held.locked.Is value ∧ (next.shared.shown held.name).Is value
  /-- A shared lock is given back once, and the value has not changed. -/
  unshares : ∀ p held rest next, (config.control p).handle = held :: rest →
    step config (p, .unshared) next →
    (config.shared.tag held.name).rw.val =
      (next.shared.tag held.name).rw.val + 1 ∧
      (next.control p).handle = rest ∧
      ∃ value, held.locked.Is value ∧ (next.shared.shown held.name).Is value
  /-- The readers that are counted are those that hold the lock. -/
  counts : ∀ name : ElementName, name.2 < nElem name.1 →
    (config.shared.tag name).rw.val =
      tally (TxProcess.count name .readRW) config.control

end Program

end EMS
