import EMS.WriteStages

/-!
# What holds while transactions run

The tag of an element tells how it is locked and whether a process is between
two accesses of which the first has made it BUSY.  What a process remembers of
an element that it has locked is still so, since nobody else gets at it.
-/

namespace EMS

open SharedProgram Interleaving BulkSynchronous

/-! ## Tags -/

/-- How many exclusive and shared locks there may be, and how many processes
that have made the element BUSY. -/
def FE.Allows (exclusive shared busy : Nat) : FE → Prop
  | .full => exclusive = 0 ∧ shared = 0 ∧ busy = 0
  | .empty => exclusive = 1 ∧ shared = 0 ∧ busy = 0
  | .rwLock => exclusive = 0 ∧ shared ≠ 0 ∧ busy = 0
  | .busy =>
      busy = 1 ∧ ((exclusive = 1 ∧ shared = 0) ∨ (exclusive = 0 ∧ shared ≠ 0))

structure TagOwned (tag : Tag) (exclusive shared busy : Nat) : Prop where
  readers : tag.rw.val = shared
  state : tag.fe.Allows exclusive shared busy

/-- A tag that `EMSreadUsingTags` acquires an element from. -/
def TmLock.Takes (lock : TmLock) (memTag : Tag) : Prop :=
  match lock with
  | .readRW => (memTag.fe = .full ∨ memTag.fe = .rwLock) ∧ memTag.rw < 7
  | .readFE => memTag.fe = .full

theorem TmLock.takes {lock : TmLock} {memTag newTag : Tag}
    (may : mayRead (some lock.initialFE) memTag newTag = true) :
    lock.Takes memTag := by
  cases lock with
  | readFE => simpa [mayRead, TmLock.initialFE, TmLock.Takes] using may
  | readRW =>
      simp only [mayRead, TmLock.initialFE, decide_eq_true_eq] at may
      obtain ⟨either, below⟩ := may
      refine ⟨?_, below⟩
      rcases either with ⟨shared, -⟩ | full
      · exact .inr shared
      · exact .inl full

theorem TmLock.Takes.oldTag {lock : TmLock} {memTag : Tag}
    (takes : lock.Takes memTag) :
    lock.oldTag memTag = memTag := by
  cases lock with
  | readRW => rfl
  | readFE =>
      obtain ⟨fe, type, rw⟩ := memTag
      obtain rfl : fe = .full := takes
      rfl

namespace TagOwned

variable {tag : Tag} {exclusive shared busy : Nat}

/-- An element that is to be taken is held by nobody, or shared. -/
theorem free (owned : TagOwned tag exclusive shared busy) {lock : TmLock}
    (takes : lock.Takes tag) : exclusive = 0 ∧ busy = 0 := by
  obtain ⟨-, state⟩ := owned
  cases lock with
  | readFE =>
      have full : tag.fe = .full := takes
      rw [full] at state
      exact ⟨state.1, state.2.2⟩
  | readRW =>
      rcases takes.1 with full | rwLock
      · rw [full] at state
        exact ⟨state.1, state.2.2⟩
      · rw [rwLock] at state
        exact ⟨state.1, state.2.2⟩

theorem takeExclusive (owned : TagOwned tag exclusive shared busy)
    (takes : TmLock.readFE.Takes tag) :
    TagOwned (TmLock.readFE.newTag tag) (exclusive + 1) shared (busy + 1) := by
  obtain ⟨readers, state⟩ := owned
  have full : tag.fe = .full := takes
  rw [full] at state
  obtain ⟨rfl, rfl, rfl⟩ := state
  exact ⟨readers, rfl, .inl ⟨rfl, rfl⟩⟩

theorem takeShared (owned : TagOwned tag exclusive shared busy)
    (takes : TmLock.readRW.Takes tag) :
    TagOwned (TmLock.readRW.newTag tag) exclusive (shared + 1) (busy + 1) := by
  obtain ⟨rfl, rfl⟩ := owned.free takes
  obtain ⟨readers, -⟩ := owned
  have below : tag.rw.val < 7 := takes.2
  refine ⟨?_, rfl, .inr ⟨rfl, shared.succ_ne_zero⟩⟩
  simp only [TmLock.newTag, Fin.val_add]
  rw [← readers]
  exact Nat.mod_eq_of_lt (Nat.succ_lt_succ below)

/-- The second store of the process that has made the element BUSY. -/
theorem settle (owned : TagOwned tag exclusive shared (busy + 1))
    {lock : TmLock}
    (exclusively : lock = .readFE → exclusive ≠ 0)
    (sharing : lock = .readRW → shared ≠ 0) :
    TagOwned { tag with fe := lock.finalFE } exclusive shared busy := by
  obtain ⟨readers, state⟩ := owned
  refine ⟨readers, ?_⟩
  cases fe : tag.fe with
  | full =>
      rw [fe] at state
      exact absurd state.2.2 busy.succ_ne_zero
  | empty =>
      rw [fe] at state
      exact absurd state.2.2 busy.succ_ne_zero
  | rwLock =>
      rw [fe] at state
      exact absurd state.2.2 busy.succ_ne_zero
  | busy =>
      rw [fe] at state
      obtain ⟨one, either⟩ := state
      cases lock with
      | readFE =>
          have held := exclusively rfl
          rcases either with ⟨rfl, rfl⟩ | ⟨rfl, -⟩
          · exact ⟨rfl, rfl, Nat.succ.inj one⟩
          · exact absurd rfl held
      | readRW =>
          have held := sharing rfl
          rcases either with ⟨-, rfl⟩ | ⟨rfl, some⟩
          · exact absurd rfl held
          · exact ⟨rfl, some, Nat.succ.inj one⟩

/-- A shared lock is given back. -/
theorem unshare (owned : TagOwned tag exclusive (shared + 1) busy)
    (rwLock : tag.fe = .rwLock) :
    TagOwned { tag with rw := tag.rw - 1, fe := if tag.rw - 1 = 0 then .full
      else .rwLock }
      exclusive shared busy ∧ (tag.rw - 1).val = shared := by
  obtain ⟨readers, state⟩ := owned
  rw [rwLock] at state
  obtain ⟨rfl, -, rfl⟩ := state
  have rest : (tag.rw - 1).val = shared := by
    have bounded := tag.rw.isLt
    simp only [Fin.sub_def]
    rw [readers]
    simp only [Fin.val_one]
    omega
  refine ⟨⟨rest, ?_⟩, rest⟩
  by_cases zero : tag.rw - 1 = 0
  · simp only [zero, if_true]
    rw [zero] at rest
    exact ⟨rfl, rest.symm, rfl⟩
  · simp only [zero, if_false]
    refine ⟨rfl, ?_, rfl⟩
    rintro rfl
    exact zero (Fin.ext rest)

/-- An exclusive lock is given back. -/
theorem release (owned : TagOwned tag (exclusive + 1) shared busy)
    (empty : tag.fe = .empty) :
    TagOwned { tag with fe := .full } exclusive shared busy := by
  obtain ⟨readers, state⟩ := owned
  rw [empty] at state
  exact ⟨readers, Nat.succ.inj state.1, state.2.1, state.2.2⟩

/-- The owner of an element makes it BUSY. -/
theorem block (owned : TagOwned tag exclusive shared busy)
    (empty : tag.fe = .empty) :
    TagOwned { tag with fe := .busy } exclusive shared (busy + 1) := by
  obtain ⟨readers, state⟩ := owned
  rw [empty] at state
  obtain ⟨rfl, rfl, rfl⟩ := state
  exact ⟨readers, rfl, .inl ⟨rfl, rfl⟩⟩

/-- An exclusive lock is given back with the store that ends a write. -/
theorem finish (owned : TagOwned tag (exclusive + 1) shared (busy + 1))
    (type : EMSType) :
    TagOwned ⟨.full, type, 0⟩ exclusive shared busy := by
  obtain ⟨-, state⟩ := owned
  cases fe : tag.fe with
  | full | empty | rwLock =>
      rw [fe] at state
      exact absurd state.2.2 busy.succ_ne_zero
  | busy =>
      rw [fe] at state
      obtain ⟨one, either⟩ := state
      rcases either with ⟨first, rfl⟩ | ⟨zero, -⟩
      · exact ⟨rfl, Nat.succ.inj first, rfl, Nat.succ.inj one⟩
      · exact absurd zero exclusive.succ_ne_zero

/-- The only exclusive lock, with nobody who shares the element. -/
theorem alone (owned : TagOwned tag exclusive shared busy)
    (held : exclusive ≠ 0) :
    exclusive = 1 ∧ shared = 0 ∧ (busy = 0 → tag.fe = .empty) ∧
      (busy ≠ 0 → tag.fe = .busy) := by
  obtain ⟨-, state⟩ := owned
  cases fe : tag.fe with
  | full =>
      rw [fe] at state
      exact absurd state.1 held
  | empty =>
      rw [fe] at state
      exact ⟨state.1, state.2.1, fun _ => rfl,
        fun wrong => absurd state.2.2 wrong⟩
  | rwLock =>
      rw [fe] at state
      exact absurd state.1 held
  | busy =>
      rw [fe] at state
      obtain ⟨one, either⟩ := state
      rcases either with ⟨exclusively, none⟩ | ⟨zero, -⟩
      · refine ⟨exclusively, none, ?_, fun _ => rfl⟩
        intro zero
        rw [zero] at one
        cases one
      · exact absurd zero held

theorem shares (owned : TagOwned tag exclusive shared busy)
    (held : shared ≠ 0) :
    exclusive = 0 ∧ (tag.fe = .rwLock ∧ busy = 0 ∨ tag.fe = .busy ∧
      busy = 1) := by
  obtain ⟨-, state⟩ := owned
  cases fe : tag.fe with
  | full =>
      rw [fe] at state
      exact absurd state.2.1 held
  | empty =>
      rw [fe] at state
      exact absurd state.2.1 held
  | rwLock =>
      rw [fe] at state
      exact ⟨state.1, .inl ⟨rfl, state.2.2⟩⟩
  | busy =>
      rw [fe] at state
      obtain ⟨one, either⟩ := state
      rcases either with ⟨-, none⟩ | ⟨zero, -⟩
      · exact absurd none held
      · exact ⟨zero, .inr ⟨rfl, one⟩⟩

end TagOwned

/-! ## Processes -/

/-- The process has not got the value of the last element that it has locked. -/
def TxPc.isReading : TxPc → Bool
  | .readData _ | .readStore _ _ | .fetch _ _ => true
  | _ => false

/-- The element that is between its old value and its new one. -/
def TxPc.rewriting : TxPc → Option ElementName
  | .writePlace write _ | .writeFinish write _ => some write.name
  | _ => none

/-- The element that a write has made BUSY. -/
def TxPc.writing : TxPc → Option ElementName
  | .writeTag write | .writeFree write _ | .writePlace write _ |
    .writeFinish write _ =>
      if write.finalFE = none then none else some write.name
  | _ => none

/-- The value that was locked has come back to Python as it was. -/
def TxHeld.Fetched (held : TxHeld) : Prop :=
  ∃ value, held.locked.Is value ∧ SameContent (newEMSval held.value) value ∧
    PlainValue (newEMSval held.value)

namespace TxProcess

variable (process : TxProcess) (name : ElementName)

/-- The elements that the process has locked. -/
def Holds : Prop := ∃ held ∈ process.handle, held.name = name

/-- The element that the process has made BUSY. -/
def busy : Option ElementName :=
  if process.pc.isLocking then process.handle.head?.map TxHeld.name
    else process.pc.writing

/-- Nobody else changes the tag of the element. -/
def Minds : Prop := process.busy = some name ∨ 0 < process.count name .readFE

/-- The entries with the values that were read of them. -/
def fetched : List TxHeld :=
  if process.pc.isReading then process.handle.tail else process.handle

/-- What an abort writes is what was found. -/
def WritesBack (held : TxHeld) (value : EMSvalueType) : Prop :=
  PlainValue value ∧
    (process.python = true → ∃ locked, held.locked.Is locked ∧
      SameContent value locked)

/-- The write is one of a transaction to what it has locked exclusively, or of
an abort. -/
structure Writes (write : TxWrite) : Prop where
  plain : PlainValue write.value
  held : 0 < process.count write.name .readFE
  purpose : (write.finalFE = none ∧ process.phase = .inside) ∨
    (write.finalFE = some .full ∧ process.phase = .ending false ∧
      ∃ held, process.handle.head? = some held ∧ held.name = write.name ∧
        held.lock = .readFE ∧ process.WritesBack held write.value)

/-- What has just been locked. -/
structure Locked (fill : ElementName → Filling) (held : TxHeld)
    (value : EMSvalueType) : Prop where
  starting : process.phase = .starting
  head : process.handle.head? = some held
  settled : fill held.name = .settled value
  found : held.locked.Is value

/-- What is to be done with the first entry of the handle. -/
structure Ends (lock : TmLock) (held : TxHeld) : Prop where
  ending : ∃ doCommit, process.phase = .ending doCommit
  head : process.handle.head? = some held
  mode : held.lock = lock

end TxProcess

/-- Whether the process has made the element BUSY, as a number. -/
def TxProcess.busyCount (name : ElementName) (process : TxProcess) : Nat :=
  if process.busy = some name then 1 else 0

/-- What a process knows before its next access. -/
def TxPc.Sound (fill : ElementName → Filling) (memory : TxMemory)
    (process : TxProcess) :
    TxPc → Prop
  | .idle => True
  | .readTag => process.phase = .starting ∧ process.pending ≠ []
  | .readCas memTag => process.phase = .starting ∧
      ∃ lock, process.pending.head? = some lock ∧ lock.2.Takes memTag
  | .readData newTag => ∃ held value, process.Locked fill held value ∧
      newTag = memory.tag held.name
  | .readStore newTag word => ∃ held value, process.Locked fill held value ∧
      newTag = memory.tag held.name ∧ word = memory.word held.name
  | .fetch type word => ∃ held value, process.Locked fill held value ∧
      type = value.type ∧ word = memory.word held.name
  | .releaseTag => ∃ held, process.Ends .readRW held
  | .releaseCas oldTag => ∃ held, process.Ends .readRW held ∧
        oldTag.fe = .rwLock
  | .setLoad => process.phase = .ending true ∧ ∃ held, process.Ends .readFE held
  | .setStore tag => process.phase = .ending true ∧ ∃ held,
        process.Ends .readFE held ∧
      tag = memory.tag held.name
  | .awaitTag value => process.phase = .ending false ∧ ∃ held,
        process.Ends .readFE held ∧
      process.WritesBack held value
  | .awaitCas value memTag => process.phase = .ending false ∧ ∃ held,
        process.Ends .readFE held ∧
      process.WritesBack held value ∧ memTag = memory.tag held.name
  | .writeTag write => process.Writes write
  | .writeFree write tag => process.Writes write ∧ tag = memory.tag write.name
  | .writePlace write tag =>
      process.Writes write ∧ tag = memory.tag write.name ∧
      fill write.name = .freed
  | .writeFinish write tag =>
      process.Writes write ∧ tag = memory.tag write.name ∧
      fill write.name = .placed write.value

structure TxProcess.Sound (nElem : Nat → Nat) (fill : ElementName → Filling)
    (memory : TxMemory)
    (process : TxProcess) : Prop where
  names : (process.handle.map TxHeld.name ++ process.pending.map Prod.fst).Nodup
  range : ∀ name ∈ process.handle.map TxHeld.name ++
    process.pending.map Prod.fst,
    name.2 < nElem name.1
  pending : process.phase ≠ .starting → process.pending = []
  outside : process.phase = .outside → process.pc = .idle ∧ process.handle = []
  shared : ∀ held ∈ process.handle, held.lock = .readRW →
    ∃ value, fill held.name = .settled value ∧ held.locked.Is value
  exclusive : ∀ held ∈ process.handle, held.lock = .readFE →
    process.pc.rewriting = some held.name ∨ ∃ value,
      fill held.name = .settled value
  fetched : ∀ held ∈ process.fetched, held.Fetched
  next : process.pc.Sound fill memory process

namespace TxProcess

variable {nElem : Nat → Nat} {fill fill' : ElementName → Filling}
  {memory memory' : TxMemory}
  {process : TxProcess} {name : ElementName} {held : TxHeld}

theorem count_pos {lock : TmLock} :
    0 < process.count name lock ↔ ∃ held ∈ process.handle, held.name = name ∧
      held.lock = lock := by
  simp [TxProcess.count, List.countP_pos_iff]

theorem head_mem (head : process.handle.head? = some held) :
    held ∈ process.handle :=
  List.mem_of_mem_head? head

theorem head_count (head : process.handle.head? = some held) :
    0 < process.count held.name held.lock :=
  count_pos.mpr ⟨held, head_mem head, rfl, rfl⟩

theorem holds_of_count {lock : TmLock} (held : 0 < process.count name lock) :
    process.Holds name := by
  obtain ⟨held, member, here, -⟩ := count_pos.mp held
  exact ⟨held, member, here⟩

theorem count_of_holds (holds : process.Holds name) :
    0 < process.count name .readFE ∨ 0 < process.count name .readRW := by
  obtain ⟨held, member, here⟩ := holds
  cases mode : held.lock with
  | readFE => exact .inl (count_pos.mpr ⟨held, member, here, mode⟩)
  | readRW => exact .inr (count_pos.mpr ⟨held, member, here, mode⟩)

/-- What the process has made BUSY it has locked. -/
theorem Sound.holds_busy (sound : process.Sound nElem fill memory)
    (busy : process.busy = some name) : process.Holds name := by
  have known := sound.next
  cases here : process.pc with
  | readData newTag =>
      rw [here] at known
      obtain ⟨held, value, locked, -⟩ := known
      simp only [TxProcess.busy, here, TxPc.isLocking, locked.head, if_true,
        Option.map_some,
        Option.some.injEq] at busy
      exact ⟨held, head_mem locked.head, busy⟩
  | readStore newTag word =>
      rw [here] at known
      obtain ⟨held, value, locked, -⟩ := known
      simp only [TxProcess.busy, here, TxPc.isLocking, locked.head, if_true,
        Option.map_some,
        Option.some.injEq] at busy
      exact ⟨held, head_mem locked.head, busy⟩
  | writeTag write =>
      rw [here] at known
      simp [TxProcess.busy, here, TxPc.isLocking, TxPc.writing] at busy
      exact busy.2 ▸ holds_of_count known.held
  | writeFree write tag | writePlace write tag | writeFinish write tag =>
      rw [here] at known
      simp [TxProcess.busy, here, TxPc.isLocking, TxPc.writing] at busy
      exact busy.2 ▸ holds_of_count known.1.held
  | _ => simp [TxProcess.busy, here, TxPc.isLocking, TxPc.writing] at busy

/-- Others leave alone what a process goes by. -/
theorem Sound.frame (sound : process.Sound nElem fill memory)
    (tags : ∀ name, process.Minds name → memory'.tag name = memory.tag name)
    (words : ∀ name, process.Holds name → memory'.word name = memory.word name)
    (fills : ∀ name, process.Holds name → fill' name = fill name) :
    process.Sound nElem fill' memory' := by
  have filled : ∀ held ∈ process.handle, fill' held.name = fill held.name :=
    fun held member => fills held.name ⟨held, member, rfl⟩
  have locked : ∀ held value, process.Locked fill held value →
      process.Locked fill' held value :=
    fun held value ⟨starting, head, settled, found⟩ =>
      ⟨starting, head, (filled held (head_mem head)).trans settled, found⟩
  have word : ∀ held value, process.Locked fill held value →
      memory'.word held.name = memory.word held.name :=
    fun held value known => words held.name ⟨held, head_mem known.head, rfl⟩
  have ended : ∀ held, process.Ends .readFE held → memory'.tag held.name =
      memory.tag held.name := by
    intro held known
    exact tags held.name (.inr (known.mode ▸ head_count known.head))
  have written : ∀ write, process.Writes write →
      memory'.tag write.name = memory.tag write.name ∧
        fill' write.name = fill write.name :=
    fun write known => ⟨tags write.name (.inr known.held),
      fills write.name (holds_of_count known.held)⟩
  refine { sound with shared := ?_, exclusive := ?_, next := ?_ }
  · intro held member mode
    rw [filled held member]
    exact sound.shared held member mode
  · intro held member mode
    rw [filled held member]
    exact sound.exclusive held member mode
  · have known := sound.next
    cases here : process.pc with
    | idle => trivial
    | readTag | readCas memTag | releaseTag | releaseCas oldTag | setLoad | awaitTag value
    | writeTag write =>
        rw [here] at known
        exact known
    | readData newTag =>
        rw [here] at known
        obtain ⟨held, value, known, tag⟩ := known
        have busy : process.busy = some held.name := by
          simp [TxProcess.busy, here, TxPc.isLocking, known.head]
        exact ⟨held, value, locked held value known,
          tag.trans (tags held.name (.inl busy)).symm⟩
    | readStore newTag word' =>
        rw [here] at known
        obtain ⟨held, value, known, tag, loaded⟩ := known
        have busy : process.busy = some held.name := by
          simp [TxProcess.busy, here, TxPc.isLocking, known.head]
        exact ⟨held, value, locked held value known,
          tag.trans (tags held.name (.inl busy)).symm,
          loaded.trans (word held value known).symm⟩
    | fetch type word' =>
        rw [here] at known
        obtain ⟨held, value, known, typed, loaded⟩ := known
        exact ⟨held, value, locked held value known, typed,
          loaded.trans (word held value known).symm⟩
    | setStore tag =>
        rw [here] at known
        obtain ⟨commits, held, known, loaded⟩ := known
        exact ⟨commits, held, known, loaded.trans (ended held known).symm⟩
    | awaitCas value memTag =>
        rw [here] at known
        obtain ⟨aborts, held, known, back, loaded⟩ := known
        exact ⟨aborts, held, known, back, loaded.trans (ended held known).symm⟩
    | writeFree write tag =>
        rw [here] at known
        obtain ⟨known, loaded⟩ := known
        exact ⟨known, loaded.trans (written write known).1.symm⟩
    | writePlace write tag =>
        rw [here] at known
        obtain ⟨known, loaded, freed⟩ := known
        exact ⟨known, loaded.trans (written write known).1.symm,
          (written write known).2.trans freed⟩
    | writeFinish write tag =>
        rw [here] at known
        obtain ⟨known, loaded, placed⟩ := known
        exact ⟨known, loaded.trans (written write known).1.symm,
          (written write known).2.trans placed⟩

theorem Sound.goto (sound : process.Sound nElem fill memory) {pc : TxPc}
    (reading : pc.isReading = process.pc.isReading)
    (rewriting : pc.rewriting = process.pc.rewriting)
    (active : process.phase ≠ .outside)
    (next : pc.Sound fill memory' { process with pc := pc }) :
    ({ process with pc := pc } : TxProcess).Sound nElem fill memory' := by
  refine ⟨sound.names, sound.range, sound.pending,
    fun outside => absurd outside active,
    sound.shared, ?_, ?_, next⟩
  · intro held member mode
    simp only [rewriting]
    exact sound.exclusive held member mode
  · have same := sound.fetched
    simp only [TxProcess.fetched, reading] at same ⊢
    exact same

theorem Sound.active (sound : process.Sound nElem fill memory)
    (going : process.pc ≠ .idle) :
    process.phase ≠ .outside :=
  fun outside => going (sound.outside outside).1

theorem Sound.dropHead (sound : process.Sound nElem fill memory)
    {handle : List TxHeld}
    (split : process.handle = held :: handle)
    (calm : process.pc.isReading = false)
    (rewriting : ∀ other ∈ handle, process.pc.rewriting ≠ some other.name)
    (active : process.phase ≠ .outside) :
    ({ process with handle := handle, pc := .idle } : TxProcess).Sound nElem
      fill memory' := by
  obtain ⟨names, range, pending, -, shared, exclusive, fetched, -⟩ := sound
  simp only [split, List.map_cons, List.cons_append] at names range
  simp only [TxProcess.fetched, calm, split, Bool.false_eq_true,
    if_false] at fetched
  rw [split] at shared exclusive
  refine ⟨(List.nodup_cons.mp names).2,
    fun name member => range name (.tail _ member), pending,
    fun outside => absurd outside active,
    fun other member => shared other (.tail _ member), ?_,
    fun other member => fetched other (.tail _ member), trivial⟩
  intro other member mode
  right
  rcases exclusive other (.tail _ member) mode with wrong | settled
  · exact absurd wrong (rewriting other member)
  · exact settled

end TxProcess

/-! ## Runs -/

section Runs

variable {N : Nat} {nElem level : Nat → Nat} {kept : Nat → Multiset Block}
  {fill fill' : ElementName → Filling} {config : TxConfig N}

/-- Every element is accounted for, is locked as its tag tells, and every
process is in order. -/
structure TxSound (nElem level : Nat → Nat) (kept : Nat → Multiset Block)
    (fill : ElementName → Filling) (config : TxConfig N) : Prop where
  holds : TxHolds nElem level kept fill config.shared
  owned : ∀ name : ElementName, name.2 < nElem name.1 →
    TagOwned (config.shared.tag name)
      (tally (TxProcess.count name .readFE) config.control)
      (tally (TxProcess.count name .readRW) config.control)
      (tally (TxProcess.busyCount name) config.control)
  settled : ∀ name : ElementName, name.2 < nElem name.1 →
    tally (TxProcess.count name .readFE) config.control = 0 → ∃ value,
      fill name = .settled value
  sound : ∀ p, (config.control p).Sound nElem fill config.shared

variable {p q : Fin N} {name : ElementName} {process' : TxProcess}

theorem TxProcess.busyCount_pos {process : TxProcess}
    (busy : process.busy = some name) :
    process.busyCount name = 1 := by
  simp [TxProcess.busyCount, busy]

theorem TxProcess.not_minds
    (exclusive : tally (TxProcess.count name .readFE) config.control = 0)
    (busy : tally (TxProcess.busyCount name) config.control = 0) :
    ¬ (config.control q).Minds name := by
  rintro (locking | held)
  · have counted := le_tally (TxProcess.busyCount name) config.control q
    rw [TxProcess.busyCount_pos locking, busy] at counted
    exact absurd counted (by decide)
  · have counted := le_tally (TxProcess.count name .readFE) config.control q
    rw [exclusive] at counted
    exact absurd (Nat.le_zero.mp counted) held.ne'

theorem TxSound.alone (invariant : TxSound nElem level kept fill config)
    (below : name.2 < nElem name.1)
    (held : 0 < (config.control p).count name .readFE)
    (other : q ≠ p) : ¬ (config.control q).Holds name := by
  have counted := le_tally (TxProcess.count name .readFE) config.control p
  obtain ⟨one, none, -⟩ := (invariant.owned name below).alone (by omega)
  intro holds
  rcases TxProcess.count_of_holds holds with exclusive | shared
  · have both :=
      add_le_tally (TxProcess.count name .readFE) config.control other.symm
    omega
  · have counted' := le_tally (TxProcess.count name .readRW) config.control q
    omega

theorem TxSound.range (invariant : TxSound nElem level kept fill config)
    (holds : (config.control p).Holds name) : name.2 < nElem name.1 := by
  obtain ⟨held, member, rfl⟩ := holds
  exact (invariant.sound p).range held.name
    (List.mem_append_left _ (List.mem_map.mpr ⟨held, member, rfl⟩))

theorem TxSound.alone_minds (invariant : TxSound nElem level kept fill config)
    (held : 0 < (config.control p).count name .readFE) (other : q ≠ p) :
    ¬ (config.control q).Minds name := by
  have below := invariant.range (TxProcess.holds_of_count held)
  have apart := invariant.alone below held other
  rintro (busy | counted)
  · exact apart ((invariant.sound q).holds_busy busy)
  · exact apart (TxProcess.holds_of_count counted)

theorem TxSound.busy_minds (invariant : TxSound nElem level kept fill config)
    (busy : (config.control p).busy = some name) (other : q ≠ p) :
    ¬ (config.control q).Minds name := by
  have below := invariant.range ((invariant.sound p).holds_busy busy)
  have owned := invariant.owned name below
  rintro (busy' | held)
  · have both := add_le_tally (TxProcess.busyCount name) config.control other
    rw [TxProcess.busyCount_pos busy, TxProcess.busyCount_pos busy'] at both
    have state := owned.state
    cases fe : (config.shared.tag name).fe <;> rw [fe] at state <;>
      simp only [FE.Allows] at state <;>
      omega
  · exact invariant.alone below held other.symm
      ((invariant.sound p).holds_busy busy)

/-- What one process has locked exclusively is empty, unless that process writes
it back. -/
theorem TxSound.empty (invariant : TxSound nElem level kept fill config)
    (held : 0 < (config.control p).count name .readFE)
    (calm : (config.control p).busy ≠ some name) :
    (config.shared.tag name).fe = .empty := by
  have below := invariant.range (TxProcess.holds_of_count held)
  have counted := le_tally (TxProcess.count name .readFE) config.control p
  obtain ⟨-, -, empty, -⟩ := (invariant.owned name below).alone (by omega)
  apply empty
  apply tally_zero
  intro q
  rw [TxProcess.busyCount, if_neg]
  intro busy
  by_cases same : q = p
  · subst same
    exact calm busy
  · exact invariant.alone below held same ((invariant.sound q).holds_busy busy)

/-- A step that is seen by nobody else. -/
theorem TxSound.silent (invariant : TxSound nElem level kept fill config)
    (counts : ∀ name lock,
      process'.count name lock = (config.control p).count name lock)
    (busy : process'.busy = (config.control p).busy)
    (sound : process'.Sound nElem fill config.shared) :
    TxSound nElem level kept fill
      ⟨config.shared, Function.update config.control p process'⟩ := by
  have exclusive : ∀ name lock,
      tally (TxProcess.count name lock)
        (Function.update config.control p process') =
        tally (TxProcess.count name lock) config.control :=
    fun name lock => tally_update_same (counts name lock)
  have locking : ∀ name,
      tally (TxProcess.busyCount name)
        (Function.update config.control p process') =
        tally (TxProcess.busyCount name) config.control := by
    intro name
    apply tally_update_same
    simp only [TxProcess.busyCount, busy]
  refine ⟨invariant.holds, ?_, ?_, ?_⟩
  · intro name below
    simp only [exclusive, locking]
    exact invariant.owned name below
  · intro name below
    simp only [exclusive]
    exact invariant.settled name below
  · intro q
    by_cases same : q = p
    · subst same
      simpa using sound
    · simpa [same] using invariant.sound q

/-- A step that touches one element. -/
theorem TxSound.touch (invariant : TxSound nElem level kept fill config)
    {memory' : TxMemory}
    (holds : TxHolds nElem level kept fill' memory')
    (tags : ∀ other, other ≠ name → memory'.tag other = config.shared.tag other)
    (words : ∀ other, other ≠ name → memory'.word other =
      config.shared.word other)
    (fills : ∀ other, other ≠ name → fill' other = fill other)
    (counts : ∀ other, other ≠ name → ∀ lock,
      process'.count other lock = (config.control p).count other lock)
    (busy : ∀ other, other ≠ name →
      process'.busyCount other = (config.control p).busyCount other)
    (owned : ∀ exclusive shared busy, TagOwned (config.shared.tag name)
        (exclusive + (config.control p).count name .readFE)
        (shared + (config.control p).count name .readRW)
        (busy + (config.control p).busyCount name) →
      TagOwned (memory'.tag name) (exclusive + process'.count name .readFE)
        (shared + process'.count name .readRW) (busy + process'.busyCount name))
    (settled : process'.count name .readFE = 0 → ∃ value,
      fill' name = .settled value)
    (minded : ∀ q, q ≠ p → (config.control q).Minds name →
      memory'.tag name = config.shared.tag name)
    (held : ∀ q, q ≠ p → (config.control q).Holds name →
      memory'.word name = config.shared.word name ∧ fill' name = fill name)
    (sound : process'.Sound nElem fill' memory') :
    TxSound nElem level kept fill'
      ⟨memory', Function.update config.control p process'⟩ := by
  have counted : ∀ other, other ≠ name → ∀ lock,
      tally (TxProcess.count other lock)
        (Function.update config.control p process') =
        tally (TxProcess.count other lock) config.control :=
    fun other different lock => tally_update_same (counts other different lock)
  have locking : ∀ other, other ≠ name →
      tally (TxProcess.busyCount other)
        (Function.update config.control p process') =
        tally (TxProcess.busyCount other) config.control :=
    fun other different => tally_update_same (busy other different)
  refine ⟨holds, ?_, ?_, ?_⟩
  · intro other below
    by_cases same : other = name
    · subst same
      obtain ⟨exclusive, before, after⟩ :=
        tally_others (TxProcess.count other .readFE) config.control p
      obtain ⟨shared, before', after'⟩ :=
        tally_others (TxProcess.count other .readRW) config.control p
      obtain ⟨busy, before'', after''⟩ :=
        tally_others (TxProcess.busyCount other) config.control p
      have here := invariant.owned other below
      rw [before, before', before''] at here
      simp only [after, after', after'']
      exact owned exclusive shared busy here
    · simp only [counted other same, locking other same, tags other same]
      exact invariant.owned other below
  · intro other below
    by_cases same : other = name
    · subst same
      obtain ⟨exclusive, -, after⟩ :=
        tally_others (TxProcess.count other .readFE) config.control p
      simp only [after]
      exact fun none => settled (Nat.eq_zero_of_add_eq_zero_left none)
    · simp only [counted other same, fills other same]
      exact invariant.settled other below
  · intro q
    by_cases same : q = p
    · subst same
      simpa using sound
    · simp only [Function.update_of_ne same]
      apply (invariant.sound q).frame
      · intro other minds
        by_cases here : other = name
        · subst here
          exact minded q same minds
        · exact tags other here
      · intro other holds
        by_cases here : other = name
        · subst here
          exact (held q same holds).1
        · exact words other here
      · intro other holds
        by_cases here : other = name
        · subst here
          exact (held q same holds).2
        · exact fills other here

end Runs

end EMS
