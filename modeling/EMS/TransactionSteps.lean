import EMS.TransactionInvariant

/-!
# The steps of transactions

One lemma for every kind of step that touches an element: an acquisition, the
store after a read, the release of a shared and of an exclusive lock, and the
accesses of a write.  Every other step only goes on to the next access.
-/

namespace EMS

open SharedProgram Interleaving BulkSynchronous

section Steps

variable {N : Nat} {nElem level : Nat → Nat} {kept : Nat → Multiset Block}
  {fill : ElementName → Filling} {config : TxConfig N} {p : Fin N}

theorem TxSound.goto (invariant : TxSound nElem level kept fill config)
    {before pc : TxPc}
    (here : (config.control p).pc = before)
    (reading : pc.isReading = before.isReading)
    (rewriting : pc.rewriting = before.rewriting)
    (locking : pc.isLocking = before.isLocking)
    (writing : pc.writing = before.writing)
    (active : (config.control p).phase ≠ .outside)
    (next : pc.Sound fill config.shared { config.control p with pc := pc }) :
    TxSound nElem level kept fill
      ⟨config.shared, Function.update config.control p
        { config.control p with pc := pc }⟩ := by
  rw [← here] at reading rewriting locking writing
  refine invariant.silent (fun _ _ => rfl) ?_
    ((invariant.sound p).goto reading rewriting active next)
  simp only [TxProcess.busy, locking, writing]

/-! ## Tags -/

/-- The tag of an element changes, that nobody else minds. -/
theorem TxSound.retag (invariant : TxSound nElem level kept fill config)
    {name : ElementName}
    {tag : Tag} {process' : TxProcess}
    (type : tag.type = (config.shared.tag name).type)
    (counts : ∀ other, other ≠ name → ∀ lock,
      process'.count other lock = (config.control p).count other lock)
    (busy : ∀ other, other ≠ name →
      process'.busyCount other = (config.control p).busyCount other)
    (owned : ∀ exclusive shared busy, TagOwned (config.shared.tag name)
        (exclusive + (config.control p).count name .readFE)
        (shared + (config.control p).count name .readRW)
        (busy + (config.control p).busyCount name) →
      TagOwned tag (exclusive + process'.count name .readFE)
        (shared + process'.count name .readRW) (busy + process'.busyCount name))
    (settled : process'.count name .readFE = 0 → ∃ value,
      fill name = .settled value)
    (unminded : ∀ q, q ≠ p → ¬ (config.control q).Minds name)
    (sound : process'.Sound nElem fill (config.shared.setTag name tag)) :
    TxSound nElem level kept fill
      ⟨config.shared.setTag name tag,
        Function.update config.control p process'⟩ := by
  refine invariant.touch (invariant.holds.retag type)
    (fun other => TxMemory.tag_setTag_ne)
    (fun _ _ => TxMemory.word_setTag) (fun _ _ => rfl) counts busy ?_ settled
    (fun q different minds => absurd minds (unminded q different))
    (fun _ _ _ => ⟨TxMemory.word_setTag, rfl⟩) sound
  rw [TxMemory.tag_setTag]
  exact owned

theorem TxProcess.count_cons (process : TxProcess) (held : TxHeld)
    (name : ElementName)
    (lock : TmLock) (pending : List (ElementName × TmLock)) (pc : TxPc) :
    ({ process
      with pending := pending, handle := held :: process.handle, pc := pc } :
        TxProcess).count name lock =
      process.count name lock + if held.name = name ∧ held.lock = lock then 1
        else 0 := by
  simp [TxProcess.count, List.countP_cons]

theorem TxProcess.count_tail {process : TxProcess} {held : TxHeld}
    {handle : List TxHeld}
    (split : process.handle = held :: handle) (pc : TxPc) (name : ElementName)
    (lock : TmLock) :
    process.count name lock =
      ({ process with handle := handle, pc := pc } :
        TxProcess).count name lock +
        if held.name = name ∧ held.lock = lock then 1 else 0 := by
  simp [TxProcess.count, split, List.countP_cons]

/-- An element is locked. -/
theorem TxSound.acquire (invariant : TxSound nElem level kept fill config)
    {name : ElementName}
    {lock : TmLock} {pending : List (ElementName × TmLock)} {memTag : Tag}
    (here : (config.control p).pc = .readCas memTag)
    (first : (config.control p).pending = (name, lock) :: pending)
    (found : config.shared.tag name = lock.oldTag memTag) :
    TxSound nElem level kept fill
      ⟨config.shared.setTag name (lock.newTag memTag),
        Function.update config.control p
          { config.control p with
            pending := pending
            handle :=
              ⟨name, lock, config.shared.shown name, .none⟩ ::
                (config.control p).handle
            pc := .readData (lock.newTag memTag) }⟩ := by
  have sound := invariant.sound p
  have known := sound.next
  rw [here] at known
  obtain ⟨starting, lock', head, takes⟩ := known
  rw [first] at head
  obtain rfl := Option.some.inj head
  have takes : lock.Takes memTag := takes
  rw [takes.oldTag] at found
  have member : name ∈ (config.control p).handle.map TxHeld.name ++
      (config.control p).pending.map Prod.fst := by
    simp [first]
  have below := sound.range name member
  have owned := invariant.owned name below
  rw [found] at owned
  obtain ⟨exclusive, busy⟩ := owned.free takes
  obtain ⟨value, settled⟩ := invariant.settled name below exclusive
  have isValue := (invariant.holds.shown below settled).1
  have names := sound.names
  rw [first, List.map_cons] at names
  have distinct := List.perm_middle.nodup_iff.mp names
  have idle : (config.control p).busy = none := by
    simp [TxProcess.busy, here, TxPc.isLocking, TxPc.writing]
  refine invariant.retag ?_ ?_ ?_ ?_ (fun _ => ⟨value, settled⟩) ?_ ?_
  · rw [found]
    cases lock <;> rfl
  · intro other different lock'
    rw [TxProcess.count_cons]
    simp [Ne.symm different]
  · intro other different
    simp [TxProcess.busyCount, TxProcess.busy, here, TxPc.isLocking,
      TxPc.writing,
      Ne.symm different]
  · intro others others' others'' owned
    rw [found] at owned
    simp only [TxProcess.count_cons, TxProcess.busyCount, idle] at owned ⊢
    cases lock with
    | readFE =>
        have taken := owned.takeExclusive takes
        simpa [TxProcess.busy, TxPc.isLocking, Nat.add_assoc] using taken
    | readRW =>
        have taken := owned.takeShared takes
        simpa [TxProcess.busy, TxPc.isLocking, Nat.add_assoc] using taken
  · exact fun _ _ => TxProcess.not_minds exclusive busy
  · obtain ⟨-, range, -, -, shared, exclusive, fetched, -⟩ := sound
    rw [first, List.map_cons] at range
    rw [here] at exclusive
    refine ⟨distinct, ?_, fun wrong => absurd starting wrong,
      fun wrong => absurd (starting.symm.trans wrong) (by decide), ?_, ?_, ?_,
      ⟨_, value, ⟨starting, rfl, settled, isValue⟩, TxMemory.tag_setTag.symm⟩⟩
    · intro other member
      exact range other (List.perm_middle.mem_iff.mpr member)
    · intro held member mode
      rcases List.mem_cons.mp member with rfl | member
      · exact ⟨value, settled, isValue⟩
      · exact shared held member mode
    · intro held member mode
      right
      rcases List.mem_cons.mp member with rfl | member
      · exact ⟨value, settled⟩
      · rcases exclusive held member mode with wrong | settled
        · cases wrong
        · exact settled
    · simpa [TxProcess.fetched, here, TxPc.isReading] using fetched

/-- The second store of a read. -/
theorem TxSound.readStore (invariant : TxSound nElem level kept fill config)
    {held : TxHeld}
    {handle : List TxHeld} {newTag : Tag} {word : Int}
    (here : (config.control p).pc = .readStore newTag word)
    (split : (config.control p).handle = held :: handle) :
    TxSound nElem level kept fill
      ⟨config.shared.setTag held.name { newTag with fe := held.lock.finalFE },
        Function.update config.control p
          { config.control p with pc := .fetch newTag.type word }⟩ := by
  have sound := invariant.sound p
  have known := sound.next
  rw [here] at known
  obtain ⟨held', value, ⟨starting, head, settled, isValue⟩, rfl, rfl⟩ := known
  obtain rfl : held' = held := by
    rw [split] at head
    exact (Option.some.inj head).symm
  have busy : (config.control p).busy = some held'.name := by
    simp [TxProcess.busy, here, TxPc.isLocking, head]
  have below := invariant.range (sound.holds_busy busy)
  have counted := TxProcess.head_count head
  have type := (invariant.holds.shown below settled).1.1
  refine invariant.retag rfl (fun _ _ _ => rfl) ?_ ?_
    (fun _ => ⟨value, settled⟩) ?_ ?_
  · intro other different
    simp [TxProcess.busyCount, TxProcess.busy, here, head, TxPc.isLocking,
      TxPc.writing,
      Ne.symm different]
  · intro others others' others'' owned
    rw [TxProcess.busyCount_pos busy] at owned
    apply owned.settle
    · intro mode
      rw [mode] at counted
      exact (Nat.add_pos_right others counted).ne'
    · intro mode
      rw [mode] at counted
      exact (Nat.add_pos_right others' counted).ne'
  · exact fun q different => invariant.busy_minds busy different
  · apply sound.goto
    · rw [here]
      rfl
    · rw [here]
      rfl
    · exact sound.active (by simp [here])
    · exact ⟨held', value, ⟨starting, head, settled, isValue⟩, type,
        TxMemory.word_setTag.symm⟩

/-- The value that was read comes to Python. -/
theorem TxSound.fetch (small : ∀ r, EMS_MEM_BLOCKSZ * 2 ^ level r < 2 ^ 63)
    (invariant : TxSound nElem level kept fill config) {held : TxHeld}
    {handle : List TxHeld}
    {type : EMSType} {word : Int} {text : CString} {val : PyValue}
    (here : (config.control p).pc = .fetch type word)
    (split : (config.control p).handle = held :: handle)
    (reads : type.IsText →
      HeapHolds (config.shared.region held.name.1).buf.heap word text.bytes)
    (returned : returnData (readValue type word text) = some val) :
    TxSound nElem level kept fill
      ⟨config.shared, Function.update config.control p
        { config.control p
          with handle := { held with value := val } :: handle, pc :=
            .idle }⟩ := by
  have sound := invariant.sound p
  have known := sound.next
  rw [here] at known
  obtain ⟨held', value, ⟨starting, head, settled, isValue⟩, rfl, rfl⟩ := known
  obtain rfl : held' = held := by
    rw [split] at head
    exact (Option.some.inj head).symm
  have below := invariant.range ⟨held', TxProcess.head_mem head, rfl⟩
  have same :=
    (invariant.holds.fetches small below settled).2 text val reads returned
  refine invariant.silent ?_ ?_ ?_
  · intro name lock
    simp [TxProcess.count, split, List.countP_cons]
  · simp [TxProcess.busy, here, TxPc.isLocking, TxPc.writing]
  · obtain ⟨names, range, pending, -, shared, exclusive, fetched, -⟩ := sound
    rw [split] at names range shared exclusive
    simp only [TxProcess.fetched, here, TxPc.isReading, split, if_true,
      List.tail_cons] at fetched
    refine ⟨names, range, pending,
      fun wrong => absurd (starting.symm.trans wrong) (by decide),
      ?_, ?_, ?_, trivial⟩
    · intro other member mode
      rcases List.mem_cons.mp member with rfl | member
      · exact ⟨value, settled, isValue⟩
      · exact shared other (.tail _ member) mode
    · intro other member mode
      right
      rcases List.mem_cons.mp member with rfl | member
      · exact ⟨value, settled⟩
      · rcases exclusive other (.tail _ member) mode with wrong | settled
        · rw [here] at wrong
          cases wrong
        · exact settled
    · intro other member
      rcases List.mem_cons.mp member with rfl | member
      · exact ⟨value, isValue, same⟩
      · exact fetched other member

/-- A shared lock is given back. -/
theorem TxSound.unshare (invariant : TxSound nElem level kept fill config)
    {held : TxHeld}
    {handle : List TxHeld} {oldTag : Tag}
    (here : (config.control p).pc = .releaseCas oldTag)
    (split : (config.control p).handle = held :: handle)
    (found : config.shared.tag held.name = oldTag) :
    TxSound nElem level kept fill
      ⟨config.shared.setTag held.name { oldTag with
          rw := oldTag.rw - 1
          fe := if oldTag.rw - 1 = 0 then .full else .rwLock },
        Function.update config.control p
          { config.control p with handle := handle, pc := .idle }⟩ := by
  have sound := invariant.sound p
  have known := sound.next
  rw [here] at known
  obtain ⟨held', ⟨ending, head, mode⟩, rwLock⟩ := known
  obtain rfl : held' = held := by
    rw [split] at head
    exact (Option.some.inj head).symm
  obtain ⟨value, settled, -⟩ :=
    sound.shared held' (TxProcess.head_mem head) mode
  have below := invariant.range ⟨held', TxProcess.head_mem head, rfl⟩
  have owned := invariant.owned held'.name below
  have state := owned.state
  rw [found, rwLock] at state
  have idle : (config.control p).busy = none := by
    simp [TxProcess.busy, here, TxPc.isLocking, TxPc.writing]
  refine invariant.retag ?_ ?_ ?_ ?_ (fun _ => ⟨value, settled⟩) ?_ ?_
  · rw [found]
  · intro other different lock
    rw [TxProcess.count_tail split .idle]
    simp [Ne.symm different]
  · intro other different
    simp [TxProcess.busyCount, TxProcess.busy, here, TxPc.isLocking,
      TxPc.writing]
  · intro others others' others'' owned
    rw [found, TxProcess.count_tail split .idle,
      TxProcess.count_tail split .idle] at owned
    simp only [mode, TxProcess.busyCount, idle] at owned
    exact (owned.unshare rwLock).1
  · exact fun _ _ => TxProcess.not_minds state.1 state.2.2
  · apply sound.dropHead split
    · rw [here]
      rfl
    · intro other _
      rw [here]
      simp [TxPc.rewriting]
    · exact sound.active (by simp [here])

/-- A commit gives an exclusive lock back. -/
theorem TxSound.setStore (invariant : TxSound nElem level kept fill config)
    {held : TxHeld}
    {handle : List TxHeld} {tag : Tag}
    (here : (config.control p).pc = .setStore tag)
    (split : (config.control p).handle = held :: handle) :
    TxSound nElem level kept fill
      ⟨config.shared.setTag held.name { tag with fe := .full },
        Function.update config.control p
          { config.control p with handle := handle, pc := .idle }⟩ := by
  have sound := invariant.sound p
  have known := sound.next
  rw [here] at known
  obtain ⟨-, held', ⟨ending, head, mode⟩, rfl⟩ := known
  obtain rfl : held' = held := by
    rw [split] at head
    exact (Option.some.inj head).symm
  have counted := TxProcess.head_count head
  rw [mode] at counted
  have idle : (config.control p).busy = none := by
    simp [TxProcess.busy, here, TxPc.isLocking, TxPc.writing]
  have empty := invariant.empty counted (by simp [idle])
  refine invariant.retag rfl ?_ ?_ ?_ ?_ ?_ ?_
  · intro other different lock
    rw [TxProcess.count_tail split .idle]
    simp [Ne.symm different]
  · intro other different
    simp [TxProcess.busyCount, TxProcess.busy, here, TxPc.isLocking,
      TxPc.writing]
  · intro others others' others'' owned
    rw [TxProcess.count_tail split .idle,
      TxProcess.count_tail split .idle] at owned
    simp only [mode, TxProcess.busyCount, idle] at owned
    exact owned.release empty
  · intro _
    rcases sound.exclusive held' (TxProcess.head_mem head) mode
      with wrong | settled
    · rw [here] at wrong
      cases wrong
    · exact settled
  · exact fun q different => invariant.alone_minds counted different
  · apply sound.dropHead split
    · rw [here]
      rfl
    · intro other _
      rw [here]
      simp [TxPc.rewriting]
    · exact sound.active (by simp [here])

/-- An abort makes an element BUSY that it has locked exclusively. -/
theorem TxSound.awaitCas (invariant : TxSound nElem level kept fill config)
    {held : TxHeld}
    {handle : List TxHeld} {value : EMSvalueType} {memTag : Tag}
    (here : (config.control p).pc = .awaitCas value memTag)
    (split : (config.control p).handle = held :: handle) :
    TxSound nElem level kept fill
      ⟨config.shared.setTag held.name { memTag with fe := .busy },
        Function.update config.control p
          { config.control p
            with pc := .writeTag ⟨held.name, value, some .full⟩ }⟩ := by
  have sound := invariant.sound p
  have known := sound.next
  rw [here] at known
  obtain ⟨aborts, held', ⟨ending, head, mode⟩, back, rfl⟩ := known
  obtain rfl : held' = held := by
    rw [split] at head
    exact (Option.some.inj head).symm
  have counted := TxProcess.head_count head
  rw [mode] at counted
  have idle : (config.control p).busy = none := by
    simp [TxProcess.busy, here, TxPc.isLocking, TxPc.writing]
  have empty := invariant.empty counted (by simp [idle])
  refine invariant.retag rfl (fun _ _ _ => rfl) ?_ ?_ ?_ ?_ ?_
  · intro other different
    simp [TxProcess.busyCount, TxProcess.busy, here, TxPc.isLocking,
      TxPc.writing,
      Ne.symm different]
  · intro others others' others'' owned
    simp only [TxProcess.busyCount, idle] at owned
    have blocked := owned.block empty
    simpa [TxProcess.busyCount, TxProcess.busy, TxPc.isLocking, TxPc.writing,
      TxProcess.count]
      using blocked
  · intro _
    rcases sound.exclusive held' (TxProcess.head_mem head) mode
      with wrong | settled
    · rw [here] at wrong
      cases wrong
    · exact settled
  · exact fun q different => invariant.alone_minds counted different
  · apply sound.goto
    · rw [here]
      rfl
    · rw [here]
      rfl
    · exact sound.active (by simp [here])
    · exact ⟨back.1, counted, .inr ⟨rfl, aborts, held', head, rfl, mode, back⟩⟩

/-! ## Contents -/

/-- A process goes on with a write to an element that nobody else has. -/
theorem TxSound.advance (invariant : TxSound nElem level kept fill config)
    {name : ElementName}
    {filling : Filling} {ledger : Ledger} (pc : TxPc)
    (held : 0 < (config.control p).count name .readFE)
    (holds : RegionHolds (nElem name.1) (level name.1) (kept name.1)
      (Function.update (fun i => fill (name.1, i)) name.2 filling) ledger)
    (tags : ledger.buf.tag = (config.shared.region name.1).buf.tag)
    (words : ∀ i : Nat, i ≠ name.2 → ledger.buf.word (EMSdataCell i) =
      (config.shared.region name.1).buf.word (EMSdataCell i))
    (locking : pc.isLocking = (config.control p).pc.isLocking)
    (writing : pc.writing = (config.control p).pc.writing)
    (reading : pc.isReading = (config.control p).pc.isReading)
    (rewriting : pc.rewriting = some name)
    (before : ∀ other, (config.control p).pc.rewriting = some other →
      other = name)
    (active : (config.control p).phase ≠ .outside)
    (next : pc.Sound (Function.update fill name filling)
      (config.shared.setRegion name ledger)
      { config.control p with pc := pc }) :
    TxSound nElem level kept (Function.update fill name filling)
      ⟨config.shared.setRegion name ledger,
        Function.update config.control p
          { config.control p with pc := pc }⟩ := by
  have sound := invariant.sound p
  have same : ({ config.control p with pc := pc } : TxProcess).busy =
      (config.control p).busy := by
    simp only [TxProcess.busy, locking, writing]
  have tag : (config.shared.setRegion name ledger).tag name =
      config.shared.tag name := by
    rw [TxMemory.tag_setRegion, tags]
    rfl
  have below := invariant.range (TxProcess.holds_of_count held)
  refine invariant.touch (invariant.holds.setRegion holds)
    (fun other different => TxMemory.tag_setRegion_ne different fun i _ => by
      rw [tags])
    (fun other different => TxMemory.word_setRegion_ne different words)
    (fun other different => Function.update_of_ne different _ _)
      (fun _ _ _ => rfl) ?_ ?_ ?_
    (fun _ _ _ => tag)
    (fun q different holds =>
      absurd holds (invariant.alone below held different)) ?_
  · intro other different
    simp only [TxProcess.busyCount, same]
  · intro others others' others'' owned
    rw [tag]
    simp only [TxProcess.busyCount, same] at owned ⊢
    exact owned
  · intro none
    exact absurd none held.ne'
  · obtain ⟨names, range, pending, -, shared, exclusive, fetched, -⟩ := sound
    have apart : ∀ other ∈ (config.control p).handle, other.lock = .readRW →
        other.name ≠ name := by
      intro other member mode equal
      have counted := le_tally (TxProcess.count name .readFE) config.control p
      obtain ⟨-, none, -⟩ := (invariant.owned name below).alone (by omega)
      have counted' := le_tally (TxProcess.count name .readRW) config.control p
      have some := TxProcess.count_pos.mpr ⟨other, member, equal, mode⟩
      omega
    refine ⟨names, range, pending, fun outside => absurd outside active, ?_,
      ?_, ?_, next⟩
    · intro other member mode
      rw [Function.update_of_ne (apart other member mode)]
      exact shared other member mode
    · intro other member mode
      by_cases equal : other.name = name
      · left
        rw [equal]
        exact rewriting
      · right
        rw [Function.update_of_ne equal]
        rcases exclusive other member mode with wrong | settled
        · exact absurd (before _ wrong) equal
        · exact settled
    · simp only [TxProcess.fetched, reading] at fetched ⊢
      exact fetched

theorem TxSound.overwritten (invariant : TxSound nElem level kept fill config)
    {write : TxWrite}
    (writes : (config.control p).Writes write)
    (calm : (config.control p).pc.rewriting = none) : ∃ value,
      fill write.name = .settled value := by
  obtain ⟨held, member, here, mode⟩ := TxProcess.count_pos.mp writes.held
  rw [← here]
  rcases (invariant.sound p).exclusive held member mode with wrong | settled
  · rw [calm] at wrong
    cases wrong
  · exact settled

/-- The block of the old value is given back. -/
theorem TxSound.writeFree (small : ∀ r, EMS_MEM_BLOCKSZ * 2 ^ level r < 2 ^ 63)
    (invariant : TxSound nElem level kept fill config)
    {write : TxWrite} {tag : Tag}
    {ledger : Ledger} (here : (config.control p).pc = .writeFree write tag)
    (text : tag.type.IsText)
    (freed : Access.account (.memFree (config.shared.word write.name))
      (config.shared.region write.name.1) = (.ok (), ledger)) :
    TxSound nElem level kept (Function.update fill write.name .freed)
      ⟨config.shared.setRegion write.name ledger,
        Function.update config.control p
          { config.control p with pc := .writePlace write tag }⟩ := by
  have sound := invariant.sound p
  have known := sound.next
  rw [here] at known
  obtain ⟨writes, rfl⟩ := known
  obtain ⟨value, settled⟩ := invariant.overwritten writes (by rw [here]; rfl)
  have below := invariant.range (TxProcess.holds_of_count writes.held)
  obtain ⟨mem, live, account, holds⟩ :=
    (invariant.holds write.name.1).free (small _) below settled text
  have account : Access.account (.memFree (config.shared.word write.name))
      (config.shared.region write.name.1) = _ := account
  rw [account] at freed
  obtain rfl := (Prod.mk.inj freed).2
  refine invariant.advance _ writes.held holds rfl (fun _ _ => rfl) ?_
    ?_ ?_ rfl ?_
    (sound.active (by simp [here]))
      ⟨⟨writes.plain, writes.held, writes.purpose⟩, ?_, ?_⟩
  · rw [here]
    rfl
  · rw [here]
    rfl
  · rw [here]
    rfl
  · rw [here]
    exact fun _ wrong => nomatch wrong
  · rw [TxMemory.tag_setRegion]
    rfl
  · simp

/-- The old value has no block. -/
theorem TxSound.writeKeep (invariant : TxSound nElem level kept fill config)
    {write : TxWrite}
    {tag : Tag} (here : (config.control p).pc = .writeFree write tag)
    (noText : ¬ tag.type.IsText) :
    TxSound nElem level kept (Function.update fill write.name .freed)
      ⟨config.shared, Function.update config.control p
        { config.control p with pc := .writePlace write tag }⟩ := by
  have sound := invariant.sound p
  have known := sound.next
  rw [here] at known
  obtain ⟨writes, rfl⟩ := known
  obtain ⟨value, settled⟩ := invariant.overwritten writes (by rw [here]; rfl)
  have below := invariant.range (TxProcess.holds_of_count writes.held)
  have holds := (invariant.holds write.name.1).keep below settled noText
  rw [← @TxMemory.setRegion_self config.shared write.name] at noText
  have advanced :=
    invariant.advance (.writePlace write (config.shared.tag write.name))
    writes.held holds rfl (fun _ _ => rfl) (by rw [here]; rfl)
      (by rw [here]; rfl)
    (by rw [here]; rfl) rfl (by rw [here]; exact fun _ wrong => nomatch wrong)
    (sound.active (by simp [here]))
      ⟨⟨writes.plain, writes.held, writes.purpose⟩, ?_, ?_⟩
  · rw [TxMemory.setRegion_self] at advanced
    exact advanced
  · rw [TxMemory.setRegion_self]
  · simp

/-- The new value is placed. -/
theorem TxSound.place (invariant : TxSound nElem level kept fill config)
    {write : TxWrite}
    {tag : Tag} {placed : List Block} {after : Ledger}
    (here : (config.control p).pc = .writePlace write tag)
    (places : Placed (level write.name.1)
      (EMSdataCell write.name.2) write.value placed
      (config.shared.region write.name.1) after) :
    TxSound nElem level kept
      (Function.update fill write.name (.placed write.value))
      ⟨config.shared.setRegion write.name after,
        Function.update config.control p
          { config.control p with pc := .writeFinish write tag }⟩ := by
  have sound := invariant.sound p
  have known := sound.next
  rw [here] at known
  obtain ⟨writes, rfl, freed⟩ := known
  have below := invariant.range (TxProcess.holds_of_count writes.held)
  have holds :=
    (invariant.holds write.name.1).place below freed writes.plain places
  refine invariant.advance _ writes.held holds places.tag ?_ ?_ ?_ ?_ rfl ?_
    (sound.active (by simp [here]))
      ⟨⟨writes.plain, writes.held, writes.purpose⟩, ?_, ?_⟩
  · intro i different
    apply places.word
    simpa using different
  · rw [here]
    rfl
  · rw [here]
    rfl
  · rw [here]
    rfl
  · rw [here]
    exact fun _ same => (Option.some.inj same).symm
  · rw [TxMemory.tag_setRegion, places.tag]
    rfl
  · simp

/-- The process after its write, before an entry of the handle is done. -/
theorem TxSound.settledSound (invariant : TxSound nElem level kept fill config)
    {write : TxWrite}
    {tag : Tag} {memory' : TxMemory}
    (here : (config.control p).pc = .writeFinish write tag) :
    ({ config.control p with pc := .idle } : TxProcess).Sound nElem
      (Function.update fill write.name (.settled write.value)) memory' := by
  obtain ⟨names, range, pending, outside, shared, exclusive, fetched, next⟩ :=
    invariant.sound p
  rw [here] at next outside exclusive
  simp only [TxProcess.fetched, here, TxPc.isReading] at fetched
  refine ⟨names, range, pending,
    fun wrong => absurd (outside wrong).1 (by simp), ?_, ?_, fetched,
    trivial⟩
  · intro other member mode
    obtain ⟨value, settled, found⟩ := shared other member mode
    have different : other.name ≠ write.name := by
      intro same
      rw [same, next.2.2] at settled
      cases settled
    rw [Function.update_of_ne different]
    exact ⟨value, settled, found⟩
  · intro other member mode
    right
    by_cases same : other.name = write.name
    · rw [same, Function.update_self]
      exact ⟨write.value, rfl⟩
    · rw [Function.update_of_ne same]
      rcases exclusive other member mode with wrong | settled
      · exact absurd (Option.some.inj wrong).symm same
      · exact settled

/-- The last store of a write. -/
theorem TxSound.writeFinish (invariant : TxSound nElem level kept fill config)
    {write : TxWrite}
    {tag : Tag} (here : (config.control p).pc = .writeFinish write tag) :
    TxSound nElem level kept
      (Function.update fill write.name (.settled write.value))
      ⟨config.shared.setTag write.name (write.finalTag tag),
        Function.update config.control p
          ((config.control p).written write)⟩ := by
  have known := (invariant.sound p).next
  rw [here] at known
  obtain ⟨writes, rfl, placed⟩ := known
  have below := invariant.range (TxProcess.holds_of_count writes.held)
  have settledSound := @TxSound.settledSound _ _ _ _ _ _ p invariant write _
    (config.shared.setTag write.name
      (write.finalTag (config.shared.tag write.name))) here
  have type : (write.finalTag (config.shared.tag write.name)).type =
      write.value.type := by
    unfold TxWrite.finalTag
    split <;> rfl
  have holds := invariant.holds.setRegion
    ((invariant.holds write.name.1).finish below placed type)
  obtain ⟨plain, held, purpose⟩ := writes
  rcases purpose with ⟨stays, -⟩ | ⟨full, aborts, first, head, same, mode, -⟩
  · have idle : (config.control p).busy = none := by
      simp [TxProcess.busy, here, TxPc.isLocking, TxPc.writing, stays]
    have written : (config.control p).written write =
        { config.control p with pc := .idle } := by
      simp only [TxProcess.written, stays, if_true]
    rw [written]
    refine invariant.touch holds (fun other => TxMemory.tag_setTag_ne)
      (fun _ _ => TxMemory.word_setTag)
      (fun other different => Function.update_of_ne different _ _)
        (fun _ _ _ => rfl) ?_ ?_
      (fun _ => ⟨write.value, Function.update_self _ _ _⟩)
      (fun q different minds =>
        absurd minds (invariant.alone_minds held different))
      (fun q different holds =>
        absurd holds (invariant.alone below held different)) settledSound
    · intro other _
      simp only [TxProcess.busyCount, idle]
      rfl
    · intro others others' others'' owned
      rw [TxMemory.tag_setTag]
      simp only [TxProcess.busyCount, idle] at owned
      simp only [TxWrite.finalTag, stays]
      exact ⟨owned.readers, owned.state⟩
  · obtain ⟨handle, split⟩ := List.head?_eq_some_iff.mp head
    have busy : (config.control p).busy = some write.name := by
      simp [TxProcess.busy, here, TxPc.isLocking, TxPc.writing, full]
    have written : (config.control p).written write =
        { config.control p with handle := handle, pc := .idle } := by
      simp [TxProcess.written, full, split]
    rw [written]
    refine invariant.touch holds (fun other => TxMemory.tag_setTag_ne)
      (fun _ _ => TxMemory.word_setTag)
      (fun other different => Function.update_of_ne different _ _) ?_ ?_ ?_
      (fun _ => ⟨write.value, Function.update_self _ _ _⟩)
      (fun q different minds =>
        absurd minds (invariant.alone_minds held different))
      (fun q different holds =>
        absurd holds (invariant.alone below held different)) ?_
    · intro other different lock
      rw [TxProcess.count_tail split .idle, same]
      simp [Ne.symm different]
    · intro other different
      rw [TxProcess.busyCount, TxProcess.busyCount, busy]
      simp [TxProcess.busy, TxPc.isLocking, TxPc.writing, Ne.symm different]
    · intro others others' others'' owned
      rw [TxProcess.busyCount_pos busy, TxProcess.count_tail split .idle,
        TxProcess.count_tail split .idle] at owned
      simp only [same, mode] at owned
      rw [TxMemory.tag_setTag]
      simp only [TxWrite.finalTag, full]
      exact owned.finish write.value.type
    · exact settledSound.dropHead split rfl (by simp [TxPc.rewriting])
        (by simp [aborts])

/-! ## Phases -/

/-- A transaction starts. -/
theorem TxSound.start (invariant : TxSound nElem level kept fill config)
    {python : Bool}
    {pending : List (ElementName × TmLock)}
    (outside : (config.control p).phase = .outside)
    (distinct : (pending.map Prod.fst).Nodup)
    (inside : ∀ lock ∈ pending, lock.1.2 < nElem lock.1.1) :
    TxSound nElem level kept fill
      ⟨config.shared, Function.update config.control p
        { config.control p
          with python := python, phase := .starting, pending := pending }⟩ := by
  have sound := invariant.sound p
  obtain ⟨idle, empty⟩ := sound.outside outside
  refine invariant.silent (fun _ _ => rfl) rfl
    ⟨?_, ?_, fun wrong => absurd rfl wrong,
    (fun wrong => nomatch wrong), sound.shared, sound.exclusive, ?_, ?_⟩
  · simpa [empty] using distinct
  · intro name member
    simp only [empty, List.map_nil, List.nil_append] at member
    obtain ⟨lock, among, rfl⟩ := List.mem_map.mp member
    exact inside lock among
  · intro held member
    simp [TxProcess.fetched, idle, TxPc.isReading, empty] at member
  · simp only [idle]
    trivial

theorem TxSound.tmStart (invariant : TxSound nElem level kept fill config)
    {emsElems : List PyTmEntry} (outside : (config.control p).phase = .outside)
    (inArray : ∀ elem ∈ emsElems, elem.InArray nElem)
    (distinct : (emsElems.map PyTmEntry.name).Nodup) :
    TxSound nElem level kept fill
      ⟨config.shared, Function.update config.control p
        { config.control p with
          python := true
          phase := .starting
          pending := (tmStartLocks emsElems).map fun lock =>
              (lock.1.name, lock.2) }⟩ := by
  have locks :=
    (tmStartLocks_perm emsElems).map fun lock => (lock.1.name, lock.2)
  simp only [List.map_map] at locks
  apply invariant.start outside
  · rw [(locks.map Prod.fst).nodup_iff]
    simpa [List.map_map, Function.comp_def] using distinct
  · intro lock member
    obtain ⟨elem, among, rfl⟩ := List.mem_map.mp (locks.mem_iff.mp member)
    obtain ⟨-, n, index, below⟩ := inArray elem among
    simpa [PyTmEntry.name, index] using below

theorem TxSound.started (invariant : TxSound nElem level kept fill config)
    (idle : (config.control p).pc = .idle)
    (done : (config.control p).pending = []) :
    TxSound nElem level kept fill
      ⟨config.shared, Function.update config.control p
        { config.control p with phase := .inside }⟩ := by
  obtain ⟨names, range, -, -, shared, exclusive, fetched, -⟩ :=
    invariant.sound p
  refine invariant.silent (fun _ _ => rfl) rfl ⟨names, range, fun _ => done,
    (fun wrong => nomatch wrong), shared, exclusive, fetched, ?_⟩
  simp only [idle]
  trivial

/-- A transaction ends with the elements in the order in which they were
locked. -/
theorem TxSound.tmEnd (invariant : TxSound nElem level kept fill config)
    {doCommit : Bool}
    (inside : (config.control p).phase = .inside)
    (idle : (config.control p).pc = .idle) :
    TxSound nElem level kept fill
      ⟨config.shared, Function.update config.control p
        { config.control p with
          phase := .ending doCommit
          handle := (config.control p).handle.reverse }⟩ := by
  obtain ⟨names, range, pending, -, shared, exclusive, fetched, -⟩ :=
    invariant.sound p
  have permuted : ((config.control p).handle.reverse.map TxHeld.name ++
      (config.control p).pending.map Prod.fst).Perm
      ((config.control p).handle.map TxHeld.name ++
          (config.control p).pending.map Prod.fst) :=
    ((List.reverse_perm _).map _).append_right _
  simp only [TxProcess.fetched, idle, TxPc.isReading] at fetched
  refine invariant.silent ?_ ?_ ⟨permuted.nodup_iff.mpr names,
    fun name member => range name (permuted.mem_iff.mp member),
    fun _ => pending (by simp [inside]), (by simp),
    fun held member => shared held (List.mem_reverse.mp member),
    fun held member => exclusive held (List.mem_reverse.mp member), ?_, ?_⟩
  · intro name lock
    simp [TxProcess.count, List.countP_reverse]
  · simp [TxProcess.busy, idle, TxPc.isLocking]
  · intro held member
    simp only [TxProcess.fetched, idle, TxPc.isReading] at member
    exact fetched held (List.mem_reverse.mp member)
  · simp only [idle]
    trivial

theorem TxSound.ended (invariant : TxSound nElem level kept fill config)
    {doCommit : Bool}
    (ending : (config.control p).phase = .ending doCommit)
    (idle : (config.control p).pc = .idle)
    (done : (config.control p).handle = []) :
    TxSound nElem level kept fill
      ⟨config.shared, Function.update config.control p
        { config.control p with phase := .outside }⟩ := by
  obtain ⟨names, range, pending, -, shared, exclusive, fetched, -⟩ :=
    invariant.sound p
  refine invariant.silent (fun _ _ => rfl) rfl ⟨names, range,
    fun _ => pending (by simp [ending]), fun _ => ⟨idle, done⟩, shared,
    exclusive, fetched, ?_⟩
  simp only [idle]
  trivial

/-! ## Calls that do not fail -/

/-- A shared element is counted as one, or is being locked by somebody else. -/
theorem TxSound.shares (invariant : TxSound nElem level kept fill config)
    {held : TxHeld}
    (ends : (config.control p).Ends .readRW held) :
    ((config.shared.tag held.name).fe = .rwLock ∧
      (config.shared.tag held.name).rw ≠ 0) ∨
      ((config.shared.tag held.name).fe = .busy ∧
        tally (TxProcess.busyCount held.name) config.control = 1 ∧
        tally (TxProcess.count held.name .readFE) config.control = 0) := by
  have counted := TxProcess.head_count ends.head
  rw [ends.mode] at counted
  have bounded := le_tally (TxProcess.count held.name .readRW) config.control p
  have owned :=
    invariant.owned held.name
      (invariant.range (TxProcess.holds_of_count counted))
  obtain ⟨zero, ⟨rwLock, -⟩ | ⟨busy, one⟩⟩ := owned.shares (by omega)
  · left
    refine ⟨rwLock, fun none => ?_⟩
    have readers := owned.readers
    rw [none] at readers
    exact absurd (bounded.trans_eq readers.symm) (Nat.not_le.mpr counted)
  · exact .inr ⟨busy, one, zero⟩

theorem TxSound.keepsTag (invariant : TxSound nElem level kept fill config)
    {write : TxWrite}
    {tag : Tag} (here : (config.control p).pc = .writeFinish write tag)
    (final : write.finalFE ≠ none) :
    config.shared.tag write.name = { tag with fe := .busy } := by
  have known := (invariant.sound p).next
  rw [here] at known
  obtain ⟨writes, rfl, -⟩ := known
  have busy : (config.control p).busy = some write.name := by
    simp [TxProcess.busy, here, TxPc.isLocking, TxPc.writing, final]
  have below := invariant.range (TxProcess.holds_of_count writes.held)
  have counted := le_tally (TxProcess.count write.name .readFE) config.control p
  have locking := le_tally (TxProcess.busyCount write.name) config.control p
  rw [TxProcess.busyCount_pos busy] at locking
  have held := writes.held
  obtain ⟨-, -, -, isBusy⟩ :=
    (invariant.owned write.name below).alone (by omega)
  rw [← isBusy (by omega)]

/-- A string finds its place when the allocator does not refuse. -/
theorem TxSound.served (invariant : TxSound nElem level kept fill config)
    (served : TxServed config p) {write : TxWrite} {tag : Tag} {address : Int}
    {ledger : Ledger}
    (here : (config.control p).pc = .writePlace write tag)
    (text : write.value.type.IsText)
    (account : Access.account (.memAlloc (write.value.length + 1))
      (config.shared.region write.name.1) = (.ok address, ledger)) :
        0 ≤ address := by
  have known := (invariant.sound p).next
  rw [here] at known
  have requests := known.1.plain.toSized.placeable.requests text
  rcases (invariant.holds write.name.1).ordered.memAlloc requests.valid with
    ⟨offset, mem, answer, -⟩ | ⟨-, refused⟩
  · rw [answer] at account
    obtain rfl := Except.ok.inj (Prod.mk.inj account).1
    exact Int.natCast_nonneg offset
  · exact absurd (served write tag here text) refused

/-- No call fails. -/
theorem TxSound.succeeds (invariant : TxSound nElem level kept fill config)
    {next : TxConfig N} : ¬ ServedStep nElem config (p, .fail) next := by
  rintro ⟨served, step⟩
  have known := (invariant.sound p).next
  generalize label : (p, TxAct.fail) = named at step
  cases step with
  | @mk q act memory' process' moved =>
    obtain ⟨rfl, fails⟩ := Prod.mk.inj label
    cases moved with
    | releaseFailed here split notBusy none =>
        rw [here] at known
        obtain ⟨held, ends⟩ := known
        have head := ends.head
        rw [split] at head
        obtain rfl := Option.some.inj head
        rcases invariant.shares ends with ⟨rwLock, some⟩ | ⟨busy, -⟩
        · exact some (none rwLock)
        · exact notBusy busy
    | writeRefused here text account failure =>
        exact absurd (invariant.served served here text account) failure.not_ge
    | writeFinish here found =>
        split at fails
        · cases fails
        · cases fails
    | writeLost here final found => exact found (invariant.keepsTag here final)
    | _ => cases fails

theorem TxSound.writesBack (invariant : TxSound nElem level kept fill config)
    {held : TxHeld}
    {value : EMSvalueType} {pc : TxPc} (idle : (config.control p).pc = .idle)
    (head : (config.control p).handle.head? = some held)
    (back : ((config.control p).python = true ∧ value = newEMSval held.value) ∨
      ((config.control p).python = false ∧ PlainValue value)) :
    ({ config.control p with pc := pc } : TxProcess).WritesBack held value := by
  have fetched := (invariant.sound p).fetched
  simp only [TxProcess.fetched, idle, TxPc.isReading] at fetched
  obtain ⟨locked, found, same, plain⟩ := fetched held (TxProcess.head_mem head)
  rcases back with ⟨-, rfl⟩ | ⟨other, plain'⟩
  · exact ⟨plain, fun _ => ⟨locked, found, same⟩⟩
  · exact ⟨plain', fun python => absurd (python.symm.trans other) (by decide)⟩

/-! ## All steps -/

theorem TxSound.step (small : ∀ r, EMS_MEM_BLOCKSZ * 2 ^ level r < 2 ^ 63)
    (invariant : TxSound nElem level kept fill config) {label : Fin N × TxAct}
    {next : TxConfig N} (step : ServedStep nElem config label next) :
    ∃ fill', TxSound nElem level kept fill' next := by
  have given := step
  obtain ⟨-, step⟩ := step
  cases step with
  | @mk p act memory' process' moved =>
    have sound := invariant.sound p
    have known := sound.next
    cases moved with
    | tmStart emsElems outside inArray distinct =>
        exact ⟨fill, invariant.tmStart outside inArray distinct⟩
    | otherStart locks outside inside distinct =>
        exact ⟨fill, invariant.start outside distinct inside⟩
    | lock starting idle more =>
        exact ⟨fill, invariant.goto idle rfl rfl rfl rfl (by simp [starting])
          ⟨starting, more⟩⟩
    | readTag newTag here first =>
        rw [here] at known
        have active := sound.active (by simp [here])
        refine ⟨fill, ?_⟩
        split
        case isTrue may =>
          exact invariant.goto here rfl rfl rfl rfl active
            ⟨known.1, _, by rw [first]; rfl, TmLock.takes may⟩
        case isFalse => exact invariant.goto here rfl rfl rfl rfl active known
    | readCas here first found =>
        exact ⟨fill, invariant.acquire here first found⟩
    | readCasFailed here first found =>
        rw [here] at known
        exact ⟨fill, invariant.goto here rfl rfl rfl rfl
          (sound.active (by simp [here]))
          ⟨known.1, by simp [first]⟩⟩
    | readData here split =>
        rw [here] at known
        obtain ⟨held, value, locked, tag⟩ := known
        have head := locked.head
        rw [split] at head
        obtain rfl := Option.some.inj head
        exact ⟨fill, invariant.goto here rfl rfl rfl rfl
          (sound.active (by simp [here]))
          ⟨_, value, ⟨locked.starting, locked.head, locked.settled,
            locked.found⟩, tag, rfl⟩⟩
    | readStore here split => exact ⟨fill, invariant.readStore here split⟩
    | fetch here split reads returned =>
        exact ⟨fill, invariant.fetch small here split reads returned⟩
    | started starting idle done => exact ⟨fill, invariant.started idle done⟩
    | write inside idle member mode plain =>
        exact ⟨fill, invariant.goto idle rfl rfl rfl rfl (by simp [inside])
          ⟨plain, TxProcess.count_pos.mpr ⟨_, member, rfl, mode⟩,
            .inl ⟨rfl, inside⟩⟩⟩
    | tmEnd doCommit inside idle => exact ⟨fill, invariant.tmEnd inside idle⟩
    | releaseRW ending idle split mode =>
        exact ⟨fill, invariant.goto idle rfl rfl rfl rfl (by simp [ending])
          ⟨_, ⟨_, ending⟩, by rw [split]; rfl, mode⟩⟩
    | releaseTag here split fe rw =>
        rw [here] at known
        obtain ⟨held, ends⟩ := known
        exact ⟨fill, invariant.goto here rfl rfl rfl rfl
          (sound.active (by simp [here]))
          ⟨held, ⟨ends.ending, ends.head, ends.mode⟩, fe⟩⟩
    | releaseWait here split fe =>
        refine ⟨fill, ?_⟩
        rw [Function.update_eq_self]
        exact invariant
    | releaseFailed => exact absurd given invariant.succeeds
    | releaseCas here split found =>
        exact ⟨fill, invariant.unshare here split found⟩
    | releaseCasFailed here split found =>
        rw [here] at known
        obtain ⟨held, ends, -⟩ := known
        exact ⟨fill, invariant.goto here rfl rfl rfl rfl
          (sound.active (by simp [here]))
          ⟨held, ends.ending, ends.head, ends.mode⟩⟩
    | commit ending idle split mode =>
        exact ⟨fill, invariant.goto idle rfl rfl rfl rfl (by simp [ending])
          ⟨ending, _, ⟨_, ending⟩, by rw [split]; rfl, mode⟩⟩
    | setLoad here split =>
        rw [here] at known
        obtain ⟨commits, held, ends⟩ := known
        have head := ends.head
        rw [split] at head
        obtain rfl := Option.some.inj head
        exact ⟨fill, invariant.goto here rfl rfl rfl rfl
          (sound.active (by simp [here]))
          ⟨commits, _, ⟨ends.ending, ends.head, ends.mode⟩, rfl⟩⟩
    | setStore here split => exact ⟨fill, invariant.setStore here split⟩
    | @abort held handle value ending idle split mode back =>
        have head : (config.control p).handle.head? = some held := by
          rw [split]; rfl
        refine ⟨fill, invariant.goto idle rfl rfl rfl rfl (by simp [ending])
          ⟨ending, held, ⟨⟨_, ending⟩, head, mode⟩, ?_⟩⟩
        exact invariant.writesBack idle head back
    | awaitTag here split =>
        rw [here] at known
        obtain ⟨aborts, held, ends, back⟩ := known
        have head := ends.head
        rw [split] at head
        obtain rfl := Option.some.inj head
        exact ⟨fill, invariant.goto here rfl rfl rfl rfl
          (sound.active (by simp [here]))
          ⟨aborts, _, ⟨ends.ending, ends.head, ends.mode⟩, back, rfl⟩⟩
    | awaitCas here split found => exact ⟨fill, invariant.awaitCas here split⟩
    | awaitCasFailed here split found =>
        rw [here] at known
        obtain ⟨aborts, held, ends, back, -⟩ := known
        exact ⟨fill, invariant.goto here rfl rfl rfl rfl
          (sound.active (by simp [here]))
          ⟨aborts, held, ⟨ends.ending, ends.head, ends.mode⟩, back⟩⟩
    | writeTag here =>
        rw [here] at known
        exact ⟨fill, invariant.goto here rfl rfl rfl rfl
          (sound.active (by simp [here]))
          ⟨⟨known.plain, known.held, known.purpose⟩, rfl⟩⟩
    | writeFree here text freed =>
        exact ⟨_, invariant.writeFree small here text freed⟩
    | writeKeep here noText => exact ⟨_, invariant.writeKeep here noText⟩
    | @writeWord write tag here noText =>
        rw [here] at known
        exact ⟨_, invariant.place here
          (Placed.scalar (invariant.holds write.name.1).ordered
          (known.1.plain.storedWord noText))⟩
    | @writeText write tag address ledger here text account success =>
        rw [here] at known
        have requests := known.1.plain.toSized.placeable.requests text
        rcases (invariant.holds write.name.1).ordered.memAlloc
            requests.valid with
          ⟨offset, mem, answer, ordered⟩ | ⟨answer, -⟩
        · rw [answer] at account
          obtain ⟨same, rfl⟩ := Prod.mk.inj account
          obtain rfl := Except.ok.inj same
          exact ⟨_, invariant.place here
            (Placed.text text requests.room ordered)⟩
        · rw [answer] at account
          obtain rfl := Except.ok.inj (Prod.mk.inj account).1
          exact absurd success (by decide)
    | writeRefused => exact absurd given invariant.succeeds
    | writeFinish here found => exact ⟨_, invariant.writeFinish here⟩
    | writeLost => exact absurd given invariant.succeeds
    | ended ending idle done => exact ⟨fill, invariant.ended ending idle done⟩

end Steps

end EMS
