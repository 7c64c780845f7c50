import EMS.TransactionSteps

/-!
# An abort takes the transaction back

As long as the allocator refuses nothing, `tmEnd(handle, False)` gives every
element back as it was locked, and no call of it fails or waits for what does
not come.  A string that is written back needs a block, though, and the one
that was given back just before may be too short for it, or gone.
-/

namespace EMS

open SharedProgram Interleaving BulkSynchronous

/-! ## The values -/

/-- The same content is found as well. -/
theorem Shown.Is.same {shown : Shown} {value other : EMSvalueType}
    (is : shown.Is value)
    (same : SameContent value other) : shown.Is other := by
  obtain ⟨type, blocks, holds⟩ := is
  obtain ⟨sameType, text, word⟩ := same
  refine ⟨type.trans sameType, blocks, ?_⟩
  by_cases isText : value.type.IsText
  · rw [wordHolds_text isText, text isText] at holds
    rw [wordHolds_text (sameType ▸ isText)]
    exact holds
  · by_cases isWord : value.type.IsWord
    · rw [wordHolds_word isWord, word isWord] at holds
      rw [wordHolds_word (sameType ▸ isWord)]
      exact holds
    · have undefined : value.type = .undefined := by
        have isValue := holds.isValue
        cases kind : value.type <;> simp_all [EMSType.IsText,
          EMSType.IsWord, IsValue]
      have undefined' : other.type = .undefined := sameType.symm.trans undefined
      simpa [WordHolds, undefined, undefined'] using holds

section Promise

variable {N : Nat} {nElem level : Nat → Nat} {kept : Nat → Multiset Block}
  {fill : ElementName → Filling} {config : TxConfig N} {p : Fin N}

/-! ## Nobody waits for ever -/

theorem CanMove.of_program {act : TxAct} {memory' : TxMemory}
    {process' : TxProcess}
    (moved : TxProgram nElem p config.shared
      (config.control p) act memory' process')
    (changes : process' ≠ config.control p) :
    CanMove (TxStep nElem) config p := by
  refine ⟨act, _, .mk moved, ?_⟩
  simpa using changes

theorem CanMove.of_pc {act : TxAct} {memory' : TxMemory}
    {process' : TxProcess} {pc : TxPc}
    (here : (config.control p).pc = pc)
    (moved : TxProgram nElem p config.shared
      (config.control p) act memory' process')
    (changes : process'.pc ≠ pc) : CanMove (TxStep nElem) config p :=
  .of_program moved fun same =>
    changes ((congrArg TxProcess.pc same).trans here)

theorem TxSound.locking_moves (invariant : TxSound nElem level kept fill config)
    (locking : (config.control p).pc.isLocking = true) :
    ∃ held handle, (config.control p).handle = held :: handle ∧
      (config.control p).busy = some held.name ∧ CanMove
        (TxStep nElem) config p := by
  have known := (invariant.sound p).next
  cases here : (config.control p).pc with
  | readData newTag =>
      rw [here] at known
      obtain ⟨held, value, locked, -⟩ := known
      obtain ⟨handle, split⟩ := List.head?_eq_some_iff.mp locked.head
      refine ⟨held, handle, split, ?_,
        .of_pc here (.readData here split) (by simp)⟩
      simp [TxProcess.busy, here, TxPc.isLocking, locked.head]
  | readStore newTag word =>
      rw [here] at known
      obtain ⟨held, value, locked, -⟩ := known
      obtain ⟨handle, split⟩ := List.head?_eq_some_iff.mp locked.head
      refine ⟨held, handle, split, ?_,
        .of_pc here (.readStore here split) (by simp)⟩
      simp [TxProcess.busy, here, TxPc.isLocking, locked.head]
  | _ => simp [here, TxPc.isLocking] at locking

/-- A shared element that is BUSY is being locked by somebody else. -/
theorem TxSound.being_locked (invariant : TxSound nElem level kept fill config)
    {name : ElementName}
    (busy : tally (TxProcess.busyCount name) config.control = 1)
    (shared : tally (TxProcess.count name .readFE) config.control = 0) :
    ∃ q, (config.control q).busy = some name ∧
      (config.control q).pc.isLocking = true := by
  obtain ⟨q, counted⟩ : ∃ q, (config.control q).busy = some name := by
    by_contra nobody
    have none : tally (TxProcess.busyCount name) config.control = 0 := by
      apply tally_zero
      intro q
      rw [TxProcess.busyCount, if_neg]
      exact fun busy => nobody ⟨q, busy⟩
    rw [none] at busy
    cases busy
  refine ⟨q, counted, ?_⟩
  have known := (invariant.sound q).next
  have unheld : ∀ write, (config.control q).Writes write →
      write.name ≠ name := by
    rintro write writes rfl
    have bounded :=
      le_tally (TxProcess.count write.name .readFE) config.control q
    rw [shared] at bounded
    exact absurd (Nat.le_zero.mp bounded) writes.held.ne'
  cases here : (config.control q).pc with
  | readData | readStore => rfl
  | writeTag write =>
      rw [here] at known
      simp [TxProcess.busy, here, TxPc.isLocking, TxPc.writing] at counted
      exact absurd counted.2 (unheld write known)
  | writeFree write tag | writePlace write tag | writeFinish write tag =>
      rw [here] at known
      simp [TxProcess.busy, here, TxPc.isLocking, TxPc.writing] at counted
      exact absurd counted.2 (unheld write known.1)
  | _ => simp [TxProcess.busy, here, TxPc.isLocking, TxPc.writing] at counted

/-- The accesses of a write follow each other. -/
theorem TxSound.write_moves
    (small : ∀ r, EMS_MEM_BLOCKSZ * 2 ^ level r < 2 ^ 63)
    (invariant : TxSound nElem level kept fill config) {write : TxWrite}
    {tag : Tag} :
    ((config.control p).pc = .writeFree write tag → CanMove
      (TxStep nElem) config p) ∧
      ((config.control p).pc = .writePlace write tag → CanMove
        (TxStep nElem) config p) ∧
      ((config.control p).pc = .writeFinish write tag → CanMove
        (TxStep nElem) config p) := by
  have known := (invariant.sound p).next
  refine ⟨?_, ?_, ?_⟩
  · intro here
    rw [here] at known
    obtain ⟨writes, rfl⟩ := known
    by_cases text : (config.shared.tag write.name).type.IsText
    · obtain ⟨value, settled⟩ :=
        invariant.overwritten writes (by rw [here]; rfl)
      have below := invariant.range (TxProcess.holds_of_count writes.held)
      obtain ⟨mem, live, account, -⟩ :=
        (invariant.holds write.name.1).free (small _) below settled text
      exact .of_pc here (.writeFree here text account) (by simp)
    · exact .of_pc here (.writeKeep here text) (by simp)
  · intro here
    rw [here] at known
    by_cases text : write.value.type.IsText
    · have requests := known.1.plain.toSized.placeable.requests text
      rcases (invariant.holds write.name.1).ordered.memAlloc requests.valid with
        ⟨offset, mem, answer, -⟩ | ⟨answer, -⟩
      · exact .of_pc here (.writeText here text answer
          (Int.natCast_nonneg offset)) (by simp)
      · exact .of_pc here (.writeRefused here text answer (by decide))
          (by simp [TxProcess.written])
    · exact .of_pc here (.writeWord here text) (by simp)
  · intro here
    exact .of_pc here (.writeFinish here (invariant.keepsTag here))
      (by simp [TxProcess.written])

/-- An abort goes on, or waits for somebody who goes on. -/
theorem TxSound.moves (small : ∀ r, EMS_MEM_BLOCKSZ * 2 ^ level r < 2 ^ 63)
    (invariant : TxSound nElem level kept fill config)
    (aborts : (config.control p).phase = .ending false) :
    CanMove (TxStep nElem) config p ∨
      ∃ q held rest other others, q ≠ p ∧ (config.control p).handle =
        held :: rest ∧
        (config.control q).handle = other :: others ∧ other.name = held.name ∧
        (config.control q).pc.isLocking = true ∧ CanMove
          (TxStep nElem) config q := by
  have known := (invariant.sound p).next
  cases here : (config.control p).pc with
  | idle =>
      left
      cases split : (config.control p).handle with
      | nil =>
          apply CanMove.of_program (.ended aborts here split)
          intro same
          rw [← same] at aborts
          cases aborts
      | cons held rest =>
          cases mode : held.lock with
          | readRW =>
              exact .of_pc here (.releaseRW aborts here split mode) (by simp)
          | readFE =>
              cases python : (config.control p).python with
              | true =>
                  exact .of_pc here (.abort aborts here split mode
                    (.inl ⟨python, rfl⟩)) (by simp)
              | false =>
                  have plain : PlainValue (scalar .undefined 0) :=
                    .scalar (.inr rfl) (fun wrong => nomatch wrong)
                      (fun wrong => nomatch wrong)
                  exact .of_pc here (.abort aborts here split mode
                    (.inr ⟨python, plain⟩)) (by simp)
  | readTag =>
      rw [here] at known
      exact absurd (aborts.symm.trans known.1) (by simp)
  | readCas memTag =>
      rw [here] at known
      exact absurd (aborts.symm.trans known.1) (by simp)
  | readData newTag =>
      rw [here] at known
      obtain ⟨held, value, locked, -⟩ := known
      exact absurd (aborts.symm.trans locked.starting) (by simp)
  | readStore newTag word =>
      rw [here] at known
      obtain ⟨held, value, locked, -⟩ := known
      exact absurd (aborts.symm.trans locked.starting) (by simp)
  | fetch type word =>
      rw [here] at known
      obtain ⟨held, value, locked, -⟩ := known
      exact absurd (aborts.symm.trans locked.starting) (by simp)
  | releaseTag =>
      rw [here] at known
      obtain ⟨held, ends⟩ := known
      obtain ⟨rest, split⟩ := List.head?_eq_some_iff.mp ends.head
      rcases invariant.shares ends with ⟨rwLock, some⟩ | ⟨busy, one, shared⟩
      · exact .inl (.of_pc here (.releaseTag here split rwLock some) (by simp))
      · obtain ⟨q, locked, locking⟩ := invariant.being_locked one shared
        obtain ⟨other, others, split', busy', moves⟩ :=
          invariant.locking_moves locking
        refine .inr ⟨q, held, rest, other, others, ?_, split, split', ?_,
          locking, moves⟩
        · rintro rfl
          rw [here] at locking
          cases locking
        · rw [locked] at busy'
          exact (Option.some.inj busy').symm
  | releaseCas oldTag =>
      rw [here] at known
      obtain ⟨held, ends, -⟩ := known
      obtain ⟨rest, split⟩ := List.head?_eq_some_iff.mp ends.head
      left
      by_cases found : config.shared.tag held.name = oldTag
      · exact .of_pc here (.releaseCas here split found) (by simp)
      · exact .of_pc here (.releaseCasFailed here split found) (by simp)
  | setLoad =>
      rw [here] at known
      exact absurd (aborts.symm.trans known.1) (by simp)
  | setStore tag =>
      rw [here] at known
      exact absurd (aborts.symm.trans known.1) (by simp)
  | awaitTag value =>
      rw [here] at known
      obtain ⟨-, held, ends, -⟩ := known
      obtain ⟨rest, split⟩ := List.head?_eq_some_iff.mp ends.head
      exact .inl (.of_pc here (.awaitTag here split) (by simp))
  | awaitCas value memTag =>
      rw [here] at known
      obtain ⟨-, held, ends, -, rfl⟩ := known
      obtain ⟨rest, split⟩ := List.head?_eq_some_iff.mp ends.head
      have counted := TxProcess.head_count ends.head
      rw [ends.mode] at counted
      have empty := invariant.empty counted
        (by simp [TxProcess.busy, here, TxPc.isLocking, TxPc.writing])
      have found : config.shared.tag held.name =
          { config.shared.tag held.name with fe := .empty } := by
        rw [← empty]
      exact .inl (.of_pc here (.awaitCas here split found) (by simp))
  | writeTag write => exact .inl (.of_pc here (.writeTag here) (by simp))
  | writeFree write tag => exact .inl ((invariant.write_moves small).1 here)
  | writePlace write tag => exact .inl ((invariant.write_moves small).2.1 here)
  | writeFinish write tag => exact .inl ((invariant.write_moves small).2.2 here)

/-! ## What is released -/

theorem TxSound.restores (invariant : TxSound nElem level kept fill config)
    {held : TxHeld}
    {rest : List TxHeld} {next : TxConfig N}
    (python : (config.control p).python = true)
    (split : (config.control p).handle = held :: rest)
    (step : ServedStep nElem config (p, .restored) next) :
    (next.shared.tag held.name).fe = .full ∧
      ∃ value, held.locked.Is value ∧
        (next.shared.shown held.name).Is value := by
  obtain ⟨-, step⟩ := step
  generalize label : (p, TxAct.restored) = named at step
  cases step with
  | @mk q act memory' process' moved =>
    obtain ⟨rfl, restored⟩ := Prod.mk.inj label
    have known := (invariant.sound p).next
    cases moved with
    | @writeFinish write tag here found =>
        rw [here] at known
        obtain ⟨writes, rfl, -⟩ := known
        rcases writes.purpose with ⟨stays, -⟩ |
          ⟨full, -, first, head, same, -, -, back⟩
        · rw [stays] at restored
          cases restored
        · rw [split] at head
          obtain rfl := Option.some.inj head
          obtain ⟨locked, isLocked, sameContent⟩ := back python
          have after := invariant.writeFinish here
          have below := invariant.range (TxProcess.holds_of_count writes.held)
          have shown := (after.holds.shown below (Function.update_self _ _ _)).1
          rw [same]
          refine ⟨?_, locked, isLocked, shown.same sameContent⟩
          simp [TxWrite.finalTag, full]
    | _ => cases restored

private theorem readers_pred {rw : Fin 8} (some : rw ≠ 0) :
    rw.val = (rw - 1).val + 1 := by
  revert some
  revert rw
  decide

theorem TxSound.unshares (invariant : TxSound nElem level kept fill config)
    {held : TxHeld}
    {rest : List TxHeld} {next : TxConfig N}
    (split : (config.control p).handle = held :: rest)
    (step : ServedStep nElem config (p, .unshared) next) :
    (config.shared.tag held.name).rw.val =
    (next.shared.tag held.name).rw.val + 1 ∧
      (next.control p).handle = rest ∧
      ∃ value, held.locked.Is value ∧
        (next.shared.shown held.name).Is value := by
  obtain ⟨-, step⟩ := step
  generalize label : (p, TxAct.unshared) = named at step
  cases step with
  | @mk q act memory' process' moved =>
    obtain ⟨rfl, unshared⟩ := Prod.mk.inj label
    have known := (invariant.sound p).next
    cases moved with
    | @releaseCas held' rest' oldTag here split' found =>
        rw [split] at split'
        obtain ⟨rfl, rfl⟩ := List.cons.inj split'
        rw [here] at known
        obtain ⟨held', ends, rwLock⟩ := known
        have head := ends.head
        rw [split] at head
        obtain rfl := Option.some.inj head
        have after := invariant.unshare here split found
        obtain ⟨value, settled, isLocked⟩ :=
          (invariant.sound p).shared held
            (TxProcess.head_mem ends.head) ends.mode
        have counted :=
          TxProcess.holds_of_count (TxProcess.head_count ends.head)
        have below := invariant.range counted
        refine
          ⟨?_, by simp, value, isLocked, (after.holds.shown below settled).1⟩
        rcases invariant.shares ends with ⟨-, some⟩ | ⟨busy, -⟩
        · rw [found] at some
          simp only [found, TxMemory.tag_setTag]
          exact readers_pred some
        · rw [found, rwLock] at busy
          cases busy
    | writeFinish here found =>
        split at unshared
        · cases unshared
        · cases unshared
    | _ => cases unshared

/-! ## Runs -/

theorem TxSound.rollsBack (small : ∀ r, EMS_MEM_BLOCKSZ * 2 ^ level r < 2 ^ 63)
    (invariant : TxSound nElem level kept fill config) :
    RollsBack nElem (ServedStep nElem) config where
  moves := fun _ aborts => invariant.moves small aborts
  succeeds := fun _ _ _ => invariant.succeeds
  restores :=
    fun _ _ _ _ python split step => invariant.restores python split step
  unshares := fun _ _ _ _ split step => invariant.unshares split step
  counts := fun name below => (invariant.owned name below).readers

/-- The elements are settled before the first transaction. -/
theorem InitialTx.sound {memory : TxMemory}
    (initially : InitialTx nElem level kept memory) :
    ∃ fill, TxSound nElem level kept fill (initialTx N memory) := by
  choose store holds plain using initially.holds
  have none : ∀ name lock,
      tally (TxProcess.count name lock) (initialTx N memory).control = 0 :=
    fun name lock => tally_zero fun _ => rfl
  have calm : ∀ name,
      tally (TxProcess.busyCount name) (initialTx N memory).control = 0 := by
    intro name
    apply tally_zero
    intro q
    simp [initialTx, TxProcess.busyCount, TxProcess.busy, TxPc.isLocking,
      TxPc.writing]
  refine ⟨fun name => .settled (store name.1 name.2), ?_, ?_,
    fun name _ _ => ⟨_, rfl⟩, ?_⟩
  · intro r
    exact (holds r).settled (plain r)
  · intro name below
    obtain ⟨full, rw⟩ := initially.full name below
    rw [none, none, calm]
    refine ⟨?_, ?_⟩
    · simp [initialTx, rw]
    · simp [initialTx, full, FE.Allows]
  · intro q
    refine ⟨.nil, ?_, fun _ => rfl, fun _ => ⟨rfl, rfl⟩, ?_, ?_, ?_, trivial⟩
    · intro name member
      cases member
    · intro held member
      cases member
    · intro held member
      cases member
    · intro held member
      cases member

end Promise

/-- One element of one array, which is undefined. -/
def undefinedMemory : TxMemory := ⟨fun _ => freshLedger⟩

theorem InitialTx.undefined :
    InitialTx (fun _ => 1) (fun _ => 0) (fun _ => 0) undefinedMemory where
  holds := by
    intro r
    refine ⟨storeAfter [],
      InitialStore.holds ⟨fun _ _ _ => rfl, rfl, rfl, rfl, rfl⟩, ?_⟩
    intro i _
    exact .scalar (.inr rfl) (fun wrong => nomatch wrong)
      (fun wrong => nomatch wrong)
  full := fun _ _ => ⟨rfl, rfl⟩
  small := fun _ => by decide

/-- A process beside one that does nothing. -/
def beside (memory : TxMemory) (process : TxProcess) : TxConfig 2 :=
  ⟨memory, Function.update (initialTx 2 memory).control 0 process⟩

section Beside

variable {start : TxConfig 2} {memory memory' : TxMemory}
  {process process' : TxProcess}
  {act : TxAct}

theorem beside_step (scalar : ∀ write tag, process.pc = .writePlace write tag →
      ¬ write.value.type.IsText)
    (moved : TxProgram (fun _ => 1)
      (0 : Fin 2) memory process act memory' process') :
    ServedStep (fun _ => 1) (beside memory process) (0, act)
      (beside memory' process') := by
  have here : (beside memory process).control 0 = process := by
    simp [beside]
  rw [← here] at moved
  have stepped : TxStep (fun _ => 1) (beside memory process) (0, act)
      ⟨memory', Function.update (beside memory process).control 0 process'⟩ :=
        .mk moved
  simp only [beside, Function.update_idem] at stepped
  refine ⟨?_, stepped⟩
  intro write tag placing isText
  rw [here] at placing
  exact absurd isText (scalar write tag placing)

/-- What a run leads to, beside a process that does nothing. -/
def Leads (start : TxConfig 2) (memory : TxMemory)
    (process : TxProcess) : Prop :=
  ∃ trace, Run (ServedStep fun _ => 1) start trace (beside memory process)

theorem Leads.step (leads : Leads start memory process)
    (scalar : ∀ write tag, process.pc = .writePlace write tag →
      ¬ write.value.type.IsText)
    (moved : TxProgram (fun _ => 1)
      (0 : Fin 2) memory process act memory' process') :
    Leads start memory' process' := by
  obtain ⟨trace, run⟩ := leads
  exact ⟨_, run.snoc (beside_step scalar moved)⟩

end Beside

/-- A number is written to an element that holds no string. -/
theorem Leads.write {start : TxConfig 2} {memory : TxMemory}
    {process : TxProcess}
    {write : TxWrite} (leads :
      Leads start memory { process with pc := .writeTag write })
    (before : ¬ (memory.tag write.name).type.IsText)
    (scalar : ¬ write.value.type.IsText) :
    ∃ memory', Leads start memory'
        { process with pc := .writeFinish write (memory.tag write.name) } ∧
      memory'.tag write.name = memory.tag write.name ∧
      memory'.word write.name = storedWord write.value := by
  have placing :=
    (leads.step (by simp) (.writeTag rfl)).step (by simp)
      (.writeKeep rfl before)
  have stored :=
    placing.step (fun placed tag same => by cases same; exact scalar)
    (.writeWord rfl scalar)
  refine ⟨_, stored, ?_, ?_⟩
  · simp [TxMemory.tag, TxMemory.setRegion]
  · simp [TxMemory.word, TxMemory.setRegion]

section Refused

/-- What one process alone leads to. -/
def Reaches (start memory : TxMemory) (process : TxProcess) : Prop :=
  ∃ trace, Run (TxStep fun _ => 1) (initialTx 1 start) trace
    ⟨memory, fun _ => process⟩

variable {start memory memory' : TxMemory} {process process' : TxProcess}
  {act : TxAct}

theorem Reaches.step (reaches : Reaches start memory process)
    (moved : TxProgram (fun _ => 1)
      (0 : Fin 1) memory process act memory' process') :
    Reaches start memory' process' := by
  obtain ⟨trace, run⟩ := reaches
  have stepped : TxStep (fun _ => 1) ⟨memory, fun _ => process⟩ (0, act)
      ⟨memory', Function.update (fun _ => process) 0 process'⟩ := .mk moved
  have alone : Function.update (fun _ : Fin 1 => process) 0 process' = fun _ =>
      process' := by
    funext q
    rw [Subsingleton.elim q 0, Function.update_self]
  rw [alone] at stepped
  exact ⟨_, run.snoc stepped⟩

end Refused

end EMS
