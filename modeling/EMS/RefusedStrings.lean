import EMS.KeyMap
import EMS.RmwCalls

/-!
# Strings that the heap cannot hold

A write that needs a string in the heap, and an insertion of a string key, may
be refused by the allocator.  Both return from the middle of their work.
-/

namespace EMS

open SharedProgram

/-! ## Writes of a value -/

section Writes

/-- The ways to write an element. -/
inductive WriteMode where
  | write
  | writeXF
  | writeXE
  | writeEF
  deriving DecidableEq

def WriteMode.initialFE : WriteMode → Option FE
  | .writeEF => some .empty
  | _ => none

def WriteMode.finalFE : WriteMode → Option FE
  | .write => none
  | .writeXE => some .empty
  | .writeXF | .writeEF => some .full

def WriteMode.code [CRuntime] (mode : WriteMode) (array : EmsArray)
    (key value : EMSvalueType)
    (patience : Nat) : EmsProg (Except EMSError Unit) :=
  match mode with
  | .write => EMSwrite patience array key value
  | .writeXF => EMSwriteXF patience array key value
  | .writeXE => EMSwriteXE patience array key value
  | .writeEF => EMSwriteEF patience array key value

theorem WriteMode.code_eq [CRuntime] (mode : WriteMode) (array : EmsArray)
    (key value : EMSvalueType) (patience : Nat) :
    mode.code array key value patience =
      EMSwriteUsingTags patience array key value mode.initialFE
        mode.finalFE := by
  cases mode <;> rfl

/-- The element, its slot in the map and the heap are as they were. -/
structure ElementUnchanged (array : EmsArray) (idx : Int)
    (before after : Ledger) : Prop where
  tag : after.buf.tag (EMSdataCell idx) = before.buf.tag (EMSdataCell idx)
  word : after.buf.word (EMSdataCell idx) = before.buf.word (EMSdataCell idx)
  mapTag : array.isMapped = true →
    after.buf.tag (EMSmapCell array.nElem idx) =
      before.buf.tag (EMSmapCell array.nElem idx)
  live : after.live = before.live
  content : after.buf.heap = before.buf.heap

/-- A live block stands where the element says that its string is. -/
def LiveString (idx : Int) (ledger : Ledger) : Prop :=
  (ledger.buf.tag (EMSdataCell idx)).type.IsText ∧
    ∃ block ∈ ledger.live,
      block.address = heapOffset (ledger.buf.word (EMSdataCell idx))

variable {array : EmsArray} {idx : Int} {ledger after : Ledger}

theorem GivesBack.live_eq {between : Ledger}
    (gives : GivesBack idx
      (ledger.buf.tag (EMSdataCell idx)).type ledger between) :
    between.live = ledger.live ↔ ¬ LiveString idx ledger := by
  rw [GivesBack] at gives
  split at gives
  · next text =>
      obtain ⟨mem, -, rfl⟩ := gives
      simp only [Ledger.freed, List.eraseP_eq_self_iff, decide_eq_true_eq,
        LiveString, text,
        true_and, not_exists, not_and]
  · next other =>
      rw [gives, LiveString]
      simp [other]

theorem GivesBack.word {type : EMSType} {between : Ledger}
    (gives : GivesBack idx type ledger between) :
    between.buf.word = ledger.buf.word := by
  rw [GivesBack] at gives
  split at gives
  · obtain ⟨mem, -, rfl⟩ := gives
    rfl
  · rw [gives]

theorem GivesBack.heap {type : EMSType} {between : Ledger}
    (gives : GivesBack idx type ledger between) :
    between.buf.heap = ledger.buf.heap := by
  rw [GivesBack] at gives
  split at gives
  · obtain ⟨mem, -, rfl⟩ := gives
    rfl
  · rw [gives]

theorem WriteMode.waits (mode : WriteMode) :
    mode.initialFE ≠ none → mode.finalFE ≠ none := by
  cases mode <;> decide

theorem WriteMode.idle (mode : WriteMode) : mode.initialFE ≠ some .busy := by
  cases mode <;> decide

theorem WriteMode.finalFE_eq_none {mode : WriteMode} :
    mode.finalFE = none ↔ mode = .write := by
  cases mode <;> decide

/-- When the heap cannot hold the string that is written to an element, the
element and the heap are left as they were if and only if the write ignores
tags and the element has no live string. -/
theorem refused_write_unchanged [CRuntime] (positive : 0 < array.nElem)
    {key value : EMSvalueType} {mode : WriteMode} {patience : Nat}
    (present : slotSearch array key ledger.buf = .found idx)
    (returned : heapSolo.Returns (mode.code array key value patience) ledger
      (.error .outOfMemory) after) :
    ElementUnchanged array idx ledger after ↔ mode = .write ∧
      ¬ LiveString idx ledger := by
  rw [mode.code_eq] at returned
  obtain ⟨slot, between, taken, continued⟩ :=
    EMSwriteUsingTags_returns positive mode.waits mode.idle returned
  rw [present] at taken
  obtain ⟨rfl, rfl, -⟩ := taken
  split at continued
  · cases continued.1
  · obtain ⟨held, placed, stored, outcome, acquired, gives, storing, ended⟩ :=
      continued
    -- the string has not been stored
    cases outcome with
    | ok => cases ended.1
    | error error =>
        obtain ⟨-, rfl⟩ := ended
        rcases storeValue_returns storing
          with ⟨_, -, -, tag, word, heap, live⟩ | ⟨wrong, -⟩
        · rw [gives.tag] at tag
          rw [gives.word] at word
          rw [gives.heap] at heap
          rw [AcquiredForWrite] at acquired
          split at acquired
          · next untagged =>
              subst acquired
              rw [← gives.live_eq, ← live]
              constructor
              · exact fun unchanged =>
                  ⟨WriteMode.finalFE_eq_none.mp untagged, unchanged.live⟩
              · rintro ⟨-, sameLive⟩
                exact ⟨by
                  rw [tag], by rw [word], fun _ => by rw [tag], sameLive, heap⟩
          · next tagged =>
              obtain ⟨free, -, rfl⟩ := acquired
              constructor
              · intro unchanged
                -- the element is still held
                have busy := unchanged.tag
                rw [tag] at busy
                exact absurd (by rw [← busy]; simp) free
              · rintro ⟨untagged, -⟩
                exact absurd (WriteMode.finalFE_eq_none.mpr untagged) tagged
        · cases wrong

theorem longString_refused :
    let _ := ieeeRuntime
    slotSearch ⟨1, false⟩ (scalar .integer 0) freshLedger.buf = .found 0 ∧
      ∃ after, heapSolo.Returns
          (WriteMode.writeXF.code ⟨1, false⟩ (scalar .integer 0) longString 1)
            freshLedger
          (.error .outOfMemory) after ∧
              (after.buf.tag (EMSdataCell 0)).fe = .busy := by
  intro _
  obtain ⟨result, after, returned, checked⟩ := heapSolo.exists_returns
    (WriteMode.writeXF.code ⟨1, false⟩ (scalar .integer 0) longString 1)
      freshLedger
    (fun played => played.1 = .error .outOfMemory ∧
      (played.2.buf.tag (EMSdataCell 0)).fe = .busy) (by decide +kernel)
  refine ⟨by decide +kernel, after, ?_⟩
  obtain ⟨rfl, busy⟩ := of_decide_eq_true checked
  exact ⟨returned, busy⟩

theorem refused_write_unchanged_long :
    let _ := ieeeRuntime
    ∃ after, ElementUnchanged ⟨1, false⟩ 0 freshLedger after ↔
      WriteMode.writeXF = .write ∧ ¬ LiveString 0 freshLedger := by
  intro _
  obtain ⟨present, after, returned, -⟩ := longString_refused
  exact ⟨after, refused_write_unchanged (by decide) present returned⟩

/-- Already in a fresh array a write that the heap cannot hold leaves the
element held. -/
theorem not_refused_write_unchanged :
    ¬ ∀ [CRuntime] (array : EmsArray) (level : Nat)
      (ledger after : Ledger) (idx : Int)
      (key value : EMSvalueType) (mode : WriteMode) (patience : Nat),
        0 < array.nElem →
      InitialStore array level ledger → value.type.IsText →
      slotSearch array key ledger.buf = .found idx →
      heapSolo.Returns (mode.code array key value patience) ledger
        (.error .outOfMemory) after →
      ElementUnchanged array idx ledger after := by
  intro unchanged
  let _ := ieeeRuntime
  obtain ⟨present, after, returned, busy⟩ := longString_refused
  have same :=
    (unchanged ⟨1, false⟩ 0 freshLedger after 0 (scalar .integer 0)
      longString .writeXF
    1 (by decide) ⟨fun _ _ _ => rfl, rfl, rfl, rfl, rfl⟩ (by decide) present
      returned).tag
  rw [same] at busy
  exact absurd busy (by decide)

end Writes

/-! ## Insertions of a key -/

section Keys

variable [CRuntime] {array : EmsArray} {key : EMSvalueType} {op : KeyedOp}
  {ledger after : Ledger} {slot : Int}

/-- The operation calls `EMSwriteIndexMap`, given what its lookup has found. -/
def KeyedOp.AsksForSlot (array : EmsArray) (key : EMSvalueType) (buf : EmsBuf) :
    KeyedOp → Prop
  | .write _ | .writeXF _ | .writeXE _ | .writeEF _ | .faa _ => True
  | .readFE | .readFF | .readRW => keyIndex array key buf array.isMapped < 0
  | .cas oldValue _ =>
      oldValue.type = .undefined ∧ keyIndex array key buf array.isMapped < 0
  | .read | .releaseRW | .setTag _ => False

/-- `EMSwriteIndexMap` is called and answers a negative index because the heap
cannot hold the key that is to be put into the slot. -/
structure RefusesKey (array : EmsArray) (key : EMSvalueType) (op : KeyedOp)
    (ledger : Ledger)
    (slot : Int) : Prop where
  asks : op.AsksForSlot array key ledger.buf
  free : slotSearch array key ledger.buf = .free slot
  text : key.type = .string
  refused : ¬ Serves ledger.buf.mem (key.length + 1)

/-- The tags and the words of the slots are as they were. -/
def SlotsUnchanged (array : EmsArray) (before after : Ledger) : Prop :=
  ∀ i, 0 ≤ i → i < array.nElem →
    after.buf.tag (EMSmapCell array.nElem i) =
      before.buf.tag (EMSmapCell array.nElem i) ∧
      after.buf.word (EMSmapCell array.nElem i) =
        before.buf.word (EMSmapCell array.nElem i)

theorem RefusesKey.taken
    (refuses : RefusesKey array key op ledger slot) {idx : Int}
    (taken : SlotTaken array key ledger
      (slotSearch array key ledger.buf) idx after) :
    idx < 0 ∧ (ledger.buf.tag (EMSmapCell array.nElem slot)).fe = .full ∧
      KeyRefused array key slot ledger after := by
  rw [refuses.free] at taken
  obtain ⟨full, ⟨rfl, leaves⟩ | ⟨-, inserted⟩⟩ := taken
  · exact ⟨by decide, full, leaves⟩
  · exact absurd (inserted.served refuses.text) refuses.refused

/-- The call fails at once, and leaves what the insertion has left. -/
theorem RefusesKey.leaves (positive : 0 < array.nElem)
    (mapped : array.isMapped = true)
    (refuses : RefusesKey array key op ledger slot) {stack : Tag}
    {patience : Nat}
    {result : KeyedRes}
    (returned : heapSolo.Returns
      (op.code array stack key patience) ledger result after) :
    result.Failed ∧ (ledger.buf.tag (EMSmapCell array.nElem slot)).fe = .full ∧
      KeyRefused array key slot ledger after := by
  have writes : ∀ {mode : WriteMode} {value res},
      heapSolo.Returns (EMSwriteUsingTags patience array key value
        mode.initialFE mode.finalFE)
        ledger res after → KeyedRes.Failed (.written res) ∧
      (ledger.buf.tag (EMSmapCell array.nElem slot)).fe = .full ∧
      KeyRefused array key slot ledger after := by
    intro mode value res wrote
    obtain ⟨idx, between, taken, continued⟩ :=
      EMSwriteUsingTags_returns positive mode.waits mode.idle wrote
    obtain ⟨negative, leaves⟩ := refuses.taken taken
    rw [if_pos negative] at continued
    obtain ⟨rfl, rfl⟩ := continued
    exact ⟨trivial, leaves⟩
  have reads : ∀ {initialFE finalFE res},
      keyIndex array key ledger.buf array.isMapped < 0 →
      finalFE ≠ none →
      heapSolo.Returns (EMSreadUsingTags patience array stack key
        initialFE finalFE)
        ledger res after → KeyedRes.Failed (.value res) ∧
      (ledger.buf.tag (EMSmapCell array.nElem slot)).fe = .full ∧
      KeyRefused array key slot ledger after := by
    intro initialFE finalFE res absent last read
    have continued := EMSreadUsingTags_returns read
    rw [if_pos ⟨mapped, absent⟩, if_neg last] at continued
    obtain ⟨idx, between, searched, ended⟩ := continued
    obtain ⟨negative, leaves⟩ :=
      refuses.taken (EMSwriteIndexMap_returns positive searched)
    rw [if_pos negative] at ended
    obtain ⟨rfl, rfl⟩ := ended
    exact ⟨trivial, leaves⟩
  cases op with
  | read | releaseRW | setTag => exact refuses.asks.elim
  | readFE =>
      obtain ⟨res, read, rfl⟩ := Solo.returns_map_iff.mp returned
      exact @reads (some .full) (some .empty) _ refuses.asks nofun read
  | readFF =>
      obtain ⟨res, read, rfl⟩ := Solo.returns_map_iff.mp returned
      exact @reads (some .full) (some .full) _ refuses.asks nofun read
  | readRW =>
      obtain ⟨res, read, rfl⟩ := Solo.returns_map_iff.mp returned
      exact @reads (some .rwLock) (some .rwLock) _ refuses.asks nofun read
  | write value =>
      obtain ⟨res, wrote, rfl⟩ := Solo.returns_map_iff.mp returned
      exact @writes .write _ _ wrote
  | writeXF value =>
      obtain ⟨res, wrote, rfl⟩ := Solo.returns_map_iff.mp returned
      exact @writes .writeXF _ _ wrote
  | writeXE value =>
      obtain ⟨res, wrote, rfl⟩ := Solo.returns_map_iff.mp returned
      exact @writes .writeXE _ _ wrote
  | writeEF value =>
      obtain ⟨res, wrote, rfl⟩ := Solo.returns_map_iff.mp returned
      exact @writes .writeEF _ _ wrote
  | faa value =>
      obtain ⟨res, added, rfl⟩ := Solo.returns_map_iff.mp returned
      obtain ⟨idx, between, taken, continued⟩ := EMSfaa_returns positive added
      obtain ⟨negative, leaves⟩ := refuses.taken taken
      rw [if_pos (.inl negative)] at continued
      obtain ⟨rfl, rfl⟩ := continued
      exact ⟨trivial, leaves⟩
  | cas oldValue newValue =>
      obtain ⟨undefined, absent⟩ := refuses.asks
      obtain ⟨res, compared, rfl⟩ := Solo.returns_map_iff.mp returned
      have continued := EMScas_returns positive compared
      have inside : ¬ ((¬ array.isMapped = true ∧
          keyIndex array key ledger.buf array.isMapped < 0) ∨
          array.nElem ≤ keyIndex array key ledger.buf array.isMapped) := by
        simp only [mapped, not_true_eq_false, false_and, false_or] at absent ⊢
        omega
      rw [if_neg inside, if_pos ⟨mapped, absent⟩, if_pos undefined] at continued
      obtain ⟨idx, between, taken, ended⟩ := continued
      obtain ⟨negative, leaves⟩ := refuses.taken taken
      rw [if_pos negative] at ended
      obtain ⟨rfl, rfl⟩ := ended
      exact ⟨trivial, leaves⟩

/-- An insertion that the heap cannot hold leaves the slots as they were only
where the search for a slot has left the map. -/
theorem refused_key_rolled_back (positive : 0 < array.nElem)
    (mapped : array.isMapped = true)
    {stack : Tag} {patience : Nat} {result : KeyedRes}
    (returned : heapSolo.Returns
      (op.code array stack key patience) ledger result after) :
    ((∃ slot, RefusesKey array key op ledger slot) →
      SlotsUnchanged array ledger after) ↔
      ∀ slot, RefusesKey array key op ledger slot → slot < 0 := by
  constructor
  · intro unchanged slot refuses
    by_contra inside
    obtain ⟨-, full, leaves⟩ := refuses.leaves positive mapped returned
    have below : slot < array.nElem := by
      have remainder := slotSearch_tmod (.inr (.inr refuses.free))
      rw [← remainder]
      exact Int.tmod_lt_of_pos slot positive
    -- the slot is still held
    have same := (unchanged ⟨slot, refuses⟩ slot (by omega) below).1
    rw [leaves.tag, Function.update_self] at same
    rw [← same] at full
    exact nomatch full
  · rintro outside ⟨slot, refuses⟩ i inside _
    have negative := outside slot refuses
    obtain ⟨-, -, leaves⟩ := refuses.leaves positive mapped returned
    have other : EMSmapCell array.nElem i ≠ EMSmapCell array.nElem slot := by
      rw [Ne, EMSmapCell_inj]
      omega
    rw [leaves.tag, leaves.word, Function.update_of_ne other]
    exact ⟨rfl, rfl⟩

omit [CRuntime] in
theorem longKey_refused :
    let _ := ieeeRuntime
    RefusesKey ⟨1, true⟩ longString (.writeXF (scalar .integer 7))
      freshLedger 0 ∧
      ∃ result after, heapSolo.Returns
          (KeyedOp.code ⟨1, true⟩ ⟨.full, .undefined, 0⟩ longString
            (.writeXF (scalar .integer 7)) 1) freshLedger result after ∧
        (after.buf.tag (EMSmapCell 1 0)).fe = .busy := by
  intro _
  obtain ⟨result, after, returned, busy⟩ := heapSolo.exists_returns
    (KeyedOp.code ⟨1, true⟩ ⟨.full, .undefined, 0⟩ longString
      (.writeXF (scalar .integer 7)) 1)
    freshLedger (fun played => (played.2.buf.tag (EMSmapCell 1 0)).fe = .busy)
      (by decide +kernel)
  exact ⟨⟨trivial, by decide +kernel, rfl, by decide +kernel⟩, result,
    after, returned,
    of_decide_eq_true busy⟩

omit [CRuntime] in
theorem refused_key_rolled_back_long :
    let _ := ieeeRuntime
    ∃ after, ((∃ slot,
        RefusesKey ⟨1, true⟩ longString
        (.writeXF (scalar .integer 7)) freshLedger
        slot) → SlotsUnchanged ⟨1, true⟩ freshLedger after) ↔
      ∀ slot, RefusesKey ⟨1, true⟩ longString (.writeXF (scalar .integer 7))
        freshLedger slot →
        slot < 0 := by
  intro _
  obtain ⟨-, result, after, returned, -⟩ := longKey_refused
  exact ⟨after, refused_key_rolled_back (by decide) rfl returned⟩

omit [CRuntime] in
/-- A fresh map is not left as it was by an insertion that the heap cannot
hold. -/
theorem not_refused_key_rolled_back :
    ¬ ∀ [CRuntime] (array : EmsArray) (stack : Tag) (key : EMSvalueType)
      (op : KeyedOp)
      (patience : Nat) (ledger after : Ledger) (result : KeyedRes),
        0 < array.nElem →
      array.isMapped = true → InitialMap array 0 ledger → key.type = .string →
      heapSolo.Returns (op.code array stack key patience) ledger result after →
      (∃ slot, RefusesKey array key op ledger slot) →
        SlotsUnchanged array ledger after := by
  intro unchanged
  let _ := ieeeRuntime
  obtain ⟨refuses, result, after, returned, busy⟩ := longKey_refused
  have initially : InitialMap ⟨1, true⟩ 0 freshLedger := by
    refine ⟨fun _ _ => ⟨rfl, rfl⟩, storeAfter [],
      InitialStore.holds ⟨?_, rfl, rfl, rfl, rfl⟩, ?_⟩
    · exact fun _ _ _ => rfl
    · exact ⟨fun _ boolean => nomatch boolean⟩
  have same :=
    unchanged ⟨1, true⟩ ⟨.full, .undefined, 0⟩ longString _ 1 freshLedger
      after result
    (by decide) rfl initially rfl returned ⟨0, refuses⟩ 0 le_rfl (by decide)
  rw [same.1] at busy
  exact absurd busy (by decide)

end Keys

end EMS
