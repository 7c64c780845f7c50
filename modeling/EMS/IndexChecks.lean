import EMS.FailedElements

/-!
# The bounds checks of arrays without a map

Every operation checks the index that its key has been turned into.  That index
has been reduced to the array already, so that a check rejects a key only if
the remainder is negative.
-/

namespace EMS

open SharedProgram

section Checks

variable [CRuntime] {array : EmsArray} {key : EMSvalueType} {op : KeyedOp}
  {ledger after : Ledger} {patience : Nat}

/-- No tag and no data word of an element has changed. -/
def ElementsUnchanged (array : EmsArray) (before after : Ledger) : Prop :=
  ∀ i, 0 ≤ i → i < array.nElem →
    after.buf.tag (EMSdataCell i) = before.buf.tag (EMSdataCell i) ∧
      after.buf.word (EMSdataCell i) = before.buf.word (EMSdataCell i)

/-- The key has no number, or the remainder of its number is negative. -/
def HasNoIndex (array : EmsArray) (key : EMSvalueType) : Prop :=
  ∀ start, keyStart key = some start → start.tmod array.nElem < 0

/-- The operation fails on the element and leaves it as it is, for a reason that
has nothing to do with the index. -/
def KeyedOp.FailsAt (idx : Int) (buf : EmsBuf) : KeyedOp → Prop
  | .read => ¬ IsValue (buf.tag (EMSdataCell idx)).type
  | .releaseRW => ¬ ((buf.tag (EMSdataCell idx)).fe = .rwLock ∧
      (buf.tag (EMSdataCell idx)).rw ≠ 0)
  | .write value =>
      ¬ Storable (memWithout idx (buf.tag (EMSdataCell idx)).type buf) value
  | _ => False

private theorem keyIndex_neg_iff {buf : EmsBuf} :
    keyIndex array key buf false < 0 ↔ HasNoIndex array key := by
  rw [keyIndex, HasNoIndex]
  cases started : keyStart key with
  | none => simp
  | some start => simp

/-- Where a key has no index the call returns that it has failed. -/
theorem no_index_code (unmapped : array.isMapped = false)
    (none : HasNoIndex array key)
    (stack : Tag) (op : KeyedOp) :
    ∃ result, result.Failed ∧ op.code array stack key patience =
      pure result := by
  obtain ⟨idx, negative, lookup⟩ :
      ∃ idx < 0, EMSkey2index patience array key false = pure idx := by
    rw [EMSkey2index]
    cases started : keyStart key with
    | none => exact ⟨-1, by decide, rfl⟩
    | some start => exact ⟨start.tmod array.nElem, none start started, rfl⟩
  have slot : EMSwriteIndexMap patience array key = pure (-1) := by
    simp [EMSwriteIndexMap, unmapped, lookup, negative, not_lt_of_gt negative]
  have reads : ∀ initialFE finalFE,
      EMSreadUsingTags patience array stack key initialFE finalFE =
      pure (.error .indexOutOfBounds) := by
    intro initialFE finalFE
    simp [EMSreadUsingTags, unmapped, lookup, negative]
  have writes : ∀ value initialFE finalFE,
      EMSwriteUsingTags patience array key value initialFE finalFE =
        pure (.error .indexOutOfBounds) := by
    intro value initialFE finalFE
    simp [EMSwriteUsingTags, slot]
  cases op with
  | read | readFE | readFF | readRW =>
      exact ⟨.value (.error .indexOutOfBounds), trivial,
        congrArg (KeyedRes.value <$> ·) (reads _ _)⟩
  | write value | writeXF value | writeXE value | writeEF value =>
      exact ⟨.written (.error .indexOutOfBounds), trivial,
        congrArg (KeyedRes.written <$> ·) (writes _ _ _)⟩
  | faa value =>
      have adds : EMSfaa patience array key value =
          pure (.error .indexOutOfBounds) := by
        simp [EMSfaa, slot]
      exact ⟨.value (.error .indexOutOfBounds), trivial,
        congrArg (KeyedRes.value <$> ·) adds⟩
  | cas oldValue newValue =>
      have swaps : EMScas patience array key oldValue newValue =
          pure (.error .indexOutOfBounds) := by
        simp [EMScas, unmapped, lookup, negative]
      exact ⟨.value (.error .indexOutOfBounds), trivial,
        congrArg (KeyedRes.value <$> ·) swaps⟩
  | releaseRW =>
      have releases : EMSreleaseRW patience array key = pure (-1) := by
        simp [EMSreleaseRW, unmapped, lookup, negative]
      exact ⟨.count (-1), neg_one_lt_zero,
        congrArg (KeyedRes.count <$> ·) releases⟩
  | setTag isFull =>
      have sets : EMSsetTag patience array key isFull = pure false := by
        simp [EMSsetTag, unmapped, lookup, negative]
      exact ⟨.done false, rfl, congrArg (KeyedRes.done <$> ·) sets⟩

theorem slotSearch_unmapped (unmapped : array.isMapped = false)
    (positive : 0 < array.nElem)
    {buf : EmsBuf} :
    slotSearch array key buf = if keyIndex array key buf false <
      0 then .exhausted
      else .found (keyIndex array key buf false) := by
  have below := @keyIndex_lt array key _ positive false buf
  rw [slotSearch, unmapped]
  by_cases negative : keyIndex array key buf false < 0
  · rw [if_neg (by omega), if_neg (by simp), if_pos (.inl negative),
      if_pos negative]
  · rw [if_neg negative]
    split
    · rfl
    · rw [if_neg (by simp), if_neg (by omega)]

omit [CRuntime] in
theorem ElementsUnchanged.refl : ElementsUnchanged array ledger ledger :=
  fun _ _ _ => ⟨rfl, rfl⟩

omit [CRuntime] in
theorem not_elementsUnchanged {idx : Int} (inside : 0 ≤ idx)
    (below : idx < array.nElem)
    (changed : after.buf.tag (EMSdataCell idx) ≠ ledger.buf.tag
      (EMSdataCell idx)) :
    ¬ ElementsUnchanged array ledger after :=
  fun unchanged => changed (unchanged idx inside below).1

omit [CRuntime] in
private theorem releaseLoop_returns {idx : Int} {tries : Nat} {count : Int}
    (returned : heapSolo.Returns (releaseLoop idx tries) ledger count after) :
    if (ledger.buf.tag (EMSdataCell idx)).fe = .rwLock ∧
      (ledger.buf.tag (EMSdataCell idx)).rw ≠ 0
      then 0 ≤ count else count = -1 ∧ after = ledger := by
  induction tries with
  | zero => cases returned
  | succ tries induction =>
      simp only [releaseLoop, loadTag_returns] at returned
      split at returned
      · next locked =>
          split at returned
          · next none =>
              rw [if_neg fun both => both.2 none]
              exact Solo.returns_ret_iff.mp returned
          · next some =>
              rw [if_pos ⟨locked, some⟩]
              simp only [casTag_returns, if_true] at returned
              obtain ⟨rfl, -⟩ := Solo.returns_ret_iff.mp returned
              omega
      · next other =>
          split at returned
          · rw [if_neg fun both => other both.1]
            exact Solo.returns_ret_iff.mp returned
          · exact induction returned

theorem unmapped_read (unmapped : array.isMapped = false)
    (positive : 0 < array.nElem)
    {stack : Tag} {initialFE finalFE : Option FE}
    {result : Except EMSError EMSvalueType}
    (returned : heapSolo.Returns
      (EMSreadUsingTags patience array stack key initialFE finalFE)
      ledger result after) :
    if keyIndex array key ledger.buf false < 0 then
      result = .error .indexOutOfBounds ∧ after = ledger
    else heapSolo.Returns
      (readLoop patience array (keyIndex array key ledger.buf false) initialFE
      finalFE patience stack) ledger result after := by
  have continued := EMSreadUsingTags_returns returned
  have below := @keyIndex_lt array key _ positive false ledger.buf
  rw [unmapped] at continued
  rw [if_neg (by simp)] at continued
  split
  · next negative =>
      rw [if_pos (.inl negative)] at continued
      exact continued
  · next inside =>
      rw [if_neg (by omega)] at continued
      exact continued

private theorem rejected_read (unmapped : array.isMapped = false)
    (positive : 0 < array.nElem)
    {stack : Tag} {result : Except EMSError EMSvalueType}
    (returned : heapSolo.Returns
      (EMSread patience array stack key) ledger result after) :
    (∃ error, result = .error error) ∧ ElementsUnchanged array ledger after ↔
      keyIndex array key ledger.buf false < 0 ∨
        KeyedOp.FailsAt (keyIndex array key ledger.buf false)
          ledger.buf .read := by
  have continued := unmapped_read unmapped positive returned
  split at continued
  · next negative =>
      obtain ⟨rfl, rfl⟩ := continued
      exact iff_of_true ⟨⟨_, rfl⟩, .refl⟩ (.inl negative)
  · next inside =>
      rw [or_iff_right inside]
      obtain ⟨-, reading⟩ := readLoop_returns positive continued
      have read := readElement_returns reading
      split at read
      · next isValue =>
          obtain ⟨⟨value, rfl, -⟩, -⟩ := read
          refine iff_of_false ?_ fun unknown => unknown isValue
          rintro ⟨⟨_, wrong⟩, -⟩
          exact nomatch wrong
      · next unknown =>
          obtain ⟨rfl, rfl⟩ := read
          exact iff_of_true ⟨⟨_, rfl⟩, .refl⟩ unknown

theorem rejected_waiting_read (unmapped : array.isMapped = false)
    (positive : 0 < array.nElem)
    {fe : FE} {finalFE : Option FE} (waits : fe = .full ∨ fe = .rwLock)
    {stack : Tag}
    {result : Except EMSError EMSvalueType}
    (returned : heapSolo.Returns
      (EMSreadUsingTags patience array stack key (some fe) finalFE)
      ledger result after) :
    (∃ error, result = .error error) ∧ ElementsUnchanged array ledger after ↔
      keyIndex array key ledger.buf false < 0 := by
  have continued := unmapped_read unmapped positive returned
  have below := @keyIndex_lt array key _ positive false ledger.buf
  split at continued
  · next negative =>
      obtain ⟨rfl, rfl⟩ := continued
      exact iff_of_true ⟨⟨_, rfl⟩, .refl⟩ negative
  · next inside =>
      refine iff_of_false ?_ inside
      rintro ⟨⟨error, rfl⟩, unchanged⟩
      have read := readLoop_fails positive waits continued
      split at read
      · obtain ⟨_, wrong⟩ := read
        exact nomatch wrong
      · exact not_elementsUnchanged (by omega) below read.2 unchanged

private theorem rejected_release (unmapped : array.isMapped = false)
    (positive : 0 < array.nElem)
    {count : Int} (returned :
      heapSolo.Returns (EMSreleaseRW patience array key) ledger count after) :
    count < 0 ∧ ElementsUnchanged array ledger after ↔
      keyIndex array key ledger.buf false < 0 ∨
        KeyedOp.FailsAt (keyIndex array key ledger.buf false) ledger.buf
          .releaseRW := by
  have below := @keyIndex_lt array key _ positive false ledger.buf
  rw [EMSreleaseRW, unmapped] at returned
  obtain ⟨_, _, looked, continued⟩ := Solo.returns_bind_iff.mp returned
  obtain ⟨rfl, rfl⟩ := EMSkey2index_returns looked
  split at continued
  · next outside =>
      obtain ⟨rfl, rfl⟩ := Solo.returns_ret_iff.mp continued
      exact iff_of_true ⟨by decide, .refl⟩ (.inl (by omega))
  · next inside =>
      rw [or_iff_right (by omega)]
      have released := releaseLoop_returns continued
      split at released
      · next locked =>
          refine iff_of_false ?_ fun unlocked => unlocked locked
          rintro ⟨negative, -⟩
          omega
      · next unlocked =>
          obtain ⟨rfl, rfl⟩ := released
          exact iff_of_true ⟨by decide, .refl⟩ unlocked

private theorem rejected_setTag (unmapped : array.isMapped = false)
    (positive : 0 < array.nElem)
    {isFull done : Bool}
    (returned : heapSolo.Returns
      (EMSsetTag patience array key isFull) ledger done after) :
    done = false ∧ ElementsUnchanged array ledger after ↔
      keyIndex array key ledger.buf false < 0 := by
  have below := @keyIndex_lt array key _ positive false ledger.buf
  rw [EMSsetTag, unmapped] at returned
  obtain ⟨_, _, looked, continued⟩ := Solo.returns_bind_iff.mp returned
  obtain ⟨rfl, rfl⟩ := EMSkey2index_returns looked
  split at continued
  · next outside =>
      obtain ⟨rfl, rfl⟩ := Solo.returns_ret_iff.mp continued
      exact iff_of_true ⟨rfl, .refl⟩ (by omega)
  · next inside =>
      simp only [loadTag_returns, storeTag_returns] at continued
      obtain ⟨rfl, rfl⟩ := Solo.returns_ret_iff.mp continued
      refine iff_of_false ?_ (by omega)
      rintro ⟨wrong, -⟩
      exact nomatch wrong

theorem rejected_write (unmapped : array.isMapped = false)
    (positive : 0 < array.nElem)
    {mode : WriteMode} {value : EMSvalueType} {result : Except EMSError Unit}
    (returned : heapSolo.Returns
      (mode.code array key value patience) ledger result after) :
    (∃ error, result = .error error) ∧ ElementsUnchanged array ledger after ↔
      keyIndex array key ledger.buf false < 0 ∨ mode = .write ∧
        KeyedOp.FailsAt (keyIndex array key ledger.buf false) ledger.buf
          (.write value) := by
  have below := @keyIndex_lt array key _ positive false ledger.buf
  rw [mode.code_eq] at returned
  obtain ⟨slot, between, taken, continued⟩ :=
    EMSwriteUsingTags_returns positive mode.waits mode.idle returned
  rw [slotSearch_unmapped unmapped positive] at taken
  by_cases negative : keyIndex array key ledger.buf false < 0
  · rw [if_pos negative] at taken
    obtain ⟨rfl, rfl⟩ := taken
    rw [if_pos (by decide)] at continued
    obtain ⟨rfl, rfl⟩ := continued
    exact iff_of_true ⟨⟨_, rfl⟩, .refl⟩ (.inl negative)
  · rw [if_neg negative] at taken
    obtain ⟨rfl, rfl, -⟩ := taken
    rw [if_neg negative] at continued
    rw [or_iff_right negative]
    obtain ⟨held, placed, stored, outcome, acquired, gives, storing, ended⟩ :=
      continued
    have mem := gives.mem
    rcases storeValue_returns storing with
      ⟨error, rfl, reason, tag, word, -⟩ | ⟨rfl, isValue, served, -⟩
    · obtain ⟨rfl, rfl⟩ := ended
      rw [gives.tag] at tag
      rw [gives.word] at word
      by_cases untagged : mode.finalFE = none
      · rw [AcquiredForWrite, if_pos untagged] at acquired
        subst acquired
        refine iff_of_true ⟨⟨error, rfl⟩, fun _ _ _ => by
          rw [tag, word]; exact ⟨rfl, rfl⟩⟩
          ⟨WriteMode.finalFE_eq_none.mp untagged, fun storable => ?_⟩
        rw [← mem] at storable
        rcases reason with ⟨text, -, refused⟩ | ⟨unknown, -⟩
        · exact refused (storable.2 text)
        · exact unknown storable.1
      · rw [AcquiredForWrite, if_neg untagged] at acquired
        obtain ⟨free, -, rfl⟩ := acquired
        refine iff_of_false ?_ fun both =>
          untagged (WriteMode.finalFE_eq_none.mpr both.1)
        rintro ⟨-, unchanged⟩
        -- the element is still held
        refine not_elementsUnchanged (by omega) below ?_ unchanged
        intro same
        rw [tag] at same
        exact free (by rw [← same]; simp)
    · obtain ⟨rfl, -⟩ := ended
      refine iff_of_false ?_ ?_
      · rintro ⟨⟨_, wrong⟩, -⟩
        cases wrong
      · rintro ⟨rfl, refused⟩
        rw [AcquiredForWrite,
          if_pos (WriteMode.finalFE_eq_none.mpr rfl)] at acquired
        subst acquired
        apply refused
        rw [← mem]
        exact ⟨isValue, served⟩

theorem rejected_faa (unmapped : array.isMapped = false)
    (positive : 0 < array.nElem)
    {value : EMSvalueType} {result : Except EMSError EMSvalueType}
    (returned : heapSolo.Returns
      (EMSfaa patience array key value) ledger result after) :
    (∃ error, result = .error error) ∧ ElementsUnchanged array ledger after ↔
      keyIndex array key ledger.buf false < 0 := by
  have below := @keyIndex_lt array key _ positive false ledger.buf
  obtain ⟨slot, between, taken, continued⟩ := EMSfaa_returns positive returned
  rw [slotSearch_unmapped unmapped positive] at taken
  by_cases negative : keyIndex array key ledger.buf false < 0
  · rw [if_pos negative] at taken
    obtain ⟨rfl, rfl⟩ := taken
    rw [if_pos (.inl (by decide))] at continued
    obtain ⟨rfl, rfl⟩ := continued
    exact iff_of_true ⟨⟨_, rfl⟩, .refl⟩ negative
  · rw [if_neg negative] at taken
    obtain ⟨rfl, rfl, -⟩ := taken
    rw [if_neg (by omega)] at continued
    obtain ⟨full, sum, summed, adding, ended⟩ := continued
    refine iff_of_false ?_ negative
    rintro ⟨⟨error, rfl⟩, unchanged⟩
    cases sum with
    | error error' =>
        obtain ⟨-, rfl⟩ := ended
        refine not_elementsUnchanged (by omega) below ?_ unchanged
        intro same
        rw [faaElement_tag adding, Ledger.setTag_buf, EmsBuf.setTag_tag,
          Function.update_self] at same
        rw [← same] at full
        exact nomatch full
    | ok pair => exact nomatch ended.1

private theorem rejected_cas (unmapped : array.isMapped = false)
    (positive : 0 < array.nElem)
    {oldValue newValue : EMSvalueType} {result : Except EMSError EMSvalueType}
    (returned : heapSolo.Returns (EMScas patience array key oldValue newValue)
      ledger result after) :
    (∃ error, result = .error error) ∧ ElementsUnchanged array ledger after ↔
      keyIndex array key ledger.buf false < 0 := by
  have below := @keyIndex_lt array key _ positive false ledger.buf
  have continued := EMScas_returns positive returned
  simp only [unmapped] at continued
  by_cases negative : keyIndex array key ledger.buf false < 0
  · rw [if_pos (.inl ⟨nofun, negative⟩)] at continued
    obtain ⟨rfl, rfl⟩ := continued
    exact iff_of_true ⟨⟨_, rfl⟩, .refl⟩ negative
  · rw [if_neg (by omega), if_neg fun both => negative both.2] at continued
    refine iff_of_false ?_ negative
    rintro ⟨⟨error, rfl⟩, unchanged⟩
    obtain ⟨full, tag⟩ := (casElement_fails positive continued).2 error rfl
    refine not_elementsUnchanged (by omega) below ?_ unchanged
    intro same
    rw [tag, Function.update_self] at same
    rw [← same] at full
    exact nomatch full

theorem integer_index {i : Int} {buf : EmsBuf}
    (inside : 0 ≤ keyIndex array (scalar .integer i) buf false) :
    keyIndex array (scalar .integer i) buf false = |i| % array.nElem := by
  have index : keyIndex array (scalar .integer i) buf false =
    (llabs i).tmod array.nElem := rfl
  rw [index] at inside ⊢
  rw [llabs] at inside ⊢
  split at inside
  · next least =>
      -- the least integer has no absolute value, and its remainder is not
      -- positive
      have zero : (2 ^ 63 : Int).tmod array.nElem = 0 := by
        have above :=
          Int.tmod_nonneg array.nElem (show (0 : Int) ≤ 2 ^ 63 by norm_num)
        rw [least, Int.neg_tmod] at inside
        omega
      rw [if_pos least, least, Int.neg_tmod, zero, abs_neg,
        abs_of_pos (by norm_num),
        ← Int.tmod_eq_emod_of_nonneg (by norm_num), zero, neg_zero]
  · next other =>
      rw [if_neg other, Int.tmod_eq_emod_of_nonneg (abs_nonneg i)]

/-- A call on an array without a map is rejected without effect if and only if
the key has no index, or the call fails on the element that it is given.
Integers whose absolute values differ by a multiple of the size have the same
element. -/
theorem outside_rejected (unmapped : array.isMapped = false)
    (positive : 0 < array.nElem)
    {stack : Tag} {result : KeyedRes}
    (returned : heapSolo.Returns
      (op.code array stack key patience) ledger result after) :
    (result.Failed ∧ ElementsUnchanged array ledger after ↔
      HasNoIndex array key ∨
        op.FailsAt (keyIndex array key ledger.buf false) ledger.buf) ∧
    ∀ i j, 0 ≤ keyIndex array (scalar .integer i) ledger.buf false →
      0 ≤ keyIndex array (scalar .integer j) ledger.buf false →
      (keyIndex array (scalar .integer i) ledger.buf false =
        keyIndex array (scalar .integer j) ledger.buf false ↔
          array.nElem ∣ |i| - |j|) := by
  constructor
  · rw [← @keyIndex_neg_iff _ array key ledger.buf]
    cases op with
    | read =>
        obtain ⟨res, read, rfl⟩ := Solo.returns_map_iff.mp returned
        rw [KeyedRes.failed_value]
        exact rejected_read unmapped positive read
    | readFE =>
        obtain ⟨res, read, rfl⟩ := Solo.returns_map_iff.mp returned
        simp only [KeyedRes.failed_value, KeyedOp.FailsAt, or_false]
        exact rejected_waiting_read unmapped positive (.inl rfl) read
    | readFF =>
        obtain ⟨res, read, rfl⟩ := Solo.returns_map_iff.mp returned
        simp only [KeyedRes.failed_value, KeyedOp.FailsAt, or_false]
        exact rejected_waiting_read unmapped positive (.inl rfl) read
    | readRW =>
        obtain ⟨res, read, rfl⟩ := Solo.returns_map_iff.mp returned
        simp only [KeyedRes.failed_value, KeyedOp.FailsAt, or_false]
        exact rejected_waiting_read unmapped positive (.inr rfl) read
    | releaseRW =>
        obtain ⟨count, released, rfl⟩ := Solo.returns_map_iff.mp returned
        exact rejected_release unmapped positive released
    | write value =>
        obtain ⟨res, wrote, rfl⟩ := Solo.returns_map_iff.mp returned
        rw [KeyedRes.failed_written]
        simpa using @rejected_write _ array key ledger after patience unmapped
          positive .write
          value res wrote
    | writeXF value =>
        obtain ⟨res, wrote, rfl⟩ := Solo.returns_map_iff.mp returned
        simp only [KeyedRes.failed_written, KeyedOp.FailsAt]
        simpa using @rejected_write _ array key ledger after patience unmapped
          positive .writeXF
          value res wrote
    | writeXE value =>
        obtain ⟨res, wrote, rfl⟩ := Solo.returns_map_iff.mp returned
        simp only [KeyedRes.failed_written, KeyedOp.FailsAt]
        simpa using @rejected_write _ array key ledger after patience unmapped
          positive .writeXE
          value res wrote
    | writeEF value =>
        obtain ⟨res, wrote, rfl⟩ := Solo.returns_map_iff.mp returned
        simp only [KeyedRes.failed_written, KeyedOp.FailsAt]
        simpa using @rejected_write _ array key ledger after patience unmapped
          positive .writeEF
          value res wrote
    | faa value =>
        obtain ⟨res, added, rfl⟩ := Solo.returns_map_iff.mp returned
        simp only [KeyedRes.failed_value, KeyedOp.FailsAt, or_false]
        exact rejected_faa unmapped positive added
    | cas oldValue newValue =>
        obtain ⟨res, compared, rfl⟩ := Solo.returns_map_iff.mp returned
        simp only [KeyedRes.failed_value, KeyedOp.FailsAt, or_false]
        exact rejected_cas unmapped positive compared
    | setTag isFull =>
        obtain ⟨done, set, rfl⟩ := Solo.returns_map_iff.mp returned
        simp only [KeyedRes.Failed, KeyedOp.FailsAt, or_false]
        exact rejected_setTag unmapped positive set
  · intro i j insideFirst insideSecond
    rw [integer_index insideFirst, integer_index insideSecond,
      Int.emod_eq_emod_iff_emod_sub_eq_zero, Int.dvd_iff_emod_eq_zero]

end Checks

section CheckRuns

/-- The key is no integer that is an index of an element. -/
def OutsideArray (array : EmsArray) (key : EMSvalueType) : Prop :=
  ¬ (key.type = .integer ∧ 0 ≤ key.value ∧ key.value < array.nElem)

/-- A write has stored its value. -/
def KeyedRes.isWritten : KeyedRes → Bool
  | .written (.ok ()) => true
  | _ => false

theorem fifth_written :
    let _ := ieeeRuntime
    ∃ result after, heapSolo.Returns
        (KeyedOp.code ⟨1, false⟩ ⟨.full, .undefined, 0⟩
        (scalar .integer 5) (.writeXF (scalar .integer 7)) 1) freshLedger
          result after ∧
      ¬ result.Failed := by
  intro _
  obtain ⟨result, after, returned, checked⟩ := heapSolo.exists_returns
    (KeyedOp.code ⟨1, false⟩ ⟨.full, .undefined, 0⟩ (scalar .integer 5)
      (.writeXF (scalar .integer 7)) 1) freshLedger
    (fun played => played.1.isWritten) (by decide +kernel)
  refine ⟨result, after, returned, fun failed => ?_⟩
  cases result with
  | written written =>
      cases written with
      | ok => exact failed
      | error error => simp [KeyedRes.isWritten] at checked
  | _ => simp [KeyedRes.isWritten] at checked

theorem outside_rejected_fifth :
    let _ := ieeeRuntime
    ∃ (result : KeyedRes) (after : Ledger),
      (result.Failed ∧ ElementsUnchanged ⟨1, false⟩ freshLedger after ↔
        HasNoIndex ⟨1, false⟩ (scalar .integer 5) ∨
          KeyedOp.FailsAt (keyIndex ⟨1, false⟩ (scalar .integer 5)
            freshLedger.buf false)
            freshLedger.buf (.writeXF (scalar .integer 7))) ∧
      ∀ i j, 0 ≤ keyIndex ⟨1, false⟩ (scalar .integer i) freshLedger.buf false →
        0 ≤ keyIndex ⟨1, false⟩ (scalar .integer j) freshLedger.buf false →
        (keyIndex ⟨1, false⟩ (scalar .integer i) freshLedger.buf false =
          keyIndex ⟨1, false⟩ (scalar .integer j) freshLedger.buf false ↔
              (1 : Int) ∣ |i| - |j|) := by
  intro _
  obtain ⟨result, after, returned, -⟩ := fifth_written
  exact ⟨result, after, outside_rejected rfl (by decide) returned⟩

/-- An array of one element can be written by an index that is too large. -/
theorem not_outside_rejected :
    ¬ ∀ [CRuntime] (array : EmsArray) (stack : Tag) (key : EMSvalueType)
      (op : KeyedOp)
      (patience : Nat) (ledger after : Ledger) (result : KeyedRes),
        0 < array.nElem →
      array.isMapped = false → OutsideArray array key →
      heapSolo.Returns (op.code array stack key patience) ledger result after →
      result.Failed ∧ ElementsUnchanged array ledger after := by
  intro rejected
  let _ := ieeeRuntime
  obtain ⟨result, after, returned, written⟩ := fifth_written
  have outside : OutsideArray ⟨1, false⟩ (scalar .integer 5) := by
    rintro ⟨-, -, below⟩
    exact absurd below (by decide)
  exact written (rejected _ _ _ _ 1 _ after result (by decide) rfl
    outside returned).1

end CheckRuns

end EMS
