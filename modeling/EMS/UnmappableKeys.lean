import EMS.CasFrame
import EMS.IndexChecks

/-!
# Keys that cannot be mapped

`EMSkey2index` answers -1 to a key that has no number.  A lookup takes that for
an absent key.  An insertion takes it for the number of the key: it looks at
slot -1, which is the last element, and from there at the first slots of the
map.
-/

namespace EMS

open SharedProgram

/-! ## The slot that is taken -/

section Slots

variable [CRuntime] {array : EmsArray} {key : EMSvalueType} {slot : Int}
  {ledger between after : Ledger}

/-- The elements, the slots of the map and the heap are as they were. -/
structure MapUnchanged (array : EmsArray) (before after : Ledger) : Prop where
  elements : ElementsUnchanged array before after
  slots : SlotsUnchanged array before after
  live : after.live = before.live
  content : after.buf.heap = before.buf.heap

omit [CRuntime] in
theorem MapUnchanged.refl : MapUnchanged array ledger ledger :=
  ⟨.refl, fun _ _ _ => ⟨rfl, rfl⟩, rfl, rfl⟩

/-- The call fails or returns undefined. -/
def KeyedRes.UndefinedOrFailed (res : KeyedRes) : Prop :=
  res.Failed ∨ ∃ value, res = .value (.ok value) ∧ value.type = .undefined

/-- The slot has the key's type and word already, as far as it is given any. -/
def ReusesSlot (array : EmsArray) (key : EMSvalueType) (buf : EmsBuf)
    (slot : Int) : Prop :=
  slotSearch array key buf = .kept slot ∨
    slotSearch array key buf = .free slot ∧ key.type = .undefined ∧
      buf.word (EMSmapCell array.nElem slot) = 0xdeadbeef

theorem ReusesSlot.ends {buf : EmsBuf}
    (reuses : ReusesSlot array key buf slot) :
    (slotSearch array key buf).At slot := by
  rcases reuses with kept | ⟨free, -⟩
  · exact .inr (.inl kept)
  · exact .inr (.inr free)

theorem keyIndex_keyless (keyless : keyStart key = none) {isMapped : Bool}
    {buf : EmsBuf} :
    keyIndex array key buf isMapped = -1 := by
  simp only [keyIndex, keyless]

omit [CRuntime] in
theorem keyless_type (keyless : keyStart key = none) :
    key.type ≠ .boolean ∧ key.type ≠ .integer ∧ key.type ≠ .float ∧
      key.type ≠ .string := by
  rw [keyStart] at keyless
  cases type : key.type <;> simp [type] at keyless ⊢

theorem writeSearch_keyless (keyless : keyStart key = none) {buf : EmsBuf}
    {tries : Nat} {idx : Int} :
    writeSearch array key buf tries idx ≠ .found slot ∧
      (writeSearch array key buf tries idx = .free slot →
        (buf.tag (EMSmapCell array.nElem slot)).type = .undefined) := by
  induction tries generalizing idx with
  | zero => simp [writeSearch]
  | succ tries induction =>
      rw [writeSearch]
      split
      · next free =>
          refine ⟨by simp, ?_⟩
          rintro ⟨⟩
          exact free
      · split
        · next finds =>
            have types := keyless_type keyless
            rw [writeFinds] at finds
            split at finds
            · next same =>
                rw [same]
                cases type : key.type <;> simp_all
            · cases finds
        · exact induction

theorem slotSearch_keyless (keyless : keyStart key = none)
    (mapped : array.isMapped = true)
    {buf : EmsBuf} : slotSearch array key buf =
      writeSearch array key buf MAX_OPEN_HASH_STEPS (-1) := by
  rw [slotSearch, keyIndex_keyless keyless, keyIndex_keyless keyless,
    if_neg (by decide),
    if_pos mapped]

/-- The slot is held for the key. -/
structure HoldsSlot (array : EmsArray) (key : EMSvalueType) (slot : Int)
    (ledger between : Ledger) :
    Prop where
  full : (ledger.buf.tag (EMSmapCell array.nElem slot)).fe = .full
  busy : (between.buf.tag (EMSmapCell array.nElem slot)).fe = .busy
  others : ∀ cell, cell ≠ EMSmapCell array.nElem slot →
    between.buf.tag cell = ledger.buf.tag cell ∧ between.buf.word cell =
      ledger.buf.word cell
  live : between.live = ledger.live
  content : between.buf.heap = ledger.buf.heap
  reuses : { between.buf.tag (EMSmapCell array.nElem slot) with fe := .full } =
      ledger.buf.tag (EMSmapCell array.nElem slot) ∧
    between.buf.word (EMSmapCell array.nElem slot) =
      ledger.buf.word (EMSmapCell array.nElem slot) ↔
        ReusesSlot array key ledger.buf slot

/-- A key that cannot be mapped is given the slot where the search ends. -/
theorem SlotTaken.holds (keyless : keyStart key = none)
    (mapped : array.isMapped = true) {idx : Int}
    (taken : SlotTaken array key ledger
      (slotSearch array key ledger.buf) idx between)
    (takes : slotSearch array key ledger.buf = .kept slot ∨
      slotSearch array key ledger.buf = .free slot) :
    idx = slot ∧ HoldsSlot array key slot ledger between := by
  have others : ∀ cell, cell ≠ EMSmapCell array.nElem slot →
      between.buf.tag cell = ledger.buf.tag cell ∧
        between.buf.word cell = ledger.buf.word cell := by
    intro cell different
    apply taken.others
    intro slot' takes'
    rwa [SlotSearch.At.unique (.inr takes') (.inr takes)]
  obtain ⟨-, full, busy⟩ := taken.held takes
  rcases takes with kept | free
  · rw [kept] at taken
    obtain ⟨rfl, -, rfl⟩ := taken
    refine ⟨rfl, full, busy, others, rfl, rfl, ?_⟩
    have same : { ledger.buf.tag (EMSmapCell array.nElem idx)
        with fe := .full } =
        ledger.buf.tag (EMSmapCell array.nElem idx) := by
      rw [← full]
    simp [ReusesSlot, kept, same]
  · have undefined : (ledger.buf.tag (EMSmapCell array.nElem slot)).type =
        .undefined := by
      rw [slotSearch_keyless keyless mapped] at free
      exact (writeSearch_keyless keyless).2 free
    rw [free] at taken
    obtain ⟨-, ⟨-, refused⟩ | ⟨rfl, inserted⟩⟩ := taken
    · exact absurd refused.text (keyless_type keyless).2.2.2
    · obtain ⟨quiet, word⟩ := inserted.quiet (keyless_type keyless).2.2.2
      refine ⟨rfl, full, busy, others, ?_, ?_, ?_⟩
      · rw [quiet]
      · rw [quiet]
      · have same : { claimedTag (ledger.buf.tag (EMSmapCell array.nElem idx))
            key with fe := .full } =
            ledger.buf.tag (EMSmapCell array.nElem idx) ↔
                key.type = .undefined := by
          constructor
          · intro equal
            rw [← undefined, ← equal]
            rfl
          · intro type
            rw [claimedTag, type, ← undefined, ← full]
        rw [inserted.tag, Function.update_self, word, same, ReusesSlot, free,
          or_iff_right (by simp),
          and_iff_right rfl]
        refine and_congr_right fun type => ?_
        rw [insertedWord, type]
        exact eq_comm

/-- A slot that is still held is not as it was, be it one of the map or, before
the first one, the last element. -/
theorem HoldsSlot.changed (holds : HoldsSlot array key slot ledger between)
    (above : -array.nElem < slot) (below : slot < array.nElem)
    (busy : (after.buf.tag (EMSmapCell array.nElem slot)).fe = .busy) :
    ¬ MapUnchanged array ledger after := by
  intro unchanged
  have same : after.buf.tag (EMSmapCell array.nElem slot) =
      ledger.buf.tag (EMSmapCell array.nElem slot) := by
    by_cases inside : 0 ≤ slot
    · exact (unchanged.slots slot inside below).1
    · rw [EMSmapCell_eq]
      exact (unchanged.elements (slot + array.nElem) (by omega) (by omega)).1
  rw [same, holds.full] at busy
  exact nomatch busy

/-- What is left when the slot has been released. -/
theorem HoldsSlot.unchanged_iff
    (holds : HoldsSlot array key slot ledger between)
    (inside : 0 ≤ slot) (below : slot < array.nElem)
    (mapTag : after.buf.tag (EMSmapCell array.nElem slot) =
      { between.buf.tag (EMSmapCell array.nElem slot) with fe := .full })
    (mapWord : after.buf.word (EMSmapCell array.nElem slot) =
      between.buf.word (EMSmapCell array.nElem slot))
    (others : ∀ cell, cell ≠ EMSmapCell array.nElem slot →
      cell ≠ EMSdataCell slot →
      after.buf.tag cell = between.buf.tag cell ∧ after.buf.word cell =
        between.buf.word cell) :
    MapUnchanged array ledger after ↔ ReusesSlot array key ledger.buf slot ∧
      after.buf.tag (EMSdataCell slot) = ledger.buf.tag (EMSdataCell slot) ∧
      after.buf.word (EMSdataCell slot) = ledger.buf.word (EMSdataCell slot) ∧
      after.live = ledger.live ∧ after.buf.heap = ledger.buf.heap := by
  rw [← holds.reuses, ← mapTag, ← mapWord]
  constructor
  · intro unchanged
    exact ⟨unchanged.slots slot inside below,
      (unchanged.elements slot inside below).1,
      (unchanged.elements slot inside below).2, unchanged.live,
      unchanged.content⟩
  · rintro ⟨map, tag, word, live, content⟩
    have rest : ∀ cell, cell ≠ EMSmapCell array.nElem slot →
        cell ≠ EMSdataCell slot →
        after.buf.tag cell = ledger.buf.tag cell ∧ after.buf.word cell =
            ledger.buf.word cell := by
      intro cell notMap notData
      rw [(others cell notMap notData).1, (others cell notMap notData).2]
      exact holds.others cell notMap
    refine ⟨?_, ?_, live, content⟩
    · intro i _ inArray
      by_cases here : i = slot
      · rw [here]
        exact ⟨tag, word⟩
      · refine rest _ ?_ (by rwa [Ne, EMSdataCell_inj])
        rw [EMSmapCell_eq, Ne, EMSdataCell_inj]
        omega
    · intro i outside _
      by_cases here : i = slot
      · rw [here]
        exact map
      · refine rest _ (by rwa [Ne, EMSmapCell_inj]) ?_
        rw [EMSmapCell_eq, Ne, EMSdataCell_inj]
        omega

/-- The search for a slot fails at once, or holds a slot, perhaps the one before
the first. -/
theorem SlotTaken.cases (keyless : keyStart key = none)
    (mapped : array.isMapped = true)
    (positive : 0 < array.nElem) {idx : Int}
    (taken : SlotTaken array key ledger
      (slotSearch array key ledger.buf) idx between) :
    slotSearch array key ledger.buf = .exhausted ∧ idx = -1 ∧ between = ledger ∨
      (slotSearch array key ledger.buf).At idx ∧ -array.nElem < idx ∧
        idx < array.nElem ∧
        HoldsSlot array key idx ledger between := by
  by_cases none : slotSearch array key ledger.buf = .exhausted
  · rw [none] at taken
    exact .inl ⟨none, taken⟩
  · obtain ⟨slot, ends⟩ := SlotSearch.ends_of_ne none
    have lower : -array.nElem < slot := by
      rw [← slotSearch_tmod ends]
      exact Int.lt_tmod_of_pos slot positive
    have takes := ends.resolve_left fun found => by
      rw [slotSearch_keyless keyless mapped] at found
      exact (writeSearch_keyless keyless).1 found
    obtain ⟨rfl, holds⟩ := taken.holds keyless mapped takes
    exact .inr ⟨ends, lower, slotSearch_lt positive ends, holds⟩

end Slots

/-! ## The operations -/

section Finished

variable {array : EmsArray} {slot : Int} {ledger : Ledger}
  {initialFE : Option FE} {fe last : FE}
  {newTag : Tag}

@[simp] theorem finished_word :
    (Ledger.finished array slot (some last) newTag
      (ledger.heldForRead slot (some fe))).buf.word =
      ledger.buf.word := by
  simp [Ledger.finished, Ledger.heldForRead]

@[simp] theorem finished_live :
    (Ledger.finished array slot (some last) newTag
      (ledger.heldForRead slot (some fe))).live =
      ledger.live := by
  simp [Ledger.finished, Ledger.heldForRead]

@[simp] theorem finished_heap :
    (Ledger.finished array slot (some last) newTag
      (ledger.heldForRead slot (some fe))).buf.heap =
      ledger.buf.heap := by
  simp [Ledger.finished, Ledger.heldForRead]

private theorem finished_tag (positive : 0 < array.nElem) :
    (Ledger.finished array slot (some last) newTag
      (ledger.heldForRead slot (some fe))).buf.tag
      (EMSdataCell slot) = { newTag with fe := last } := by
  simp [Ledger.finished, Ledger.released_tag positive]

private theorem finished_mapTag (positive : 0 < array.nElem)
    (mapped : array.isMapped = true) :
    (Ledger.finished array slot (some last) newTag
      (ledger.heldForRead slot (some fe))).buf.tag
      (EMSmapCell array.nElem slot) =
        { ledger.buf.tag (EMSmapCell array.nElem slot) with fe := .full } := by
  have apart : EMSdataCell slot ≠ EMSmapCell array.nElem slot :=
    data_cell_ne_map positive
  simp [Ledger.finished, Ledger.heldForRead, Ledger.released,
    mapped, apart.symm]

private theorem finished_others (mapped : array.isMapped = true) :
    ∀ cell, cell ≠ EMSmapCell array.nElem slot → cell ≠ EMSdataCell slot →
      (Ledger.finished array slot (some last) newTag
          (ledger.heldForRead slot (some fe))).buf.tag cell =
            ledger.buf.tag cell ∧
        (Ledger.finished array slot (some last) newTag
          (ledger.heldForRead slot (some fe))).buf.word cell =
            ledger.buf.word cell := by
  intro cell notMap notData
  simp [Ledger.finished, Ledger.heldForRead, Ledger.released, mapped,
    notMap, notData]

private theorem heldForRead_eq_iff {stack tag : Tag}
    (waits : fe = .full ∨ fe = .rwLock)
    (may : mayRead (some fe) tag stack = true) :
    { heldForRead (some fe) tag with fe := last } = tag ↔ fe = .full ∧
      last = .full := by
  obtain ⟨found, type, rw⟩ := tag
  rcases waits with rfl | rfl
  · have full : found = .full := by simpa [mayRead] using may
    simp [heldForRead, full]
  · simp only [heldForRead, Tag.mk.injEq, if_true, reduceCtorEq,
      false_and, iff_false]
    rintro ⟨-, -, counted⟩
    omega

end Finished

section Operations

variable [CRuntime] {array : EmsArray} {key : EMSvalueType}
  {ledger after : Ledger}
  {patience : Nat} (keyless : keyStart key = none)
    (mapped : array.isMapped = true)
  (positive : 0 < array.nElem)
include keyless mapped positive

theorem unmappable_read {fe last : FE} (waits : fe = .full ∨ fe = .rwLock)
    {stack : Tag}
    {result : Except EMSError EMSvalueType}
    (returned : heapSolo.Returns
      (EMSreadUsingTags patience array stack key (some fe) (some last))
      ledger result after) :
    (KeyedRes.value result).UndefinedOrFailed ∧
      MapUnchanged array ledger after ↔
      slotSearch array key ledger.buf = .exhausted ∨
        (fe = .full ∧ last = .full) ∧ ∃ slot,
          0 ≤ slot ∧ ReusesSlot array key ledger.buf slot ∧
          (ledger.buf.tag (EMSdataCell slot)).type = .undefined := by
  have continued := EMSreadUsingTags_returns returned
  rw [keyIndex_keyless keyless, if_pos ⟨mapped, by decide⟩,
    if_neg nofun] at continued
  obtain ⟨slot, between, searched, ended⟩ := continued
  rcases (EMSwriteIndexMap_returns positive searched).cases keyless mapped
      positive with
    ⟨none, rfl, rfl⟩ | ⟨ends, above, below, holds⟩
  · rw [if_pos (by decide)] at ended
    obtain ⟨rfl, rfl⟩ := ended
    exact iff_of_true ⟨.inl trivial, .refl⟩ (.inl none)
  · rw [or_iff_right ends.ne_exhausted]
    by_cases inside : 0 ≤ slot
    · rw [if_neg (by omega), if_neg (by omega)] at ended
      obtain ⟨may, reading⟩ := readLoop_returns positive ended
      have read := readElement_returns reading
      have apart : EMSdataCell slot ≠ EMSmapCell array.nElem slot :=
        data_cell_ne_map positive
      have kept := (holds.others (EMSdataCell slot) apart).1
      rw [kept] at may
      split at read
      · next isValue =>
          obtain ⟨⟨value, rfl, type⟩, rfl⟩ := read
          have defined : (KeyedRes.value (.ok value)).UndefinedOrFailed ↔
              (ledger.buf.tag (EMSdataCell slot)).type = .undefined := by
            rw [← kept]
            simp [KeyedRes.UndefinedOrFailed, KeyedRes.Failed, type,
              heldForRead]
          rw [defined, holds.unchanged_iff inside below
            (finished_mapTag positive mapped) (by simp)
            (finished_others mapped), finished_tag positive, kept,
            heldForRead_eq_iff waits may]
          constructor
          · rintro ⟨undefined, reuses, final, -⟩
            exact ⟨final, slot, inside, reuses, undefined⟩
          · rintro ⟨final, slot', -, reuses, undefined⟩
            obtain rfl := SlotSearch.At.unique reuses.ends ends
            refine ⟨undefined, reuses, final, ?_, ?_, ?_⟩
            · simp [(holds.others _ apart).2]
            · simp [holds.live]
            · simp [holds.content]
      · next unknown =>
          obtain ⟨rfl, rfl⟩ := read
          refine iff_of_false (fun both => ?_) ?_
          · refine holds.changed above below ?_ both.2
            simp [Ledger.heldForRead, apart.symm, holds.busy]
          · rintro ⟨-, slot', -, reuses, undefined⟩
            obtain rfl := SlotSearch.At.unique reuses.ends ends
            rw [heldForRead, kept, undefined] at unknown
            exact unknown (by decide)
    · rw [if_pos (by omega)] at ended
      obtain ⟨rfl, rfl⟩ := ended
      refine iff_of_false
        (fun both => holds.changed above below holds.busy both.2) ?_
      rintro ⟨-, slot', inside', reuses, -⟩
      obtain rfl := SlotSearch.At.unique reuses.ends ends
      exact inside inside'

theorem unmappable_write {mode : WriteMode} {value : EMSvalueType}
    {result : Except EMSError Unit}
    (returned : heapSolo.Returns
      (mode.code array key value patience) ledger result after) :
    (KeyedRes.written result).UndefinedOrFailed ∧
      MapUnchanged array ledger after ↔
      slotSearch array key ledger.buf = .exhausted := by
  rw [mode.code_eq] at returned
  obtain ⟨slot, between, taken, continued⟩ :=
    EMSwriteUsingTags_returns positive mode.waits mode.idle returned
  rcases taken.cases keyless mapped positive with
    ⟨none, rfl, rfl⟩ | ⟨ends, above, below, holds⟩
  · rw [if_pos (by decide)] at continued
    obtain ⟨rfl, rfl⟩ := continued
    exact iff_of_true ⟨.inl trivial, .refl⟩ none
  · refine iff_of_false ?_ ends.ne_exhausted
    rintro ⟨failed, unchanged⟩
    split at continued
    · obtain ⟨rfl, rfl⟩ := continued
      exact holds.changed above below holds.busy unchanged
    · obtain ⟨held, placed, stored, outcome, acquired, gives, storing, ended⟩ :=
        continued
      rcases storeValue_returns storing with ⟨error, rfl, -, tag, -⟩ | ⟨rfl, -⟩
      · obtain ⟨rfl, rfl⟩ := ended
        refine holds.changed above below ?_ unchanged
        rw [tag, gives.tag]
        rw [AcquiredForWrite] at acquired
        split at acquired
        · rw [acquired, holds.busy]
        · have apart : EMSmapCell array.nElem slot ≠ EMSdataCell slot :=
            (data_cell_ne_map positive).symm
          rw [acquired.2.2]
          simp [apart, holds.busy]
      · obtain ⟨rfl, -⟩ := ended
        rcases failed with failed | ⟨_, wrong, -⟩
        · exact failed
        · cases wrong

omit [CRuntime] keyless mapped positive in
private theorem storeText_live {idx : Int} {len : Nat} {text : CString}
    (returned : heapSolo.Returns (storeText patience idx len (pure text)) ledger
      (.ok ()) after) :
    ∃ block, after.live = block :: ledger.live := by
  obtain ⟨address, between, requested, continued⟩ :=
    Solo.returns_bind_iff.mp returned
  obtain ⟨mem, -, rfl⟩ := emsMutexMem_alloc_returns requested
  split at continued
  · exact nomatch (Solo.returns_ret_iff.mp continued).1
  · next positive =>
      rw [pure_bind] at continued
      have copied := copyToHeap_returns continued
      rw [store_returns] at copied
      obtain ⟨-, rfl⟩ := Solo.returns_ret_iff.mp copied
      exact ⟨_, if_pos (by omega)⟩

omit keyless mapped positive in
/-- The value returned is the one that the element had.  An undefined element
gets another type, or a new string. -/
theorem faaElement_sum {idx : Int} {type sumType : EMSType}
    {value old : EMSvalueType}
    (returned : heapSolo.Returns (faaElement patience idx type value) ledger
      (.ok (old, sumType))
      after) :
    old.type = type ∧
      (type = .undefined → sumType = .float ∨ ∃ block,
        after.live = block :: ledger.live) := by
  cases type with
  | boolean | integer | float =>
      simp only [faaElement, load_returns] at returned
      obtain ⟨result, between, -, ended⟩ := Solo.returns_bind_iff.mp returned
      obtain ⟨same, -⟩ := Solo.returns_ret_iff.mp ended
      cases result with
      | error => cases same
      | ok sum =>
          cases same
          exact ⟨rfl, by simp⟩
  | string =>
      simp only [faaElement] at returned
      obtain ⟨result, between, -, ended⟩ := Solo.returns_bind_iff.mp returned
      obtain ⟨same, -⟩ := Solo.returns_ret_iff.mp ended
      cases result with
      | error => cases same
      | ok sum =>
          cases same
          exact ⟨rfl, by simp⟩
  | undefined =>
      simp only [faaElement] at returned
      obtain ⟨result, between, summed, ended⟩ :=
        Solo.returns_bind_iff.mp returned
      obtain ⟨same, rfl⟩ := Solo.returns_ret_iff.mp ended
      cases result with
      | error => cases same
      | ok sum =>
          cases same
          refine ⟨rfl, fun _ => ?_⟩
          rw [faaUndefined] at summed
          cases type : value.type with
          | integer | boolean | float | undefined =>
              simp only [type, store_returns] at summed
              obtain ⟨⟨⟩, -⟩ := Solo.returns_ret_iff.mp summed
              exact .inl rfl
          | string =>
              simp only [type] at summed
              obtain ⟨stored, placed, storing, mapped⟩ :=
                Solo.returns_bind_iff.mp summed
              obtain ⟨stores, rfl⟩ := Solo.returns_ret_iff.mp mapped
              cases stored with
              | error => cases stores
              | ok => exact .inr (storeText_live storing)
          | json | invalid | unassigned =>
              simp only [type] at summed
              cases (Solo.returns_ret_iff.mp summed).1
  | json | invalid | unassigned =>
      simp only [faaElement] at returned
      cases (Solo.returns_ret_iff.mp returned).1

theorem unmappable_faa {value : EMSvalueType}
    {result : Except EMSError EMSvalueType}
    (returned : heapSolo.Returns
      (EMSfaa patience array key value) ledger result after) :
    (KeyedRes.value result).UndefinedOrFailed ∧
      MapUnchanged array ledger after ↔
      slotSearch array key ledger.buf = .exhausted := by
  obtain ⟨slot, between, taken, continued⟩ := EMSfaa_returns positive returned
  rcases taken.cases keyless mapped positive with
    ⟨none, rfl, rfl⟩ | ⟨ends, above, below, holds⟩
  · rw [if_pos (.inl (by decide))] at continued
    obtain ⟨rfl, rfl⟩ := continued
    exact iff_of_true ⟨.inl trivial, .refl⟩ none
  · refine iff_of_false ?_ ends.ne_exhausted
    rintro ⟨undefined, unchanged⟩
    have apart : EMSdataCell slot ≠ EMSmapCell array.nElem slot :=
      data_cell_ne_map positive
    split at continued
    · obtain ⟨rfl, rfl⟩ := continued
      exact holds.changed above below holds.busy unchanged
    · next inArray =>
        obtain ⟨full, sum, summed, adding, ended⟩ := continued
        cases sum with
        | error error =>
            obtain ⟨rfl, rfl⟩ := ended
            refine holds.changed above below ?_ unchanged
            rw [faaElement_tag adding]
            simp [apart.symm, holds.busy]
        | ok pair =>
            obtain ⟨rfl, rfl⟩ := ended
            obtain ⟨type, grows⟩ := faaElement_sum adding
            rcases undefined with failed | ⟨_, ⟨⟩, undefined⟩
            · exact failed
            rw [type] at undefined
            -- an undefined element gets another type, or a new string
            have same := (unchanged.elements slot (by omega) below).1
            rw [Ledger.released_tag positive, Ledger.setTag_buf,
              EmsBuf.setTag_tag,
              Function.update_self, ← (holds.others _ apart).1] at same
            have kept : pair.2 = .undefined := by rw [← undefined, ← same]
            rcases grows undefined with float | ⟨block, live⟩
            · rw [float] at kept
              exact nomatch kept
            · have grown := unchanged.live
              rw [Ledger.released_live, Ledger.setTag_live, live,
                Ledger.setTag_live,
                holds.live] at grown
              exact absurd grown (List.cons_ne_self block _)

omit [CRuntime] keyless in
/-- A compare-and-swap of a defined value fills the last element. -/
theorem unmappable_keeps {current newValue : EMSvalueType}
    {result : Except EMSError EMSvalueType}
    (undefined : current.type = .undefined)
    (returned : heapSolo.Returns
      (casFinish patience array (-1) current newValue false) ledger
      result after) :
    (KeyedRes.value result).UndefinedOrFailed ∧
      MapUnchanged array ledger after ↔
      (ledger.buf.tag (EMSdataCell (array.nElem - 1))).fe = .full := by
  have finished := casFinish_returns returned
  rw [if_neg nofun] at finished
  obtain ⟨rfl, rfl⟩ := finished
  have last : EMSmapCell array.nElem (-1) = EMSdataCell (array.nElem - 1) := by
    rw [EMSmapCell_eq, EMSdataCell_inj]
    ring
  have defined : (KeyedRes.value (.ok current)).UndefinedOrFailed :=
    .inr ⟨current, rfl, undefined⟩
  have apart : ∀ i, 0 ≤ i → EMSdataCell i ≠ EMSdataCell (-1) := by
    intro i inside
    rw [Ne, EMSdataCell_inj]
    omega
  rw [and_iff_right defined, Ledger.released, if_pos mapped, last]
  have kept : (ledger.setTag (EMSdataCell (-1))
      ⟨.full, current.type, 0⟩).buf.tag
      (EMSdataCell (array.nElem - 1)) =
          ledger.buf.tag (EMSdataCell (array.nElem - 1)) := by
    simp [apart (array.nElem - 1) (by omega)]
  rw [kept]
  constructor
  · intro unchanged
    have same := (unchanged.elements (array.nElem - 1) (by omega) (by omega)).1
    rw [Ledger.setTag_buf, EmsBuf.setTag_tag, Function.update_self] at same
    rw [← same]
  · intro full
    have same : { ledger.buf.tag (EMSdataCell (array.nElem - 1))
        with fe := .full } =
        ledger.buf.tag (EMSdataCell (array.nElem - 1)) := by
      rw [← full]
    rw [same, ← kept, Ledger.setTag_self]
    refine ⟨?_, ?_, rfl, rfl⟩
    · intro i inside _
      simp [apart i inside]
    · intro i inside _
      rw [EMSmapCell_eq]
      simp [apart (i + array.nElem) (by omega)]

omit [CRuntime] keyless mapped positive in
theorem CasStores.scalar {value : EMSvalueType} {mem mem' : EmsMem}
    {heap heap' : Int → UInt8}
    {word : Int} (stores : CasStores value mem heap word mem' heap')
    (isValue : IsValue value.type)
    (noText : ¬ value.type.IsText) :
    (word = if value.type = .undefined then 0xbeeff00d else value.value) ∧
      heap' = heap := by
  rw [CasStores] at stores
  cases type : value.type with
  | undefined | boolean | integer | float =>
      simp only [type] at stores
      exact ⟨stores.1, stores.2.2⟩
  | json | string => simp [type, EMSType.IsText] at noText
  | invalid | unassigned => simp [type, IsValue] at isValue

/-- The element has what the swap of an undefined value stores. -/
def HasSwapped (newValue : EMSvalueType) (slot : Int) (buf : EmsBuf) : Prop :=
  IsValue newValue.type ∧ ¬ newValue.type.IsText ∧
    buf.tag (EMSdataCell slot) = ⟨.full, newValue.type, 0⟩ ∧
    buf.word (EMSdataCell slot) =
      if newValue.type = .undefined then 0xbeeff00d else newValue.value

theorem unmappable_swap {oldValue newValue : EMSvalueType}
    (undefined : oldValue.type = .undefined)
    {slot : Int} {between : Ledger} {result : Except EMSError EMSvalueType}
    (taken : SlotTaken array key ledger
      (slotSearch array key ledger.buf) slot between)
    (continued : if slot < 0 then result = .error .unableToAllocate ∧
      after = between
      else heapSolo.Returns (casElement patience array slot oldValue newValue)
        ((between.setWord (EMSdataCell slot) 0xcafebabe).setTag
          (EMSdataCell slot)
          ⟨.full, .undefined, 0⟩) result after) :
    (KeyedRes.value result).UndefinedOrFailed ∧
      MapUnchanged array ledger after ↔
      slotSearch array key ledger.buf = .exhausted ∨ ∃ slot, 0 ≤ slot ∧
        ReusesSlot array key ledger.buf slot ∧
          HasSwapped newValue slot ledger.buf := by
  rcases taken.cases keyless mapped positive with
    ⟨none, rfl, rfl⟩ | ⟨ends, above, below, holds⟩
  · rw [if_pos (by decide)] at continued
    obtain ⟨rfl, rfl⟩ := continued
    exact iff_of_true ⟨.inl trivial, .refl⟩ (.inl none)
  · rw [or_iff_right ends.ne_exhausted]
    split at continued
    · next outside =>
        obtain ⟨rfl, rfl⟩ := continued
        refine iff_of_false
          (fun both => holds.changed above below holds.busy both.2) ?_
        rintro ⟨slot', inside', reuses, -⟩
        obtain rfl := SlotSearch.At.unique reuses.ends ends
        omega
    · next inside =>
        have apart : EMSdataCell slot ≠ EMSmapCell array.nElem slot :=
          data_cell_ne_map positive
        obtain ⟨success, failure⟩ := casElement_fails positive continued
        cases result with
        | error error =>
            obtain ⟨-, tag⟩ := failure error rfl
            refine iff_of_false
              (fun both => holds.changed above below ?_ both.2) ?_
            · rw [tag, Function.update_of_ne apart.symm]
              simp [apart.symm, holds.busy]
            · rintro ⟨slot', -, reuses, isValue, noText, -⟩
              have stores : ∃ value,
                  (.error error : Except EMSError EMSvalueType) =
                  .ok value := by
                rw [success]
                refine ⟨.of_not_text ?_ ?_,
                  fun _ => ⟨isValue, fun text => absurd text noText⟩⟩
                · simp [IsValue]
                · simp [EMSType.IsText]
              cases stores.choose_spec
        | ok value =>
            have storable := (success.mp ⟨value, rfl⟩).2
            obtain ⟨-, type, known, rfl, done⟩ :=
              casElement_done positive continued
            have wanted : CasMatches slot
                ((between.setWord (EMSdataCell slot) 0xcafebabe).setTag
                (EMSdataCell slot) ⟨.full, .undefined, 0⟩).buf oldValue := by
              simp [CasMatches, undefined, EMSType.IsWord, EMSType.IsText]
            obtain ⟨differs, -⟩ |
              ⟨-, live, word, mem, heap, stores, replaced⟩ := done
            · exact absurd wanted differs
            have defined : (KeyedRes.value (.ok value)).UndefinedOrFailed := by
              refine .inr ⟨value, rfl, ?_⟩
              rw [type]
              simp
            have knownTag : ∀ cell, cell ≠ EMSdataCell slot →
                known.buf.tag cell = between.buf.tag cell ∧
                  known.buf.word cell = between.buf.word cell := by
              intro cell notData
              simp [replaced, EmsBuf.replaced, notData]
            have mapTag : (known.released array slot).buf.tag
                (EMSmapCell array.nElem slot) =
                { between.buf.tag (EMSmapCell array.nElem slot) with fe :=
                    .full } := by
              rw [Ledger.released, if_pos mapped, (knownTag _ apart.symm).1]
              simp
            have mapWord : (known.released array slot).buf.word
                (EMSmapCell array.nElem slot) =
                between.buf.word (EMSmapCell array.nElem slot) := by
              rw [Ledger.released_word, (knownTag _ apart.symm).2]
            have others : ∀ cell, cell ≠ EMSmapCell array.nElem slot →
                cell ≠ EMSdataCell slot →
                (known.released array slot).buf.tag cell =
                  between.buf.tag cell ∧
                  (known.released array slot).buf.word cell =
                      between.buf.word cell := by
              intro cell notMap notData
              rw [Ledger.released_word, Ledger.released, if_pos mapped]
              simpa [notMap] using knownTag cell notData
            rw [and_iff_right defined,
              holds.unchanged_iff (by omega) below mapTag mapWord others]
            rw [Ledger.released_tag positive, Ledger.released_word,
              Ledger.released_live,
              Ledger.released_heap, replaced]
            simp only [EmsBuf.replaced, EmsBuf.setTag_tag, EmsBuf.setTag_word,
              EmsBuf.setTag_heap,
              EmsBuf.setWord_word, EmsBuf.setWord_heap, EmsBuf.setHeap_heap,
              Function.update_self]
            have live := live (by simp [EMSType.IsText])
            have isValue := (storable wanted).1
            constructor
            · rintro ⟨reuses, tag, word, sameLive, -⟩
              have noText : ¬ newValue.type.IsText := by
                intro text
                rw [StoredLive, if_pos text] at live
                obtain ⟨block, grown⟩ := live
                rw [sameLive, ← holds.live] at grown
                exact absurd grown.symm (List.cons_ne_self block _)
              refine ⟨slot, by omega, reuses, isValue, noText, tag.symm, ?_⟩
              rw [← word, (stores.scalar isValue noText).1]
            · rintro ⟨slot', -, reuses, -, noText, tag, word⟩
              obtain rfl := SlotSearch.At.unique reuses.ends ends
              rw [StoredLive, if_neg noText] at live
              refine ⟨reuses, tag.symm, ?_, live.trans holds.live, ?_⟩
              · rw [word, (stores.scalar isValue noText).1]
              · exact (stores.scalar isValue noText).2.trans holds.content

end Operations

section Calls

variable [CRuntime] {array : EmsArray} {key : EMSvalueType} {op : KeyedOp}
  {ledger after : Ledger}
  {patience : Nat}

/-- The operation has no effect for a key that cannot be mapped. -/
def KeyedOp.Harmless (array : EmsArray) (key : EMSvalueType) (buf : EmsBuf) :
    KeyedOp → Prop
  | .read | .releaseRW | .setTag _ => True
  | .readFF => slotSearch array key buf = .exhausted ∨ ∃ slot, 0 ≤ slot ∧
      ReusesSlot array key buf slot ∧
        (buf.tag (EMSdataCell slot)).type = .undefined
  | .cas oldValue newValue =>
      if oldValue.type = .undefined then
        slotSearch array key buf = .exhausted ∨ ∃ slot, 0 ≤ slot ∧
          ReusesSlot array key buf slot ∧ HasSwapped newValue slot buf
      else (buf.tag (EMSdataCell (array.nElem - 1))).fe = .full
  | .readFE | .readRW | .write _ | .writeXF _ | .writeXE _ |
        .writeEF _ | .faa _ =>
      slotSearch array key buf = .exhausted

private theorem unmappable_cas (keyless : keyStart key = none)
    (mapped : array.isMapped = true)
    (positive : 0 < array.nElem) {oldValue newValue : EMSvalueType}
    {result : Except EMSError EMSvalueType}
    (returned : heapSolo.Returns
      (EMScas patience array key oldValue newValue) ledger result after) :
    (KeyedRes.value result).UndefinedOrFailed ∧
      MapUnchanged array ledger after ↔
      KeyedOp.Harmless array key ledger.buf (.cas oldValue newValue) := by
  have continued := EMScas_returns positive returned
  rw [keyIndex_keyless keyless, if_neg (by simp [mapped]; omega),
    if_pos ⟨mapped, by decide⟩] at continued
  rw [KeyedOp.Harmless]
  split at continued
  · next undefined =>
      rw [if_pos undefined]
      obtain ⟨slot, between, taken, ended⟩ := continued
      exact unmappable_swap keyless mapped positive undefined taken ended
  · next defined =>
      rw [if_neg defined]
      exact unmappable_keeps mapped positive rfl continued

/-- A call with a key that cannot be mapped fails or returns undefined without
effect if and only if the operation does not insert the key, finds no slot for
it, or stores what is there already. -/
theorem unmappable_harmless (keyless : keyStart key = none)
    (mapped : array.isMapped = true)
    (positive : 0 < array.nElem) {stack : Tag} {result : KeyedRes}
    (returned : heapSolo.Returns
      (op.code array stack key patience) ledger result after) :
    result.UndefinedOrFailed ∧ MapUnchanged array ledger after ↔
      op.Harmless array key ledger.buf := by
  cases op with
  | read =>
      obtain ⟨res, read, rfl⟩ := Solo.returns_map_iff.mp returned
      have continued := EMSreadUsingTags_returns read
      rw [keyIndex_keyless keyless, if_pos ⟨mapped, by decide⟩,
        if_pos rfl] at continued
      obtain ⟨rfl, rfl⟩ := continued
      exact iff_of_true ⟨.inr ⟨_, rfl, rfl⟩, .refl⟩ trivial
  | readFE =>
      obtain ⟨res, read, rfl⟩ := Solo.returns_map_iff.mp returned
      have changes := unmappable_read keyless mapped positive (.inl rfl) read
      simpa [KeyedOp.Harmless] using changes
  | readFF =>
      obtain ⟨res, read, rfl⟩ := Solo.returns_map_iff.mp returned
      have changes := unmappable_read keyless mapped positive (.inl rfl) read
      simpa [KeyedOp.Harmless] using changes
  | readRW =>
      obtain ⟨res, read, rfl⟩ := Solo.returns_map_iff.mp returned
      have changes := unmappable_read keyless mapped positive (.inr rfl) read
      simpa [KeyedOp.Harmless] using changes
  | releaseRW =>
      obtain ⟨count, released, rfl⟩ := Solo.returns_map_iff.mp returned
      rw [EMSreleaseRW] at released
      obtain ⟨_, _, looked, continued⟩ := Solo.returns_bind_iff.mp released
      obtain ⟨rfl, rfl⟩ := EMSkey2index_returns looked
      rw [keyIndex_keyless keyless, if_pos (.inl (by decide))] at continued
      obtain ⟨rfl, rfl⟩ := Solo.returns_ret_iff.mp continued
      exact iff_of_true ⟨.inl (show (-1 : Int) < 0 by decide), .refl⟩ trivial
  | write value =>
      obtain ⟨res, wrote, rfl⟩ := Solo.returns_map_iff.mp returned
      exact @unmappable_write _ _ _ _ _ _ keyless mapped positive .write
        value res wrote
  | writeXF value =>
      obtain ⟨res, wrote, rfl⟩ := Solo.returns_map_iff.mp returned
      exact @unmappable_write _ _ _ _ _ _ keyless mapped positive .writeXF
        value res wrote
  | writeXE value =>
      obtain ⟨res, wrote, rfl⟩ := Solo.returns_map_iff.mp returned
      exact @unmappable_write _ _ _ _ _ _ keyless mapped positive .writeXE
        value res wrote
  | writeEF value =>
      obtain ⟨res, wrote, rfl⟩ := Solo.returns_map_iff.mp returned
      exact @unmappable_write _ _ _ _ _ _ keyless mapped positive .writeEF
        value res wrote
  | faa value =>
      obtain ⟨res, added, rfl⟩ := Solo.returns_map_iff.mp returned
      exact unmappable_faa keyless mapped positive added
  | cas oldValue newValue =>
      obtain ⟨res, compared, rfl⟩ := Solo.returns_map_iff.mp returned
      exact unmappable_cas keyless mapped positive compared
  | setTag isFull =>
      obtain ⟨done, set, rfl⟩ := Solo.returns_map_iff.mp returned
      rw [EMSsetTag] at set
      obtain ⟨_, _, looked, continued⟩ := Solo.returns_bind_iff.mp set
      obtain ⟨rfl, rfl⟩ := EMSkey2index_returns looked
      rw [keyIndex_keyless keyless, if_pos (.inl (by decide))] at continued
      obtain ⟨rfl, rfl⟩ := Solo.returns_ret_iff.mp continued
      exact iff_of_true ⟨.inl rfl, .refl⟩ trivial

end Calls

section CallRuns

theorem emptyObject_claims :
    let _ := ieeeRuntime
    ∃ result after, heapSolo.Returns
        (KeyedOp.code ⟨2, true⟩ ⟨.full, .undefined, 0⟩ emptyObject
        (.writeXF (scalar .integer 7)) 1) freshLedger result after ∧
      (after.buf.tag (EMSdataCell 1)).fe = .busy := by
  intro _
  obtain ⟨result, after, returned, busy⟩ := heapSolo.exists_returns
    (KeyedOp.code ⟨2, true⟩ ⟨.full, .undefined, 0⟩ emptyObject
      (.writeXF (scalar .integer 7)) 1)
    freshLedger (fun played => (played.2.buf.tag (EMSdataCell 1)).fe = .busy)
      (by decide +kernel)
  exact ⟨result, after, returned, of_decide_eq_true busy⟩

theorem unmappable_harmless_json :
    let _ := ieeeRuntime
    ∃ (result : KeyedRes) (after : Ledger),
      result.UndefinedOrFailed ∧ MapUnchanged ⟨2, true⟩ freshLedger after ↔
        KeyedOp.Harmless ⟨2, true⟩ emptyObject freshLedger.buf
            (.writeXF (scalar .integer 7)) := by
  intro _
  obtain ⟨result, after, returned, -⟩ := emptyObject_claims
  exact ⟨result, after, unmappable_harmless rfl rfl (by decide) returned⟩

/-- A write by a JSON key leaves the last element of a fresh map held. -/
theorem not_unmappable_harmless :
    ¬ ∀ [CRuntime] (array : EmsArray) (stack : Tag) (key : EMSvalueType)
      (op : KeyedOp)
      (patience : Nat) (ledger after : Ledger) (result : KeyedRes),
        0 < array.nElem →
      array.isMapped = true → InitialMap array 0 ledger →
      key.type = .undefined ∨ key.type = .json →
      heapSolo.Returns (op.code array stack key patience) ledger result after →
      result.UndefinedOrFailed ∧ MapUnchanged array ledger after := by
  intro harmless
  let _ := ieeeRuntime
  obtain ⟨result, after, returned, busy⟩ := emptyObject_claims
  have initially : InitialMap ⟨2, true⟩ 0 freshLedger := by
    refine ⟨fun _ _ => ⟨rfl, rfl⟩, storeAfter [],
      InitialStore.holds ⟨?_, rfl, rfl, rfl, rfl⟩, ?_⟩
    · exact fun _ _ _ => rfl
    · exact ⟨fun _ boolean => nomatch boolean⟩
  have unchanged :=
    (harmless ⟨2, true⟩ _ emptyObject _ 1 freshLedger after result
      (by decide) rfl
    initially (.inr rfl) returned).2
  have same := (unchanged.elements 1 (by decide) (by decide)).1
  rw [same] at busy
  exact absurd busy (by decide)

end CallRuns

end EMS
