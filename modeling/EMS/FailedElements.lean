import EMS.RefusedStrings

/-!
# Operations that fail on an element they hold

A fetch-and-add, a tagged read and a compare-and-swap make the element busy, or
count themselves as a reader, before they find out that they cannot go on.
-/

namespace EMS

open SharedProgram

/-! ## Slots that are claimed -/

section Slots

variable {array : EmsArray} {key : EMSvalueType} {idx : Int}
  {ledger after : Ledger}

/-- The heap can hold the key. -/
def KeyServed (key : EMSvalueType) (mem : EmsMem) : Prop :=
  key.type = .string → Serves mem (key.length + 1)

theorem SlotTaken.claimed {answer : Int}
    (taken : SlotTaken array key ledger (.free idx) answer after) :
    (ledger.buf.tag (EMSmapCell array.nElem idx)).fe = .full ∧
      after.buf.tag = Function.update ledger.buf.tag
        (EMSmapCell array.nElem idx)
        (claimedTag (ledger.buf.tag (EMSmapCell array.nElem idx)) key) ∧
      (answer = -1 ∧ ¬ KeyServed key ledger.buf.mem ∨
        answer = idx ∧ KeyServed key ledger.buf.mem ∧
          KeyInserted array key idx ledger after) := by
  obtain ⟨full, ⟨rfl, refused⟩ | ⟨rfl, inserted⟩⟩ := taken
  · exact ⟨full, refused.tag,
      .inl ⟨rfl, fun served => refused.refused (served refused.text)⟩⟩
  · exact ⟨full, inserted.tag, .inr ⟨rfl, inserted.served, inserted⟩⟩

/-- A search changes the slot that it takes only. -/
theorem SlotTaken.others {search : SlotSearch}
    (taken : SlotTaken array key ledger search idx after)
    {cell : Cell} (apart : ∀ slot, search = .kept slot ∨ search = .free slot →
      cell ≠ EMSmapCell array.nElem slot) :
    after.buf.tag cell = ledger.buf.tag cell ∧ after.buf.word cell =
      ledger.buf.word cell := by
  cases search with
  | found slot =>
      obtain ⟨-, rfl, -⟩ := taken
      exact ⟨rfl, rfl⟩
  | kept slot =>
      obtain ⟨-, -, rfl⟩ := taken
      simp [apart slot (.inl rfl)]
  | free slot =>
      have other := apart slot (.inr rfl)
      obtain ⟨-, ⟨-, refused⟩ | ⟨-, inserted⟩⟩ := taken
      · rw [refused.tag, refused.word, Function.update_of_ne other]
        exact ⟨rfl, rfl⟩
      · rw [inserted.tag, inserted.words cell other,
          Function.update_of_ne other]
        exact ⟨rfl, rfl⟩
  | exhausted =>
      obtain ⟨-, rfl⟩ := taken
      exact ⟨rfl, rfl⟩

/-- The slot that a search takes was full and is held. -/
theorem SlotTaken.held {search : SlotSearch}
    (taken : SlotTaken array key ledger search idx after)
    {slot : Int} (takes : search = .kept slot ∨ search = .free slot) :
    (idx = slot ∨ idx = -1) ∧
    (ledger.buf.tag (EMSmapCell array.nElem slot)).fe = .full ∧
      (after.buf.tag (EMSmapCell array.nElem slot)).fe = .busy := by
  rcases takes with rfl | rfl
  · obtain ⟨rfl, full, rfl⟩ := taken
    refine ⟨.inl rfl, full, ?_⟩
    simp
  · obtain ⟨full, tag, ⟨rfl, -⟩ | ⟨rfl, -⟩⟩ := taken.claimed
    · refine ⟨.inr rfl, full, ?_⟩
      rw [tag, Function.update_self]
      rfl
    · refine ⟨.inl rfl, full, ?_⟩
      rw [tag, Function.update_self]
      rfl

/-- The slot that is answered is where the search has ended. -/
theorem SlotTaken.ends {search : SlotSearch}
    (taken : SlotTaken array key ledger search idx after)
    (inside : 0 ≤ idx) : search.At idx := by
  cases search with
  | found slot => exact .inl (taken.1 ▸ rfl)
  | kept slot => exact .inr (.inl (taken.1 ▸ rfl))
  | free slot =>
      obtain ⟨-, ⟨rfl, -⟩ | ⟨rfl, -⟩⟩ := taken
      · exact absurd inside (by decide)
      · exact .inr (.inr rfl)
  | exhausted =>
      rw [taken.1] at inside
      exact absurd inside (by decide)

theorem ElementUnchanged.refl {ledger : Ledger} :
    ElementUnchanged array idx ledger ledger :=
  ⟨rfl, rfl, fun _ => rfl, rfl, rfl⟩

theorem KeyedRes.failed_value {res : Except EMSError EMSvalueType} :
    (KeyedRes.value res).Failed ↔ ∃ error, res = .error error := by
  cases res <;> simp [KeyedRes.Failed]

theorem KeyedRes.failed_written {res : Except EMSError Unit} :
    (KeyedRes.written res).Failed ↔ ∃ error, res = .error error := by
  cases res <;> simp [KeyedRes.Failed]

theorem claimed_changed {before between : Ledger}
    (mapped : array.isMapped = true)
    (full : (before.buf.tag (EMSmapCell array.nElem idx)).fe = .full)
    (claimed : (between.buf.tag (EMSmapCell array.nElem idx)).fe = .busy) :
    ¬ ElementUnchanged array idx before between := by
  intro unchanged
  rw [unchanged.mapTag mapped, full] at claimed
  exact nomatch claimed

end Slots

/-! ## Fetch and add -/

section Faa

variable [CRuntime] {array : EmsArray} {key value : EMSvalueType} {idx : Int}
  {ledger after : Ledger} {patience : Nat}

/-- The argument can be added to what the element has.  There is memory for the
copy of an old string, and the heap serves the request for the sum if there is
one. -/
def SumServed (idx : Int) (value : EMSvalueType) (buf : EmsBuf) : Prop :=
  ∃ old : CString, ((buf.tag (EMSdataCell idx)).type = .string →
      HeapHolds buf.heap (buf.word (EMSdataCell idx)) old.bytes) ∧
    ((buf.tag (EMSdataCell idx)).type = .string →
      CRuntime.mallocs (old.bytes.length + 1) = true) ∧
    Granted buf.mem (faaRequests (buf.tag (EMSdataCell idx)).type
      old.bytes.length value)

/-- The search of a fetch-and-add ends at the element, or without any. -/
def EndsAt (array : EmsArray) (key : EMSvalueType) (idx : Int)
    (buf : EmsBuf) : Prop :=
  (slotSearch array key buf).At idx ∨ slotSearch array key buf = .exhausted

/-- What a fetch-and-add needs in order not to fail once it works on the
element. -/
def FaaServed (array : EmsArray) (key : EMSvalueType) (idx : Int)
    (value : EMSvalueType)
    (buf : EmsBuf) : Prop :=
  match slotSearch array key buf with
  | .found _ | .kept _ => SumServed idx value buf
  | .free _ => KeyServed key buf.mem ∧
      SumServed idx value
        { buf with heap := heapWithKey key buf, mem := memWithKey key buf.mem }
  | .exhausted => True

private theorem faaRequests_eq {type : EMSType} (other : type ≠ .string)
    (length length' : Nat) :
    faaRequests type length value = faaRequests type length' value := by
  cases type with
  | string => exact absurd rfl other
  | _ => cases type : value.type <;> simp only [faaRequests, type]

theorem SumServed.granted {buf : EmsBuf} (served : SumServed idx value buf)
    {old : CString}
    (holds : (buf.tag (EMSdataCell idx)).type = .string →
      HeapHolds buf.heap (buf.word (EMSdataCell idx)) old.bytes) :
    ((buf.tag (EMSdataCell idx)).type = .string →
        CRuntime.mallocs (old.bytes.length + 1) = true) ∧
      Granted buf.mem (faaRequests (buf.tag (EMSdataCell idx)).type
        old.bytes.length value) := by
  obtain ⟨text, holds', granted⟩ := served
  by_cases string : (buf.tag (EMSdataCell idx)).type = .string
  · rwa [(holds string).unique (holds' string)]
  · refine ⟨fun isString => absurd isString string, ?_⟩
    rw [faaRequests_eq string _ text.bytes.length]
    exact granted.2

theorem sumServed_congr {buf buf' : EmsBuf}
    (tag : buf'.tag (EMSdataCell idx) = buf.tag (EMSdataCell idx))
    (word : buf'.word (EMSdataCell idx) = buf.word (EMSdataCell idx))
    (heap : buf'.heap = buf.heap) (mem : buf'.mem = buf.mem) :
    SumServed idx value buf' ↔ SumServed idx value buf := by
  rw [SumServed, SumServed, tag, word, heap, mem]

/-- From where the element is found, the fetch-and-add leaves it unchanged
whenever it fails if and only if it does not fail. -/
theorem failed_sum_unchanged {between : Ledger}
    (kept : between.buf.tag (EMSdataCell idx) = ledger.buf.tag
      (EMSdataCell idx))
    {result : Except EMSError EMSvalueType}
    (continued : (between.buf.tag (EMSdataCell idx)).fe = .full ∧ ∃ sum summed,
      heapSolo.Returns (faaElement patience idx
        (between.buf.tag (EMSdataCell idx)).type value)
        (between.setTag (EMSdataCell idx)
          { between.buf.tag (EMSdataCell idx) with fe := .busy }) sum summed ∧
      match sum with
      | .error error => result = .error error ∧ after = summed
      | .ok (returnValue, sumType) => result = .ok returnValue ∧
          after = (summed.setTag (EMSdataCell idx)
            { between.buf.tag (EMSdataCell idx)
              with fe := .full, type := sumType }).released
              array idx) :
    ((∃ error, result = .error error) →
      ElementUnchanged array idx ledger after) ↔
      SumServed idx value between.buf := by
  obtain ⟨full, sum, summed, adding, ended⟩ := continued
  obtain ⟨old, holds, granted⟩ := faaElement_returns adding
  simp only [Ledger.setTag_buf, EmsBuf.setTag_mem, EmsBuf.setTag_word,
    EmsBuf.setTag_heap]
    at holds granted
  cases sum with
  | error error =>
      obtain ⟨rfl, rfl⟩ := ended
      rw [isOk_error] at granted
      constructor
      · intro unchanged
        -- the tag is the one with which the element was made busy
        have same := (unchanged ⟨error, rfl⟩).tag
        rw [faaElement_tag adding, ← kept] at same
        simp only [Ledger.setTag_buf, EmsBuf.setTag_tag,
          Function.update_self] at same
        rw [← same] at full
        exact nomatch full
      · intro served
        exact absurd (granted.mpr (served.granted holds)) (by decide)
  | ok pair =>
      obtain ⟨rfl, -⟩ := ended
      constructor
      · exact fun _ => ⟨old, holds, granted.mp rfl⟩
      · rintro - ⟨error, wrong⟩
        exact nomatch wrong

/-- A fetch-and-add leaves the element unchanged whenever it fails if and only
if it does not fail, unless there is no element at all. -/
theorem failed_faa_unchanged (positive : 0 < array.nElem) (inside : 0 ≤ idx)
    (ends : EndsAt array key idx ledger.buf)
    {result : Except EMSError EMSvalueType}
    (returned : heapSolo.Returns
      (EMSfaa patience array key value) ledger result after) :
    ((∃ error, result = .error error) →
      ElementUnchanged array idx ledger after) ↔
      FaaServed array key idx value ledger.buf := by
  obtain ⟨slot, between, taken, continued⟩ := EMSfaa_returns positive returned
  rw [FaaServed]
  rcases ends with (found | kept | free) | exhausted
  · have below := slotSearch_lt positive (.inl found)
    rw [found] at taken ⊢
    obtain ⟨rfl, rfl, -⟩ := taken
    rw [if_neg (by omega)] at continued
    exact failed_sum_unchanged rfl continued
  · have below := slotSearch_lt positive (.inr (.inl kept))
    rw [kept] at taken ⊢
    obtain ⟨rfl, -, rfl⟩ := taken
    rw [if_neg (by omega)] at continued
    have same : ∀ tag, (ledger.setTag (EMSmapCell array.nElem slot) tag).buf.tag
        (EMSdataCell slot) = ledger.buf.tag (EMSdataCell slot) := by
      simp [data_cell_ne_map positive]
    rw [failed_sum_unchanged (same _) continued,
      sumServed_congr (same _) rfl rfl rfl]
  · have below := slotSearch_lt positive (.inr (.inr free))
    have mapped := slotSearch_free_mapped free
    rw [free] at taken ⊢
    obtain ⟨slotFull, tag, ⟨rfl, refused⟩ | ⟨rfl, served, inserted⟩⟩ :=
      taken.claimed
    · rw [if_pos (.inl (by decide))] at continued
      obtain ⟨rfl, rfl⟩ := continued
      constructor
      · intro unchanged
        refine absurd (unchanged ⟨_, rfl⟩) (claimed_changed mapped slotFull ?_)
        rw [tag, Function.update_self]
        rfl
      · exact fun both => absurd both.1 refused
    · rw [if_neg (by omega)] at continued
      have same : between.buf.tag (EMSdataCell slot) =
          ledger.buf.tag (EMSdataCell slot) := by
        rw [tag, Function.update_of_ne (data_cell_ne_map positive)]
      rw [failed_sum_unchanged same continued, and_iff_right served]
      exact sumServed_congr same (inserted.words _ (data_cell_ne_map positive))
        inserted.heap
        inserted.mem
  · rw [exhausted] at taken ⊢
    obtain ⟨rfl, rfl⟩ := taken
    rw [if_pos (.inl (by decide))] at continued
    rw [continued.2]
    exact iff_of_true (fun _ => .refl) trivial

end Faa

section FaaRuns

/-- A JSON value, which cannot be added to anything. -/
def emptyObject : EMSvalueType := ⟨.json, 0, ⟨[123, 125], by simp⟩, 2⟩

theorem emptyObject_fails :
    let _ := ieeeRuntime
    slotSearch ⟨1, false⟩ (scalar .integer 0) freshLedger.buf = .found 0 ∧
      ∃ error after, heapSolo.Returns
          (EMSfaa 1 ⟨1, false⟩ (scalar .integer 0) emptyObject)
          freshLedger (.error error) after ∧
              (after.buf.tag (EMSdataCell 0)).fe = .busy := by
  intro _
  obtain ⟨result, after, returned, checked⟩ := heapSolo.exists_returns
    (EMSfaa 1 ⟨1, false⟩ (scalar .integer 0) emptyObject) freshLedger
    (fun played =>
      !played.1.isOk && (played.2.buf.tag (EMSdataCell 0)).fe = .busy)
    (by decide +kernel)
  refine ⟨by decide +kernel, ?_⟩
  cases result with
  | ok => simp at checked
  | error error => exact ⟨error, after, returned, by simpa using checked⟩

theorem failed_faa_unchanged_json :
    let _ := ieeeRuntime
    ∃ error after, ((∃ error', (.error error : Except EMSError EMSvalueType) =
        .error error') →
        ElementUnchanged ⟨1, false⟩ 0 freshLedger after) ↔
      FaaServed ⟨1, false⟩ (scalar .integer 0) 0 emptyObject
          freshLedger.buf := by
  intro _
  obtain ⟨present, error, after, returned, -⟩ := emptyObject_fails
  exact ⟨error, after,
    failed_faa_unchanged (by decide) le_rfl (.inl (.inl present)) returned⟩

/-- A fetch-and-add that fails in a fresh array leaves the element held. -/
theorem not_failed_faa_unchanged :
    ¬ ∀ [CRuntime] (array : EmsArray) (level : Nat)
      (ledger after : Ledger) (idx : Int)
      (key value : EMSvalueType) (patience : Nat) (error : EMSError),
        0 < array.nElem → 0 ≤ idx →
      InitialStore array level ledger → EndsAt array key idx ledger.buf →
      heapSolo.Returns (EMSfaa patience array key value) ledger
        (.error error) after →
      ElementUnchanged array idx ledger after := by
  intro unchanged
  let _ := ieeeRuntime
  obtain ⟨present, error, after, returned, busy⟩ := emptyObject_fails
  have same :=
    (unchanged ⟨1, false⟩ 0 freshLedger after 0 (scalar .integer 0)
      emptyObject 1 error
    (by decide) le_rfl ⟨fun _ _ _ => rfl, rfl, rfl, rfl, rfl⟩
      (.inl (.inl present)) returned).tag
  rw [same] at busy
  exact absurd busy (by decide)

end FaaRuns

/-! ## Tagged reads and compare-and-swap -/

section Conditions

variable [CRuntime] (array : EmsArray) (key : EMSvalueType) (idx : Int)
  (buf : EmsBuf)

/-- The key is not found, and cannot be given an element. -/
def NoElement : Prop :=
  keyIndex array key buf array.isMapped < 0 ∧
    slotSearch array key buf = .exhausted

/-- The element of the key: the one that its lookup finds, or else the one that
it would be given.  It may be any element where there is none. -/
def ElementOf : Prop :=
  keyIndex array key buf array.isMapped = idx ∨
    keyIndex array key buf array.isMapped < 0 ∧
      slotSearch array key buf = .free idx ∨
    NoElement array key buf

/-- The element has the value that is to be replaced. -/
def CasMatches (oldValue : EMSvalueType) : Prop :=
  oldValue.type = (buf.tag (EMSdataCell idx)).type ∧
    (oldValue.type.IsWord → buf.word (EMSdataCell idx) = oldValue.value) ∧
    (oldValue.type.IsText →
      HeapHolds buf.heap (buf.word (EMSdataCell idx)) oldValue.text.bytes)

/-- What an operation needs in order not to fail once it works on the
element. -/
def KeyedOp.Served : KeyedOp → Prop
  | .readFE | .readFF | .readRW => IsValue (buf.tag (EMSdataCell idx)).type ∧
      (keyIndex array key buf array.isMapped < 0 → KeyServed key buf.mem)
  | .cas oldValue newValue =>
      if keyIndex array key buf array.isMapped < 0 then
        oldValue.type = .undefined →
          KeyServed key buf.mem ∧ Storable (memWithKey key buf.mem) newValue
      else Readable idx (buf.tag (EMSdataCell idx)).type buf ∧
        (CasMatches idx buf oldValue →
        Storable (memWithout idx (buf.tag (EMSdataCell idx)).type buf) newValue)
  | _ => True

end Conditions

section Reads

variable {array : EmsArray} {key : EMSvalueType} {idx : Int}
  {ledger after : Ledger}
  {patience : Nat}

/-- A read that waits for the element fails if the type is none of a value, and
then leaves it held. -/
theorem readLoop_fails (positive : 0 < array.nElem) {fe : FE}
    {finalFE : Option FE}
    (waits : fe = .full ∨ fe = .rwLock) {stack : Tag} {tries : Nat}
    {result : Except EMSError EMSvalueType}
    (returned : heapSolo.Returns
      (readLoop patience array idx (some fe) finalFE tries stack)
      ledger result after) :
    if IsValue (ledger.buf.tag (EMSdataCell idx)).type then ∃ value,
      result = .ok value
    else (∃ error, result = .error error) ∧
      after.buf.tag (EMSdataCell idx) ≠ ledger.buf.tag (EMSdataCell idx) := by
  obtain ⟨may, reading⟩ := readLoop_returns positive returned
  have read := readElement_returns reading
  have type : (heldForRead (some fe) (ledger.buf.tag (EMSdataCell idx))).type =
      (ledger.buf.tag (EMSdataCell idx)).type := rfl
  rw [type] at read
  split at read
  · next isValue =>
      obtain ⟨⟨value, rfl, -⟩, -⟩ := read
      rw [if_pos isValue]
      exact ⟨value, rfl⟩
  · next unknown =>
      obtain ⟨rfl, rfl⟩ := read
      rw [if_neg unknown]
      refine ⟨⟨_, rfl⟩, ?_⟩
      intro same
      have busy : (ledger.buf.tag (EMSdataCell idx)).fe = .busy := by
        rw [← same]
        simp [Ledger.heldForRead, heldForRead]
      rcases waits with rfl | rfl <;> simp [mayRead, busy] at may

end Reads

section Swaps

variable [CRuntime] {array : EmsArray}
  {key oldValue newValue : EMSvalueType} {idx : Int}
  {ledger after : Ledger} {patience : Nat}

/-- The comparison is with what the element has. -/
theorem casEqual_iff {type : EMSType}
    (same : (ledger.buf.tag (EMSdataCell idx)).type = type)
    {current : EMSvalueType}
    (returned : heapSolo.Returns (casRead patience idx type) ledger
      (.ok current) after) :
    casEqual oldValue current = true ↔ CasMatches idx ledger.buf oldValue := by
  obtain ⟨-, ⟨isValue, -⟩, rfl, word, text⟩ := casRead_returns returned
  rw [CasMatches, same, casEqual, Bool.and_eq_true, beq_iff_eq]
  refine and_congr_right fun sameType => ?_
  rw [sameType]
  cases type : current.type with
  | undefined => simp [EMSType.IsWord, EMSType.IsText]
  | boolean | integer | float =>
      have isWord : current.type.IsWord := by simp [type, EMSType.IsWord]
      have value : current.value = ledger.buf.word (EMSdataCell idx) := by
        conv_lhs => rw [word isWord]
        rfl
      simp [EMSType.IsWord, EMSType.IsText, value]
  | json | string =>
      have isText : current.type.IsText := by simp [type, EMSType.IsText]
      have holds := text isText
      simp only [EMSType.IsWord, EMSType.IsText, beq_iff_eq, reduceCtorEq,
        or_false, or_true,
        or_self, false_implies, true_implies, true_and]
      constructor
      · exact fun sameText => sameText ▸ holds
      · exact fun holds' => holds.unique holds'
  | invalid | unassigned => exact absurd isValue (by simp [type, IsValue])

/-- A compare-and-swap on a full element fails if the element cannot be read, or
the new value has no type of a value or cannot be stored; it then leaves all
tags as they were when it held the element. -/
theorem casElement_fails (positive : 0 < array.nElem)
    {result : Except EMSError EMSvalueType}
    (returned : heapSolo.Returns
      (casElement patience array idx oldValue newValue)
      ledger result after) :
    ((∃ value, result = .ok value) ↔
      Readable idx (ledger.buf.tag (EMSdataCell idx)).type ledger.buf ∧
      (CasMatches idx ledger.buf oldValue →
        Storable (memWithout idx (ledger.buf.tag (EMSdataCell idx)).type
          ledger.buf) newValue)) ∧
    (∀ error, result = .error error →
      (ledger.buf.tag (EMSdataCell idx)).fe = .full ∧
      after.buf.tag = Function.update ledger.buf.tag (EMSdataCell idx)
        { ledger.buf.tag (EMSdataCell idx) with fe := .busy }) := by
  obtain ⟨full, ⟨readable, current, reading, ended⟩ |
      ⟨unreadable, ⟨error, rfl⟩, rfl⟩⟩ :=
    casElement_returns positive returned
  · have isType : current.type = (ledger.buf.tag (EMSdataCell idx)).type :=
      (casRead_returns reading).2.2.1
    have equal : casEqual oldValue current = true ↔
        CasMatches idx ledger.buf oldValue := by
      rw [casEqual_iff (by simp) reading]
      simp [CasMatches]
    have finished := casFinish_returns ended
    split at finished
    · next swaps =>
        obtain ⟨placed, stored, outcome, gives, storing, ends⟩ := finished
        have success := casStore_returns storing
        rw [gives.mem, isType] at success
        cases outcome with
        | error error =>
            obtain ⟨rfl, rfl⟩ := ends
            refine ⟨⟨?_, fun both => ?_⟩, fun _ _ => ⟨full, ?_⟩⟩
            · rintro ⟨value, wrong⟩
              exact nomatch wrong
            · have storable := both.2 (equal.mp swaps)
              exact absurd (success.mpr storable) (by simp)
            · rw [casStore_tag storing, gives.tag]
              rfl
        | ok =>
            obtain ⟨rfl, -⟩ := ends
            refine ⟨⟨fun _ => ⟨readable, fun _ => success.mp rfl⟩,
              fun _ => ⟨current, rfl⟩⟩, ?_⟩
            exact fun _ wrong => nomatch wrong
    · next keeps =>
        obtain ⟨rfl, -⟩ := finished
        refine ⟨⟨fun _ => ⟨readable, fun matches' => ?_⟩,
          fun _ => ⟨current, rfl⟩⟩, ?_⟩
        · exact absurd (equal.mpr matches') keeps
        · exact fun _ wrong => nomatch wrong
  · refine ⟨?_, fun _ _ => ⟨full, rfl⟩⟩
    constructor
    · rintro ⟨value, wrong⟩
      exact nomatch wrong
    · exact fun both => absurd both.1 unreadable

end Swaps

section Calls

variable [CRuntime] {array : EmsArray} {key : EMSvalueType} {idx : Int}
  {ledger after : Ledger}
  {patience : Nat}

theorem failed_read_unchanged (positive : 0 < array.nElem) (inside : 0 ≤ idx)
    (element : ElementOf array key idx ledger.buf) {fe : FE}
    {finalFE : Option FE}
    (waits : fe = .full ∨ fe = .rwLock) (last : finalFE ≠ none) {stack : Tag}
    {result : Except EMSError EMSvalueType}
    (returned : heapSolo.Returns
      (EMSreadUsingTags patience array stack key (some fe) finalFE)
      ledger result after) :
    ((∃ error, result = .error error) →
      ElementUnchanged array idx ledger after) ↔
      NoElement array key ledger.buf ∨
        IsValue (ledger.buf.tag (EMSdataCell idx)).type ∧
        (keyIndex array key ledger.buf array.isMapped < 0 →
          KeyServed key ledger.buf.mem) := by
  have continued := EMSreadUsingTags_returns returned
  rcases element with rfl | ⟨absent, free⟩ | none
  · have below := @keyIndex_lt array key _ positive array.isMapped ledger.buf
    rw [or_iff_right fun none => absurd inside (by have := none.1; omega)]
    rw [if_neg (by omega), if_neg (by omega)] at continued
    have read := readLoop_fails positive waits continued
    split at read
    · next isValue =>
        obtain ⟨value, rfl⟩ := read
        constructor
        · exact fun _ => ⟨isValue, fun absent => absurd inside (by omega)⟩
        · rintro - ⟨_, wrong⟩
          exact nomatch wrong
    · next unknown =>
        constructor
        · exact fun unchanged => absurd (unchanged read.1).tag read.2
        · exact fun both => absurd both.1 unknown
  · have mapped := slotSearch_free_mapped free
    rw [or_iff_right fun none => nomatch free ▸ none.2]
    rw [if_pos ⟨mapped, absent⟩, if_neg last] at continued
    obtain ⟨slot, between, searched, ended⟩ := continued
    have taken := EMSwriteIndexMap_returns positive searched
    rw [free] at taken
    obtain ⟨full, tag, ⟨rfl, refused⟩ | ⟨rfl, served, -⟩⟩ := taken.claimed
    · rw [if_pos (by decide)] at ended
      obtain ⟨rfl, rfl⟩ := ended
      constructor
      · intro unchanged
        refine absurd (unchanged ⟨_, rfl⟩) (claimed_changed mapped full ?_)
        rw [tag, Function.update_self]
        rfl
      · exact fun both => absurd (both.2 absent) refused
    · have below := slotSearch_lt positive (.inr (.inr free))
      rw [if_neg (by omega), if_neg (by omega)] at ended
      have kept : between.buf.tag (EMSdataCell slot) =
          ledger.buf.tag (EMSdataCell slot) := by
        rw [tag, Function.update_of_ne (data_cell_ne_map positive)]
      have read := readLoop_fails positive waits ended
      rw [kept] at read
      split at read
      · next isValue =>
          obtain ⟨value, rfl⟩ := read
          constructor
          · exact fun _ => ⟨isValue, fun _ => served⟩
          · rintro - ⟨_, wrong⟩
            exact nomatch wrong
      · next unknown =>
          constructor
          · exact fun unchanged => absurd (unchanged read.1).tag read.2
          · exact fun both => absurd both.1 unknown
  · refine iff_of_true (fun _ => ?_) (.inl none)
    by_cases mapped : array.isMapped = true
    · rw [if_pos ⟨mapped, none.1⟩, if_neg last] at continued
      obtain ⟨slot, between, searched, ended⟩ := continued
      have taken := EMSwriteIndexMap_returns positive searched
      rw [none.2] at taken
      obtain ⟨rfl, rfl⟩ := taken
      rw [if_pos (by decide)] at ended
      rw [ended.2]
      exact .refl
    · rw [if_neg fun both => mapped both.1, if_pos (.inl none.1)] at continued
      rw [continued.2]
      exact .refl

theorem failed_cas_unchanged (positive : 0 < array.nElem) (inside : 0 ≤ idx)
    (element : ElementOf array key idx ledger.buf)
    {oldValue newValue : EMSvalueType}
    {result : Except EMSError EMSvalueType}
    (returned : heapSolo.Returns (EMScas patience array key oldValue newValue)
      ledger result after) :
    ((∃ error, result = .error error) →
      ElementUnchanged array idx ledger after) ↔
      NoElement array key ledger.buf ∨
        KeyedOp.Served array key idx ledger.buf (.cas oldValue newValue) := by
  have continued := EMScas_returns positive returned
  rw [KeyedOp.Served]
  rcases element with rfl | ⟨absent, free⟩ | none
  · have below := @keyIndex_lt array key _ positive array.isMapped ledger.buf
    rw [or_iff_right fun none => absurd inside (by have := none.1; omega)]
    rw [if_neg (by omega), if_neg (by omega)] at continued
    rw [if_neg (by omega)]
    obtain ⟨success, failure⟩ := casElement_fails positive continued
    rw [← success]
    cases result with
    | error error =>
        obtain ⟨full, tag⟩ := failure error rfl
        constructor
        · intro unchanged
          -- the element is still held
          have same := (unchanged ⟨error, rfl⟩).tag
          rw [tag, Function.update_self] at same
          rw [← same] at full
          cases full
        · rintro ⟨_, wrong⟩
          cases wrong
    | ok value =>
        constructor
        · exact fun _ => ⟨value, rfl⟩
        · rintro - ⟨_, wrong⟩
          cases wrong
  · have mapped := slotSearch_free_mapped free
    have below := @keyIndex_lt array key _ positive array.isMapped ledger.buf
    have found : slotSearch array key ledger.buf ≠ .exhausted := by simp [free]
    rw [or_iff_right fun none => found none.2]
    rw [if_neg (by simp [mapped] at below ⊢; omega),
      if_pos ⟨mapped, absent⟩] at continued
    rw [if_pos absent]
    split at continued
    · next undefined =>
        obtain ⟨slot, between, taken, ended⟩ := continued
        rw [free] at taken
        obtain ⟨full, tag, ⟨rfl, refused⟩ | ⟨rfl, served, inserted⟩⟩ :=
          taken.claimed
        · rw [if_pos (by decide)] at ended
          obtain ⟨rfl, rfl⟩ := ended
          constructor
          · intro unchanged
            refine absurd (unchanged ⟨_, rfl⟩) (claimed_changed mapped full ?_)
            rw [tag, Function.update_self]
            rfl
          · exact fun both => absurd (both undefined).1 refused
        · rw [if_neg (by omega)] at ended
          obtain ⟨success, failure⟩ := casElement_fails positive ended
          -- what the element is given first is undefined, like the value to
          -- replace
          have success : (∃ value, result = .ok value) ↔
              Storable (memWithKey key ledger.buf.mem) newValue := by
            rw [success]
            simp [CasMatches, Readable, undefined, IsValue, EMSType.IsWord,
              EMSType.IsText, memWithout,
              inserted.mem]
          cases result with
          | error error =>
              obtain ⟨-, held⟩ := failure error rfl
              constructor
              · intro unchanged
                refine absurd (unchanged ⟨error, rfl⟩)
                  (claimed_changed mapped full ?_)
                rw [held, Function.update_of_ne
                  (data_cell_ne_map positive).symm]
                simp [(data_cell_ne_map positive).symm, tag, claimedTag]
              · intro both
                obtain ⟨_, wrong⟩ := success.mpr (both undefined).2
                cases wrong
          | ok value =>
              constructor
              · exact fun _ _ => ⟨served, success.mp ⟨value, rfl⟩⟩
              · rintro - ⟨_, wrong⟩
                cases wrong
    · next defined =>
        -- without a value to replace there is nothing to fail
        have finished := casFinish_returns continued
        rw [if_neg (by simp)] at finished
        obtain ⟨rfl, -⟩ := finished
        constructor
        · exact fun _ undefined => absurd undefined defined
        · rintro - ⟨_, wrong⟩
          cases wrong
  · refine iff_of_true (fun failed => ?_) (.inl none)
    by_cases mapped : array.isMapped = true
    · have below := @keyIndex_lt array key _ positive array.isMapped ledger.buf
      rw [if_neg (by simp [mapped] at below ⊢; omega),
        if_pos ⟨mapped, none.1⟩] at continued
      split at continued
      · obtain ⟨slot, between, taken, ended⟩ := continued
        rw [none.2] at taken
        obtain ⟨rfl, rfl⟩ := taken
        rw [if_pos (by decide)] at ended
        rw [ended.2]
        exact .refl
      · have finished := casFinish_returns continued
        rw [if_neg (by simp)] at finished
        obtain ⟨error, rfl⟩ := failed
        cases finished.1
    · rw [if_pos (.inl ⟨mapped, none.1⟩)] at continued
      rw [continued.2]
      exact .refl

/-- A tagged read or a compare-and-swap. -/
def KeyedOp.TaggedOrSwap : KeyedOp → Prop
  | .readFE | .readFF | .readRW | .cas _ _ => True
  | _ => False

/-- A tagged read or a compare-and-swap leaves the element unchanged whenever it
fails if and only if it does not fail, unless there is no element at all. -/
theorem failed_call_unchanged (positive : 0 < array.nElem) (inside : 0 ≤ idx)
    (element : ElementOf array key idx ledger.buf) {op : KeyedOp}
    (family : op.TaggedOrSwap)
    {stack : Tag} {result : KeyedRes}
    (returned : heapSolo.Returns
      (op.code array stack key patience) ledger result after) :
    (result.Failed → ElementUnchanged array idx ledger after) ↔
      NoElement array key ledger.buf ∨ op.Served array key idx ledger.buf := by
  cases op with
  | readFE =>
      obtain ⟨res, read, rfl⟩ := Solo.returns_map_iff.mp returned
      rw [KeyedRes.failed_value]
      exact failed_read_unchanged positive inside element (.inl rfl)
        (nofun : some FE.empty ≠ none) read
  | readFF =>
      obtain ⟨res, read, rfl⟩ := Solo.returns_map_iff.mp returned
      rw [KeyedRes.failed_value]
      exact failed_read_unchanged positive inside element (.inl rfl)
        (nofun : some FE.full ≠ none) read
  | readRW =>
      obtain ⟨res, read, rfl⟩ := Solo.returns_map_iff.mp returned
      rw [KeyedRes.failed_value]
      exact failed_read_unchanged positive inside element (.inr rfl)
        (nofun : some FE.rwLock ≠ none) read
  | cas oldValue newValue =>
      obtain ⟨res, compared, rfl⟩ := Solo.returns_map_iff.mp returned
      rw [KeyedRes.failed_value]
      exact failed_cas_unchanged positive inside element compared
  | read | releaseRW | write | writeXF | writeXE | writeEF | faa | setTag =>
      exact family.elim

end Calls

theorem longString_not_swapped :
    let _ := ieeeRuntime
    keyIndex ⟨1, false⟩ (scalar .integer 0) freshLedger.buf false = 0 ∧
      ∃ result after, heapSolo.Returns
          (KeyedOp.code ⟨1, false⟩ ⟨.full, .undefined, 0⟩
          (scalar .integer 0) (.cas (scalar .undefined 0) longString) 1)
            freshLedger result after ∧
        result.Failed ∧ (after.buf.tag (EMSdataCell 0)).fe = .busy := by
  intro _
  obtain ⟨result, after, returned, checked⟩ := heapSolo.exists_returns
    (KeyedOp.code ⟨1, false⟩ ⟨.full, .undefined, 0⟩ (scalar .integer 0)
      (.cas (scalar .undefined 0) longString) 1) freshLedger
    (fun played => (match played.1 with
      | .value (.error _) => true
      | _ => false) && (played.2.buf.tag (EMSdataCell 0)).fe = .busy)
            (by decide +kernel)
  rw [Bool.and_eq_true, decide_eq_true_eq] at checked
  refine ⟨by decide +kernel, result, after, returned, ?_, checked.2⟩
  match result, checked.1 with
  | .value (.error _), _ => trivial

theorem failed_call_unchanged_long :
    let _ := ieeeRuntime
    ∃ (result : KeyedRes) (after : Ledger),
      (result.Failed → ElementUnchanged ⟨1, false⟩ 0 freshLedger after) ↔
      NoElement ⟨1, false⟩ (scalar .integer 0) freshLedger.buf ∨
        KeyedOp.Served ⟨1, false⟩ (scalar .integer 0) 0 freshLedger.buf
          (.cas (scalar .undefined 0) longString) := by
  intro _
  obtain ⟨found, result, after, returned, -⟩ := longString_not_swapped
  refine ⟨result, after,
    failed_call_unchanged (by decide) le_rfl (.inl found) ?_ returned⟩
  trivial

/-- A compare-and-swap that fails in a fresh array leaves the element held. -/
theorem not_failed_call_unchanged :
    ¬ ∀ [CRuntime] (array : EmsArray) (level : Nat)
      (ledger after : Ledger) (idx : Int)
      (stack : Tag) (key : EMSvalueType) (op : KeyedOp) (patience : Nat)
        (result : KeyedRes),
      0 < array.nElem → 0 ≤ idx → InitialStore array level ledger →
      ElementOf array key idx ledger.buf → op.TaggedOrSwap →
      heapSolo.Returns (op.code array stack key patience) ledger result after →
      result.Failed → ElementUnchanged array idx ledger after := by
  intro unchanged
  let _ := ieeeRuntime
  obtain ⟨found, result, after, returned, failed, busy⟩ :=
    longString_not_swapped
  have same :=
    (unchanged ⟨1, false⟩ 0 freshLedger after 0 ⟨.full, .undefined, 0⟩
      (scalar .integer 0)
    (.cas (scalar .undefined 0) longString) 1 result (by decide) le_rfl
    ⟨fun _ _ _ => rfl, rfl, rfl, rfl, rfl⟩ (.inl found) trivial
      returned failed).tag
  rw [same] at busy
  exact nomatch busy

end EMS
