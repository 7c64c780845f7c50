import EMS.Confinement
import EMS.Placement
import EMS.SlotSearch

/-!
# Calls by key that have returned

The operations on the element of a key, and what is known when a process alone
has called one of them and the call has returned: where its search for the key
has ended, in which state it found the element, and what it did from there.
-/

namespace EMS

open SharedProgram

/-! ## The operations -/

/-- An operation on the element of a key, with its other arguments. -/
inductive KeyedOp where
  | read
  | readFE
  | readFF
  | readRW
  | releaseRW
  | write (value : EMSvalueType)
  | writeXF (value : EMSvalueType)
  | writeXE (value : EMSvalueType)
  | writeEF (value : EMSvalueType)
  | faa (value : EMSvalueType)
  | cas (oldValue newValue : EMSvalueType)
  | setTag (isFull : Bool)

inductive KeyedRes where
  | value (res : Except EMSError EMSvalueType)
  | written (res : Except EMSError Unit)
  | count (res : Int)
  | done (res : Bool)

/-- `stack` is what the variable `newTag` of `EMSreadUsingTags` starts with. -/
def KeyedOp.code [CRuntime] (array : EmsArray) (stack : Tag)
    (key : EMSvalueType) (op : KeyedOp)
    (patience : Nat) : EmsProg KeyedRes :=
  match op with
  | .read => .value <$> EMSread patience array stack key
  | .readFE => .value <$> EMSreadFE patience array stack key
  | .readFF => .value <$> EMSreadFF patience array stack key
  | .readRW => .value <$> EMSreadRW patience array stack key
  | .releaseRW => .count <$> EMSreleaseRW patience array key
  | .write value => .written <$> EMSwrite patience array key value
  | .writeXF value => .written <$> EMSwriteXF patience array key value
  | .writeXE value => .written <$> EMSwriteXE patience array key value
  | .writeEF value => .written <$> EMSwriteEF patience array key value
  | .faa value => .value <$> EMSfaa patience array key value
  | .cas oldValue newValue =>
      .value <$> EMScas patience array key oldValue newValue
  | .setTag isFull => .done <$> EMSsetTag patience array key isFull

/-- The call reports that it has failed. -/
def KeyedRes.Failed : KeyedRes → Prop
  | .value (.error _) => True
  | .value (.ok _) => False
  | .written (.error _) => True
  | .written (.ok _) => False
  | .count res => res < 0
  | .done res => res = false

/-! ## The tag of the slot -/

section Slots

variable {α : Type} {array : EmsArray} {idx : Int}
  {ledger after : Ledger} {value : α}

/-- The ledger after `releaseMap`. -/
def Ledger.released (array : EmsArray) (idx : Int) (ledger : Ledger) : Ledger :=
  if array.isMapped then
    ledger.setTag (EMSmapCell array.nElem idx)
      { ledger.buf.tag (EMSmapCell array.nElem idx) with fe := .full }
  else ledger

theorem releaseMap_returns {rest : Unit → EmsProg α} :
    heapSolo.Returns (releaseMap array idx >>= rest) ledger value after ↔
      heapSolo.Returns (rest ()) (ledger.released array idx) value after := by
  rw [releaseMap, Ledger.released]
  split
  · exact storeFE_returns
  · rfl

@[simp] theorem Ledger.released_word :
    (ledger.released array idx).buf.word = ledger.buf.word := by
  rw [Ledger.released]
  split <;> rfl

@[simp] theorem Ledger.released_live :
    (ledger.released array idx).live = ledger.live := by
  rw [Ledger.released]
  split <;> rfl

@[simp] theorem Ledger.released_heap :
    (ledger.released array idx).buf.heap = ledger.buf.heap := by
  rw [Ledger.released]
  split <;> rfl

@[simp] theorem Ledger.released_mem :
    (ledger.released array idx).buf.mem = ledger.buf.mem := by
  rw [Ledger.released]
  split <;> rfl

@[simp] theorem Ledger.released_memMutex :
    (ledger.released array idx).buf.memMutex = ledger.buf.memMutex := by
  rw [Ledger.released]
  split <;> rfl

theorem data_cell_ne_map {i : Int} (positive : 0 < array.nElem) :
    EMSdataCell i ≠ EMSmapCell array.nElem i := by
  intro same
  have equal : i + EMS_ARR_CB_SIZE = i + EMS_ARR_CB_SIZE + array.nElem := same
  omega

theorem mapTagOf_apart (positive : 0 < array.nElem) :
    ∀ map, mapTagOf array idx = some map → EMSdataCell idx ≠ map := by
  intro map same
  rw [mapTagOf] at same
  split at same
  · cases same
    exact data_cell_ne_map positive
  · cases same

@[simp] theorem Ledger.released_tag (positive : 0 < array.nElem) :
    (ledger.released array idx).buf.tag (EMSdataCell idx) = ledger.buf.tag
    (EMSdataCell idx) := by
  rw [Ledger.released]
  split
  · simp [data_cell_ne_map positive]
  · rfl

end Slots

/-! ## Reading -/

section Reading

variable {array : EmsArray} {idx : Int} {ledger after : Ledger} {patience : Nat}
  {initialFE finalFE : Option FE}

/-- The ledger after `finishRead`. -/
def Ledger.finished (array : EmsArray) (idx : Int) (finalFE : Option FE)
    (newTag : Tag)
    (ledger : Ledger) : Ledger :=
  match finalFE with
  | some fe =>
      (ledger.setTag (EMSdataCell idx) { newTag with fe := fe }).released array
        idx
  | none => ledger.released array idx

theorem finishRead_returns {α : Type} {newTag : Tag} {rest : Unit → EmsProg α}
    {value : α} :
    heapSolo.Returns (finishRead array idx finalFE newTag >>= rest) ledger
      value after ↔
      heapSolo.Returns (rest ()) (ledger.finished array idx finalFE newTag)
        value after := by
  cases finalFE with
  | none => exact releaseMap_returns
  | some fe =>
      rw [finishRead, bind_assoc, storeTag_returns]
      exact releaseMap_returns

/-- An element of a known type is read; one of an unknown type is left as it is
while it is held. -/
theorem readElement_returns {newTag : Tag}
    {result : Except EMSError EMSvalueType}
    (returned : heapSolo.Returns (readElement patience array idx finalFE newTag)
      ledger result after) :
    if IsValue newTag.type then
      (∃ value : EMSvalueType, result = .ok value ∧ value.type = newTag.type) ∧
        after = ledger.finished array idx finalFE newTag
    else result = .error .unknownType ∧ after = ledger := by
  rw [readElement] at returned
  cases type : newTag.type with
  | boolean | integer | float | undefined =>
      rw [if_pos (by decide)]
      simp only [type, load_returns, finishRead_returns] at returned
      obtain ⟨rfl, rfl⟩ := Solo.returns_ret_iff.mp returned
      exact ⟨⟨_, rfl, rfl⟩, rfl⟩
  | json | string =>
      rw [if_pos (by decide)]
      simp only [type, load_returns] at returned
      obtain ⟨length, between, measured, continued⟩ :=
        Solo.returns_bind_iff.mp returned
      obtain ⟨rfl, -⟩ := heapStrlen_returns measured
      rw [finishRead_returns] at continued
      obtain ⟨rfl, rfl⟩ := Solo.returns_ret_iff.mp continued
      exact ⟨⟨_, rfl, rfl⟩, rfl⟩
  | invalid | unassigned =>
      rw [if_neg (by decide)]
      simp only [type] at returned
      exact Solo.returns_ret_iff.mp returned

/-- The tag with which a read holds an element. -/
def heldForRead (initialFE : Option FE) (memTag : Tag) : Tag :=
  { memTag with
    fe := .busy
    rw := if initialFE = some .rwLock then memTag.rw + 1 else memTag.rw }

/-- The ledger with the element held, if the read waits for it at all. -/
def Ledger.heldForRead (idx : Int) (initialFE : Option FE)
    (ledger : Ledger) : Ledger :=
  match initialFE with
  | none => ledger
  | some _ => ledger.setTag (EMSdataCell idx)
      (EMS.heldForRead initialFE (ledger.buf.tag (EMSdataCell idx)))

/-- A read that returns has found the element as it wants it. -/
theorem readLoop_returns (positive : 0 < array.nElem) {tries : Nat}
    {newTag : Tag}
    {result : Except EMSError EMSvalueType}
    (returned : heapSolo.Returns
      (readLoop patience array idx initialFE finalFE tries newTag)
      ledger result after) :
    mayRead initialFE (ledger.buf.tag (EMSdataCell idx)) newTag = true ∧
      heapSolo.Returns (readElement patience array idx finalFE
          (heldForRead initialFE (ledger.buf.tag (EMSdataCell idx))))
        (ledger.heldForRead idx initialFE) result after := by
  induction tries generalizing ledger newTag with
  | zero => cases returned
  | succ tries induction =>
      simp only [readLoop, loadTag_returns] at returned
      split at returned
      · next may =>
          refine ⟨may, ?_⟩
          cases initialFE with
          | none => exact returned
          | some fe =>
              have found : (if fe = .rwLock then
                  ledger.buf.tag (EMSdataCell idx)
                  else { ledger.buf.tag (EMSdataCell idx) with fe := fe }) =
                  ledger.buf.tag (EMSdataCell idx) := by
                split
                · rfl
                · next other =>
                    have awaited : (ledger.buf.tag (EMSdataCell idx)).fe =
                        fe := by
                      cases fe <;> simp_all [mayRead]
                    rw [← awaited]
              simp only [found, casTag_returns, if_true] at returned
              exact returned
      · next mayNot =>
          -- the tag stays what it is, so the next try fails as well
          exfalso
          split at returned
          · next mapped =>
              simp only [storeFE_returns] at returned
              obtain ⟨-, continued⟩ := transition_returns returned
              have again := (induction continued).1
              simp only [Ledger.setTag_buf, EmsBuf.setTag_tag,
                Function.update_of_ne (data_cell_ne_map positive)] at again
              exact mayNot again
          · exact mayNot (induction returned).1

/-- A read is turned away by its search, or reads the element that it has
found or been given. -/
theorem EMSreadUsingTags_returns [CRuntime] {stack : Tag} {key : EMSvalueType}
    {result : Except EMSError EMSvalueType}
    (returned : heapSolo.Returns
      (EMSreadUsingTags patience array stack key initialFE finalFE)
      ledger result after) :
    let found := keyIndex array key ledger.buf array.isMapped
    if array.isMapped = true ∧ found < 0 then
      if finalFE = none then result = .ok (scalar .undefined 0xdeafbeef) ∧
        after = ledger
      else ∃ slot between,
        heapSolo.Returns (EMSwriteIndexMap patience array key) ledger
          slot between ∧
        if slot < 0 then result = .error .unableToAllocate ∧ after = between
        else if array.nElem ≤ slot then result = .error .indexOutOfBounds ∧
          after = between
        else heapSolo.Returns
          (readLoop patience array slot initialFE finalFE patience stack)
          between result after
    else if found < 0 ∨ array.nElem ≤ found then
      result = .error .indexOutOfBounds ∧ after = ledger
    else heapSolo.Returns
      (readLoop patience array found initialFE finalFE patience stack)
      ledger result after := by
  intro found
  rw [EMSreadUsingTags] at returned
  obtain ⟨_, _, looked, continued⟩ := Solo.returns_bind_iff.mp returned
  obtain ⟨rfl, rfl⟩ := EMSkey2index_returns looked
  by_cases absent : array.isMapped = true ∧ found < 0
  · rw [if_pos absent] at continued ⊢
    by_cases only : finalFE = none
    · rw [if_pos only] at continued ⊢
      exact Solo.returns_ret_iff.mp continued
    · rw [if_neg only] at continued ⊢
      obtain ⟨slot, between, searched, ended⟩ :=
        Solo.returns_bind_iff.mp continued
      refine ⟨slot, between, searched, ?_⟩
      split at ended
      · next negative =>
          rw [if_pos negative]
          exact Solo.returns_ret_iff.mp ended
      · next inside =>
          rw [if_neg inside]
          split at ended
          · next above =>
              rw [if_pos above]
              exact Solo.returns_ret_iff.mp ended
          · next below =>
              rw [if_neg below]
              exact ended
  · rw [if_neg absent] at continued ⊢
    split at continued
    · next outside =>
        rw [if_pos outside]
        exact Solo.returns_ret_iff.mp continued
    · next inside =>
        rw [if_neg inside]
        exact continued

end Reading

/-! ## Writing -/

section Writing

variable {array : EmsArray} {idx : Int} {ledger after : Ledger} {patience : Nat}
  {initialFE finalFE : Option FE} {value : EMSvalueType}
    {result : Except EMSError Unit}

/-- The ledger after an old string has been given back, if there is one. -/
def GivesBack (idx : Int) (type : EMSType) (ledger between : Ledger) : Prop :=
  if type.IsText then
    ∃ mem, emsMem_free ledger.buf.mem
      (heapOffset (ledger.buf.word (EMSdataCell idx))) = .ok mem ∧
      between = ledger.freed (ledger.buf.word (EMSdataCell idx)) mem
  else between = ledger

theorem givesBack_returns {α : Type} {type : EMSType}
    {rest : EmsProg α} {value : α}
    (returned : heapSolo.Returns (if type = .string ∨ type = .json then do
        let old ← load (EMSdataCell idx)
        emsMutexMem_free patience old
        rest
      else rest) ledger value after) :
    ∃ between, GivesBack idx type ledger between ∧
      heapSolo.Returns rest between value after := by
  by_cases text : type.IsText
  · rw [if_pos (show type = .string ∨ type = .json from text),
      load_returns] at returned
    obtain ⟨mem, success, continued⟩ := emsMutexMem_free_returns returned
    refine ⟨_, ?_, continued⟩
    rw [GivesBack, if_pos text]
    exact ⟨mem, success, rfl⟩
  · rw [if_neg (show ¬ (type = .string ∨ type = .json) from text)] at returned
    refine ⟨ledger, ?_, returned⟩
    rw [GivesBack, if_neg text]

theorem GivesBack.tag {type : EMSType} {between : Ledger}
    (gives : GivesBack idx type ledger between) :
    between.buf.tag = ledger.buf.tag := by
  rw [GivesBack] at gives
  split at gives
  · obtain ⟨mem, -, rfl⟩ := gives
    rfl
  · rw [gives]

/-- The allocator when the string of an element of the type has been given
back. -/
def memWithout (idx : Int) (type : EMSType) (buf : EmsBuf) : EmsMem :=
  if type.IsText then
    match emsMem_free buf.mem (heapOffset (buf.word (EMSdataCell idx))) with
    | .ok mem => mem
    | .error _ => buf.mem
  else buf.mem

theorem GivesBack.mem {type : EMSType} {between : Ledger}
    (gives : GivesBack idx type ledger between) :
    between.buf.mem = memWithout idx type ledger.buf := by
  rw [GivesBack] at gives
  rw [memWithout]
  split at gives
  · next text =>
      obtain ⟨mem, success, rfl⟩ := gives
      rw [if_pos text, success]
      rfl
  · next other => rw [gives, if_neg other]

/-- A value has been stored, or the call has failed and the element's tag and
word are what they were. -/
theorem storeValue_returns
    (returned : heapSolo.Returns
      (storeValue patience idx value) ledger result after) :
    (∃ error, result = .error error ∧
      (value.type.IsText ∧ error = .outOfMemory ∧
          ¬ Serves ledger.buf.mem (value.length + 1) ∨
        ¬ IsValue value.type ∧ error = .unknownType) ∧
      after.buf.tag = ledger.buf.tag ∧ after.buf.word = ledger.buf.word ∧
      after.buf.heap = ledger.buf.heap ∧ after.live = ledger.live) ∨
    result = .ok () ∧ IsValue value.type ∧
      (value.type.IsText → Serves ledger.buf.mem (value.length + 1)) ∧
      after.buf.tag = ledger.buf.tag ∧
      ∀ cell, cell ≠ EMSdataCell idx → after.buf.word cell =
        ledger.buf.word cell := by
  rw [storeValue] at returned
  cases type : value.type with
  | boolean | integer | float | undefined =>
      simp only [type, store_returns] at returned
      obtain ⟨rfl, rfl⟩ := Solo.returns_ret_iff.mp returned
      refine .inr
        ⟨rfl, by decide, (fun wrong => absurd wrong (by decide)), rfl, ?_⟩
      intro cell different
      simp [different]
  | invalid | unassigned =>
      simp only [type] at returned
      obtain ⟨rfl, rfl⟩ := Solo.returns_ret_iff.mp returned
      exact .inl ⟨_, rfl, .inr ⟨by decide, rfl⟩, rfl, rfl, rfl, rfl⟩
  | json | string =>
      simp only [type] at returned
      obtain ⟨address, between, requested, continued⟩ :=
        Solo.returns_bind_iff.mp returned
      obtain ⟨mem, answer, rfl⟩ := emsMutexMem_alloc_returns requested
      have serves := serves_of_answer answer
      split at continued
      · next negative =>
          obtain ⟨rfl, rfl⟩ := Solo.returns_ret_iff.mp continued
          refine .inl ⟨_, rfl, .inl ⟨by decide, rfl, ?_⟩, rfl, rfl, rfl, ?_⟩
          · rw [serves]
            omega
          · exact Ledger.allocated_live _ _ _ _ negative
      · next positive =>
          rw [store_returns] at continued
          have copied := copyToHeap_returns continued
          obtain ⟨rfl, rfl⟩ := Solo.returns_ret_iff.mp copied
          refine .inr ⟨rfl, by decide, fun _ => serves.mpr (by omega), rfl, ?_⟩
          intro cell different
          simp [different]

/-- The tag of an element that has been written. -/
def writtenTag (finalFE : Option FE) (type : EMSType) (newTag : Tag) : Tag :=
  match finalFE with
  | none => { newTag with type := type }
  | some fe => ⟨fe, type, 0⟩

/-- A held element is written, or the value could not be stored. -/
theorem writeElement_returns {oldTag newTag : Tag}
    (held : ledger.buf.tag (EMSdataCell idx) = newTag)
    (returned : heapSolo.Returns
      (writeElement patience array idx value finalFE oldTag newTag)
      ledger result after) :
    ∃ between stored outcome, GivesBack idx oldTag.type ledger between ∧
      heapSolo.Returns (storeValue patience idx value) between outcome stored ∧
      match outcome with
      | .error error => result = .error error ∧ after = stored
      | .ok () => result = .ok () ∧ after = (stored.setTag (EMSdataCell idx)
          (writtenTag finalFE value.type newTag)).released array idx := by
  simp only [writeElement] at returned
  obtain ⟨between, gives, continued⟩ := givesBack_returns returned
  obtain ⟨outcome, stored, storing, ended⟩ := Solo.returns_bind_iff.mp continued
  refine ⟨between, stored, outcome, gives, storing, ?_⟩
  have kept : stored.buf.tag (EMSdataCell idx) = newTag := by
    rw [← held, ← gives.tag]
    rcases storeValue_returns storing with ⟨_, -, -, tag, -⟩ | ⟨-, -, -, tag, -⟩
    · rw [tag]
    · rw [tag]
  cases outcome with
  | error error => exact Solo.returns_ret_iff.mp ended
  | ok =>
      cases finalFE with
      | none =>
          simp only [storeTag_returns, releaseMap_returns] at ended
          exact Solo.returns_ret_iff.mp ended
      | some fe =>
          simp only [loadTag_returns, kept, ne_eq, not_true_eq_false, if_false,
            storeTag_returns,
            releaseMap_returns] at ended
          exact Solo.returns_ret_iff.mp ended

/-- The tag with which a write holds an element. -/
def heldForWrite (finalFE : Option FE) (memTag : Tag) : Tag :=
  if finalFE = none then memTag else { memTag with fe := .busy }

/-- A write that returns has found an element that is not busy, unless it
ignores tags or waits for one itself. -/
theorem writeLoop_returns {tries : Nat}
    (returned : heapSolo.Returns
      (writeLoop patience array value initialFE finalFE tries idx)
      ledger result after) :
    let slot := idx.tmod array.nElem
    let memTag := ledger.buf.tag (EMSdataCell slot)
    (initialFE = none → finalFE ≠ none → memTag.fe ≠ .busy) ∧
      heapSolo.Returns (writeElement patience array slot value finalFE memTag
          (heldForWrite finalFE memTag))
        (if initialFE ≠ none ∨ finalFE = none then ledger
          else ledger.setTag (EMSdataCell slot) (heldForWrite finalFE memTag))
              result after := by
  intro slot memTag
  induction tries generalizing idx with
  | zero => cases returned
  | succ tries induction =>
      simp only [writeLoop, loadTag_returns] at returned
      split at returned
      · next direct =>
          refine ⟨fun first last => absurd direct (by simp [first, last]), ?_⟩
          rw [if_pos direct]
          exact returned
      · next waits =>
          rw [if_neg waits]
          split at returned
          · next free =>
              simp only [casTag_returns, if_true] at returned
              exact ⟨fun _ _ => free, returned⟩
          · have again := induction returned
            simp only [Int.tmod_tmod, if_neg waits] at again
            exact again

/-- How a write comes to work on the element: it makes the element busy, which
it was not, or works on it whatever its tag is. -/
def AcquiredForWrite (idx : Int) (initialFE finalFE : Option FE)
    (ledger held : Ledger) : Prop :=
  if finalFE = none then held = ledger
  else (ledger.buf.tag (EMSdataCell idx)).fe ≠ .busy ∧
    (∀ fe, initialFE = some fe → (ledger.buf.tag (EMSdataCell idx)).fe = fe) ∧
    held = ledger.setTag (EMSdataCell idx)
      { ledger.buf.tag (EMSdataCell idx) with fe := .busy }

/-- What a write does when its search has ended. -/
theorem EMSwriteUsingTags_searched [CRuntime] (positive : 0 < array.nElem)
    {key : EMSvalueType}
    (waits : initialFE ≠ none → finalFE ≠ none) (idle : initialFE ≠ some .busy)
    (returned : heapSolo.Returns
      (EMSwriteUsingTags patience array key value initialFE finalFE)
      ledger result after) :
    ∃ slot between, heapSolo.Returns (EMSwriteIndexMap patience array key)
      ledger slot between ∧
      if slot < 0 then result = .error .indexOutOfBounds ∧ after = between
      else ∃ held placed stored outcome,
        AcquiredForWrite slot initialFE finalFE between held ∧
        GivesBack slot (between.buf.tag (EMSdataCell slot)).type held placed ∧
        heapSolo.Returns (storeValue patience slot value) placed
          outcome stored ∧
        match outcome with
        | .error error => result = .error error ∧ after = stored
        | .ok () => result = .ok () ∧ after = (stored.setTag (EMSdataCell slot)
            (writtenTag finalFE value.type
              (held.buf.tag (EMSdataCell slot)))).released
              array slot := by
  simp only [EMSwriteUsingTags] at returned
  obtain ⟨slot, between, searched, continued⟩ :=
    Solo.returns_bind_iff.mp returned
  have taken := EMSwriteIndexMap_returns positive searched
  refine ⟨slot, between, searched, ?_⟩
  split at continued
  · next negative =>
      rw [if_pos negative]
      exact Solo.returns_ret_iff.mp continued
  · next inside =>
      rw [if_neg inside]
      have remainder := taken.tmod (by omega)
      cases initialFE with
      | none =>
          obtain ⟨free, written⟩ := writeLoop_returns continued
          simp only [remainder] at free written
          cases finalFE with
          | none =>
              obtain ⟨placed, stored, outcome, gives, storing, ends⟩ :=
                writeElement_returns (by rfl) written
              exact ⟨between, placed, stored,
                outcome, by rw [AcquiredForWrite, if_pos rfl],
                gives, storing, ends⟩
          | some last =>
              rw [if_neg (by simp)] at written
              obtain ⟨placed, stored, outcome, gives, storing, ends⟩ :=
                writeElement_returns (by simp) written
              refine ⟨_, placed, stored, outcome, ?_, gives, storing, ?_⟩
              · rw [AcquiredForWrite, if_neg nofun]
                exact ⟨free trivial nofun, nofun, rfl⟩
              · simpa [heldForWrite] using ends
      | some fe =>
          obtain ⟨tag, start, waited, looped⟩ :=
            Solo.returns_bind_iff.mp continued
          obtain ⟨found, -, rfl⟩ :=
            EMStransitionFEtag_returns (mapTagOf_apart positive) waited
          have last := waits nofun
          obtain ⟨-, written⟩ := writeLoop_returns looped
          rw [if_pos (.inl nofun), remainder] at written
          simp only [Ledger.setTag_buf, EmsBuf.setTag_tag, Function.update_self,
            heldForWrite,
            if_neg last] at written
          obtain ⟨placed, stored, outcome, gives, storing, ends⟩ :=
            writeElement_returns (by simp) written
          refine ⟨_, placed, stored, outcome, ?_, gives, storing, ?_⟩
          · rw [AcquiredForWrite, if_neg last]
            refine ⟨fun busy => idle ?_, ?_, rfl⟩
            · rw [← found, busy]
            · rintro _ ⟨⟩
              exact found
          · simpa using ends

/-- A write is turned away by its search, or works on the element that it has
found or been given. -/
theorem EMSwriteUsingTags_returns [CRuntime] (positive : 0 < array.nElem)
    {key : EMSvalueType}
    (waits : initialFE ≠ none → finalFE ≠ none) (idle : initialFE ≠ some .busy)
    (returned : heapSolo.Returns
      (EMSwriteUsingTags patience array key value initialFE finalFE)
      ledger result after) :
    ∃ slot between, SlotTaken array key ledger (slotSearch array key ledger.buf)
      slot between ∧
      if slot < 0 then result = .error .indexOutOfBounds ∧ after = between
      else ∃ held placed stored outcome,
        AcquiredForWrite slot initialFE finalFE between held ∧
        GivesBack slot (between.buf.tag (EMSdataCell slot)).type held placed ∧
        heapSolo.Returns (storeValue patience slot value) placed
          outcome stored ∧
        match outcome with
        | .error error => result = .error error ∧ after = stored
        | .ok () => result = .ok () ∧ after = (stored.setTag (EMSdataCell slot)
            (writtenTag finalFE value.type
              (held.buf.tag (EMSdataCell slot)))).released
              array slot := by
  obtain ⟨slot, between, searched, written⟩ :=
    EMSwriteUsingTags_searched positive waits idle returned
  exact ⟨slot, between, EMSwriteIndexMap_returns positive searched, written⟩

end Writing

end EMS
