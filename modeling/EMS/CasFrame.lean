import EMS.FailedElements

/-!
# The frame of a compare-and-swap

What a compare-and-swap changes besides the element of its key.  An absent key
has the index -1, which is used as the index of an element where the old value
is not undefined, and as the start of the search for a slot where it is.
-/

namespace EMS

open SharedProgram

/-! ## What a swap on an element can change -/

section Confinement

variable {array : EmsArray} {idx : Int} {ledger after : Ledger} {patience : Nat}
  {tags words : Cell → Prop}

theorem releaseMap_confined {α : Type} {rest : Unit → EmsProg α}
    (mayMap : array.isMapped = true → tags (EMSmapCell array.nElem idx))
    (next : Confined tags words (rest ())) :
    Confined tags words (releaseMap array idx >>= rest) := by
  rw [releaseMap]
  split
  · next mapped => exact confined_storeFE (mayMap mapped) next
  · exact next

theorem casRead_confined [CRuntime] {type : EMSType} :
    Confined tags words (casRead patience idx type) := by
  cases type with
  | boolean | integer | float => exact confined_load fun _ => trivial
  | json | string =>
      apply confined_load
      intro textOffset
      apply heapStrlen_confined.bind
      intro length
      split
      · apply copyFromHeap_confined.bind
        exact fun _ => trivial
      · trivial
  | undefined | invalid | unassigned => trivial

private theorem casFinish_confined {current newValue : EMSvalueType}
    {swapped : Bool}
    (may : tags (EMSdataCell idx)) (mayWord : words (EMSdataCell idx))
    (mayMap : array.isMapped = true → tags (EMSmapCell array.nElem idx)) :
    Confined tags words
      (casFinish patience array idx current newValue swapped) := by
  have storing : ∀ rest : Except EMSError Unit →
      EmsProg (Except EMSError EMSvalueType),
      (∀ error, rest (.error error) = pure (.error error)) →
      Confined tags words (rest (.ok ())) →
      Confined tags words (casStore patience idx newValue >>= rest) := by
    intro rest failed finished
    apply (casStore_confined mayWord).bind
    intro stored
    cases stored with
    | error error =>
        rw [failed]
        trivial
    | ok => exact finished
  simp only [casFinish]
  split
  · split
    · apply confined_load
      intro old
      apply free_confined.bind
      exact fun _ => storing _ (fun _ => rfl)
        (confined_storeTag may (releaseMap_confined mayMap trivial))
    · exact storing _ (fun _ => rfl)
        (confined_storeTag may (releaseMap_confined mayMap trivial))
  · exact confined_storeTag may (releaseMap_confined mayMap trivial)

private theorem casElement_confined [CRuntime]
    {oldValue newValue : EMSvalueType}
    (may : tags (EMSdataCell idx)) (mayWord : words (EMSdataCell idx))
    (mayMap : array.isMapped = true → tags (EMSmapCell array.nElem idx)) :
    Confined tags words (casElement patience array idx oldValue newValue) := by
  rw [casElement]
  apply (transition_confined may ?_).bind
  · intro tag
    apply confined_loadTag
    intro tag
    apply casRead_confined.bind
    intro current
    cases current with
    | error => trivial
    | ok => exact casFinish_confined may mayWord mayMap
  · intro map same
    rw [mapTagOf] at same
    split at same
    · next mapped =>
        cases same
        exact mayMap mapped
    · cases same

theorem casElement_others [CRuntime] {oldValue newValue : EMSvalueType}
    {i : Int} (inside : 0 ≤ idx)
    (below : i < array.nElem) (other : i ≠ idx)
    {result : Except EMSError EMSvalueType}
    (returned : heapSolo.Returns
      (casElement patience array idx oldValue newValue)
      ledger result after) :
    after.buf.tag (EMSdataCell i) = ledger.buf.tag (EMSdataCell i) ∧
      after.buf.word (EMSdataCell i) = ledger.buf.word (EMSdataCell i) := by
  have apart : EMSdataCell i ≠ EMSdataCell idx := by
    intro same
    have equal : i + EMS_ARR_CB_SIZE = idx + EMS_ARR_CB_SIZE := same
    omega
  have apartMap : EMSdataCell i ≠ EMSmapCell array.nElem idx := by
    intro same
    have equal : i + EMS_ARR_CB_SIZE = idx + EMS_ARR_CB_SIZE + array.nElem :=
      same
    omega
  have confined : Confined
      (fun cell => cell = EMSdataCell idx ∨ cell = EMSmapCell array.nElem idx)
      (fun cell => cell = EMSdataCell idx)
      (casElement patience array idx oldValue newValue) :=
    casElement_confined (.inl rfl) rfl fun _ => .inr rfl
  refine ⟨confined.tag returned ?_, confined.word returned apart⟩
  rintro (same | same)
  · exact apart same
  · exact apartMap same

end Confinement

/-! ## When a swap on an element leaves it as it is -/

section Leaving

variable {array : EmsArray} {idx : Int} {ledger after : Ledger} {patience : Nat}
  {oldValue newValue : EMSvalueType}

/-- What a swap stores: the word of the element, and the allocator and the heap
when there is a string. -/
def CasStores (newValue : EMSvalueType) (mem : EmsMem) (heap : Int → UInt8)
    (word : Int)
    (mem' : EmsMem) (heap' : Int → UInt8) : Prop :=
  match newValue.type with
  | .undefined => word = 0xbeeff00d ∧ mem' = mem ∧ heap' = heap
  | .boolean | .integer | .float =>
      word = newValue.value ∧ mem' = mem ∧ heap' = heap
  | _ => 0 ≤ word ∧ emsMem_alloc mem (newValue.length + 1) = .ok (word, mem') ∧
      heap' = writeText heap word newValue.text.bytes

theorem CasStores.unique {mem mem' mem'' : EmsMem}
    {heap heap' heap'' : Int → UInt8}
    {word word' : Int} (stores : CasStores newValue mem heap word mem' heap')
    (stores' : CasStores newValue mem heap word' mem'' heap'') :
    word = word' ∧ mem' = mem'' ∧ heap' = heap'' := by
  rw [CasStores] at stores stores'
  cases type : newValue.type with
  | undefined | boolean | integer | float =>
      simp only [type] at stores stores'
      obtain ⟨rfl, rfl, rfl⟩ := stores
      obtain ⟨rfl, rfl, rfl⟩ := stores'
      exact ⟨rfl, rfl, rfl⟩
  | json | string | invalid | unassigned =>
      simp only [type] at stores stores'
      obtain ⟨-, answer, rfl⟩ := stores
      obtain ⟨-, answer', rfl⟩ := stores'
      rw [answer] at answer'
      cases answer'
      exact ⟨rfl, rfl, rfl⟩

/-- The memory with another tag and word of an element, and another heap. -/
def EmsBuf.replaced (buf : EmsBuf) (cell : Cell) (tag : Tag) (word : Int)
    (mem : EmsMem)
    (heap : Int → UInt8) : EmsBuf :=
  (((buf.setMem mem).setHeap heap).setWord cell word).setTag cell tag

theorem EmsBuf.replaced_eq_iff {buf : EmsBuf} {cell : Cell} {tag : Tag}
    {word : Int}
    {mem : EmsMem} {heap : Int → UInt8} :
    buf.replaced cell tag word mem heap = buf ↔
      tag = buf.tag cell ∧ word = buf.word cell ∧ mem = buf.mem ∧
        heap = buf.heap := by
  constructor
  · intro same
    refine ⟨?_, ?_, ?_, ?_⟩
    · simpa [replaced] using congrFun (congrArg EmsBuf.tag same) cell
    · simpa [replaced] using congrFun (congrArg EmsBuf.word same) cell
    · exact congrArg EmsBuf.mem same
    · exact congrArg EmsBuf.heap same
  · rintro ⟨rfl, rfl, rfl, rfl⟩
    simp [replaced, setTag, setWord, setMem, setHeap]

/-- The blocks that are live when a value has been stored. -/
def StoredLive (value : EMSvalueType) (before after : Ledger) : Prop :=
  if value.type.IsText then ∃ block, after.live = block :: before.live
  else after.live = before.live

/-- A new value has been stored. -/
private theorem casStore_stores
    (returned : heapSolo.Returns (casStore patience idx newValue) ledger
      (.ok ()) after) :
    StoredLive newValue ledger after ∧
    ∃ word mem heap, CasStores newValue ledger.buf.mem ledger.buf.heap
      word mem heap ∧
      after.buf = ((ledger.buf.setMem mem).setHeap heap).setWord
        (EMSdataCell idx) word := by
  rw [casStore] at returned
  simp only [CasStores, StoredLive]
  cases type : newValue.type with
  | undefined | boolean | integer | float =>
      simp only [type, store_returns] at returned
      obtain ⟨-, rfl⟩ := Solo.returns_ret_iff.mp returned
      exact ⟨rfl, _, _, _, ⟨rfl, rfl, rfl⟩, rfl⟩
  | json | string =>
      simp only [type] at returned
      obtain ⟨address, between, requested, continued⟩ :=
        Solo.returns_bind_iff.mp returned
      obtain ⟨mem, answer, rfl⟩ := emsMutexMem_alloc_returns requested
      split at continued
      · cases (Solo.returns_ret_iff.mp continued).1
      · next positive =>
          rw [pure_bind] at continued
          have copied := copyToHeap_returns continued
          rw [store_returns] at copied
          obtain ⟨-, rfl⟩ := Solo.returns_ret_iff.mp copied
          refine ⟨⟨_, if_pos (by omega)⟩, address, mem, _,
            ⟨by omega, answer, rfl⟩, rfl⟩
  | invalid | unassigned =>
      simp only [type] at returned
      cases (Solo.returns_ret_iff.mp returned).1

/-- An old string that is given back changes the allocator only. -/
theorem GivesBack.buf {type : EMSType} {between : Ledger}
    (gives : GivesBack idx type ledger between) :
    between.buf = ledger.buf.setMem (memWithout idx type ledger.buf) := by
  have mem := gives.mem
  rw [GivesBack] at gives
  split at gives
  · obtain ⟨mem', -, rfl⟩ := gives
    rw [← mem]
    rfl
  · subst gives
    rw [← mem]
    rfl

theorem Ledger.released_full
    (full : array.isMapped = true →
      (ledger.buf.tag (EMSmapCell array.nElem idx)).fe = .full) :
    ledger.released array idx = ledger := by
  rw [Ledger.released]
  split
  · next mapped =>
      have same : { ledger.buf.tag (EMSmapCell array.nElem idx)
          with fe := .full } =
          ledger.buf.tag (EMSmapCell array.nElem idx) := by
        rw [← full mapped]
      rw [same, Ledger.setTag_self]
  · rfl

/-- A compare-and-swap that has succeeded on an element has kept its value, or
has given it the new one. -/
theorem casElement_done [CRuntime] (positive : 0 < array.nElem)
    {value : EMSvalueType}
    (returned : heapSolo.Returns
      (casElement patience array idx oldValue newValue)
      ledger (.ok value) after) :
    let old := ledger.buf.tag (EMSdataCell idx)
    Readable idx old.type ledger.buf ∧ value.type = old.type ∧ ∃ known,
      after = Ledger.released array idx known ∧
      (¬ CasMatches idx ledger.buf oldValue ∧
          known = ledger.setTag (EMSdataCell idx) ⟨.full, old.type, 0⟩ ∨
        CasMatches idx ledger.buf oldValue ∧
          (¬ old.type.IsText → StoredLive newValue ledger known) ∧
              ∃ word mem heap,
          CasStores newValue (memWithout idx old.type ledger.buf)
            ledger.buf.heap word mem heap ∧
          known.buf = ledger.buf.replaced (EMSdataCell idx)
            ⟨.full, newValue.type, 0⟩ word mem
            heap) := by
  intro old
  obtain ⟨-, ⟨readable, current, reading, ended⟩ | ⟨-, ⟨error, wrong⟩, -⟩⟩ :=
    casElement_returns positive returned
  case inr => cases wrong
  have isType : current.type = old.type := (casRead_returns reading).2.2.1
  have equal : casEqual oldValue current = true ↔
      CasMatches idx ledger.buf oldValue := by
    rw [casEqual_iff (by simp) reading]
    simp [CasMatches]
  have finished := casFinish_returns ended
  split at finished
  · next swaps =>
      obtain ⟨placed, stored, outcome, gives, storing, ends⟩ := finished
      cases outcome with
      | error error => cases ends.1
      | ok =>
          obtain ⟨⟨⟩, rfl⟩ := ends
          obtain ⟨live, word, mem, heap, stores, stored⟩ :=
            casStore_stores storing
          rw [gives.buf, isType] at stores stored
          refine ⟨readable, isType, _, rfl,
            .inr ⟨equal.mp swaps, fun noText => ?_,
            word, mem, heap, stores, ?_⟩⟩
          · rw [GivesBack, isType, if_neg noText] at gives
            subst gives
            exact live
          · rw [Ledger.setTag_buf, stored, EmsBuf.replaced]
            simp [EmsBuf.setTag, EmsBuf.setWord, EmsBuf.setMem, EmsBuf.setHeap]
  · next keeps =>
      obtain ⟨⟨⟩, rfl⟩ := finished
      refine ⟨readable, isType, _, rfl,
        .inl ⟨fun wanted => keeps (equal.mpr wanted), ?_⟩⟩
      rw [isType, Ledger.setTag_setTag]

/-- What has become of the element: it is still held, has kept its value, or
has been given the new one. -/
theorem casElement_effect [CRuntime] (positive : 0 < array.nElem)
    (mapFull : array.isMapped = true →
      (ledger.buf.tag (EMSmapCell array.nElem idx)).fe = .full)
    {result : Except EMSError EMSvalueType}
    (returned : heapSolo.Returns
      (casElement patience array idx oldValue newValue)
      ledger result after) :
    let old := ledger.buf.tag (EMSdataCell idx)
    let mem := memWithout idx old.type ledger.buf
    old.fe = .full ∧
      ((after.buf.tag (EMSdataCell idx)).fe = .busy ∧
          ¬ (Readable idx old.type ledger.buf ∧
            (CasMatches idx ledger.buf oldValue → Storable mem newValue)) ∨
        Readable idx old.type ledger.buf ∧
          ¬ CasMatches idx ledger.buf oldValue ∧
          after.buf = ledger.buf.setTag (EMSdataCell idx) ⟨.full, old.type, 0⟩ ∨
        Readable idx old.type ledger.buf ∧ CasMatches idx ledger.buf oldValue ∧
            ∃ word mem' heap,
          CasStores newValue mem ledger.buf.heap word mem' heap ∧
          after.buf = ledger.buf.replaced (EMSdataCell idx)
            ⟨.full, newValue.type, 0⟩ word mem'
            heap) := by
  intro old mem
  have fails := casElement_fails positive returned
  cases result with
  | error error =>
      obtain ⟨full, tag⟩ := fails.2 error rfl
      refine ⟨full, .inl ⟨?_, fun served => ?_⟩⟩
      · rw [tag, Function.update_self]
      · exact nomatch (fails.1.mpr served).choose_spec
  | ok value =>
      obtain ⟨full, -⟩ := casElement_returns positive returned
      obtain ⟨readable, -, known, rfl, done⟩ :=
        casElement_done positive returned
      -- what is done to the tag of the element leaves the slot full
      have stillFull : ∀ {tag : Tag},
          known.buf.tag = Function.update ledger.buf.tag (EMSdataCell idx) tag →
          known.released array idx = known := by
        intro tag same
        apply Ledger.released_full
        intro mapped
        rw [same, Function.update_of_ne (data_cell_ne_map positive).symm]
        exact mapFull mapped
      refine ⟨full, .inr ?_⟩
      rcases done with ⟨differs, rfl⟩ |
        ⟨wanted, -, word, mem', heap, stores, replaced⟩
      · rw [stillFull rfl]
        exact .inl ⟨readable, differs, rfl⟩
      · rw [stillFull (congrArg EmsBuf.tag replaced)]
        exact .inr ⟨readable, wanted, word, mem', heap, stores, replaced⟩

/-- Storing the value in place of the one that the element has gives the same
memory: the value is the one that is there, and a string is put where the block
was that has been given back for it. -/
def PutsBack (idx : Int) (newValue : EMSvalueType) (buf : EmsBuf) : Prop :=
  newValue.type = (buf.tag (EMSdataCell idx)).type ∧
    CasStores newValue (memWithout idx newValue.type buf) buf.heap
      (buf.word (EMSdataCell idx))
      buf.mem buf.heap

/-- A compare-and-swap on the element leaves it as it is. -/
def CasLeaves [CRuntime] (idx : Int) (oldValue newValue : EMSvalueType)
    (buf : EmsBuf) : Prop :=
  Readable idx (buf.tag (EMSdataCell idx)).type buf ∧
    (buf.tag (EMSdataCell idx)).rw = 0 ∧
    (CasMatches idx buf oldValue → PutsBack idx newValue buf)

/-- What is put back can be stored. -/
theorem PutsBack.storable {buf : EmsBuf} (back : PutsBack idx newValue buf)
    (isValue : IsValue (buf.tag (EMSdataCell idx)).type) :
    Storable (memWithout idx (buf.tag (EMSdataCell idx)).type buf)
      newValue := by
  obtain ⟨type, stores⟩ := back
  rw [type] at stores
  refine ⟨type ▸ isValue, fun text => ?_⟩
  rw [CasStores] at stores
  cases isText : newValue.type with
  | json | string =>
      simp only [isText] at stores
      exact (serves_of_answer stores.2.1).mpr stores.1
  | undefined | boolean | integer | float | invalid | unassigned =>
      rw [isText] at text
      exact absurd text (by decide)

theorem casElement_leaves [CRuntime] (positive : 0 < array.nElem)
    (mapFull : array.isMapped = true →
      (ledger.buf.tag (EMSmapCell array.nElem idx)).fe = .full)
    {result : Except EMSError EMSvalueType}
    (returned : heapSolo.Returns
      (casElement patience array idx oldValue newValue)
      ledger result after) :
    after.buf = ledger.buf ↔ CasLeaves idx oldValue newValue ledger.buf := by
  obtain ⟨full, ⟨busy, fails⟩ | ⟨readable, differs, kept⟩ |
    ⟨readable, wanted, word, mem, heap, stores, replaced⟩⟩ :=
      casElement_effect positive mapFull returned
  · constructor
    · intro same
      rw [same, full] at busy
      exact nomatch busy
    · intro leaves
      exact absurd ⟨leaves.1,
        fun wanted => (leaves.2.2 wanted).storable leaves.1.1⟩ fails
  · rw [kept, CasLeaves, and_iff_right readable]
    constructor
    · intro same
      refine ⟨?_, fun wanted => absurd wanted differs⟩
      rw [← same]
      simp
    · rintro ⟨idle, -⟩
      rw [← full, ← idle, EmsBuf.setTag_self]
  · rw [replaced, EmsBuf.replaced_eq_iff, CasLeaves, and_iff_right readable]
    constructor
    · rintro ⟨tag, rfl, rfl, rfl⟩
      have type : newValue.type = (ledger.buf.tag (EMSdataCell idx)).type := by
        rw [← tag]
      refine ⟨?_, fun _ => ⟨type, ?_⟩⟩
      · rw [← tag]
      · rw [type]
        exact stores
    · rintro ⟨idle, back⟩
      obtain ⟨type, stores'⟩ := back wanted
      rw [type] at stores'
      obtain ⟨rfl, rfl, rfl⟩ := stores.unique stores'
      refine ⟨?_, rfl, rfl, rfl⟩
      rw [type, ← full, ← idle]

/-- Where the value to be replaced is undefined, the element is as it was only
if the whole memory is. -/
private theorem casElement_leaves_element [CRuntime]
    (positive : 0 < array.nElem)
    (mapFull : array.isMapped = true →
      (ledger.buf.tag (EMSmapCell array.nElem idx)).fe = .full)
    (undefined : oldValue.type = .undefined)
    {result : Except EMSError EMSvalueType}
    (returned : heapSolo.Returns
      (casElement patience array idx oldValue newValue)
      ledger result after)
    (tag : after.buf.tag (EMSdataCell idx) = ledger.buf.tag (EMSdataCell idx))
    (word : after.buf.word (EMSdataCell idx) = ledger.buf.word
      (EMSdataCell idx)) :
    after.buf = ledger.buf := by
  obtain ⟨full, ⟨busy, -⟩ | ⟨readable, differs, kept⟩ |
    ⟨readable, wanted, word', mem, heap, stores, replaced⟩⟩ :=
      casElement_effect positive mapFull returned
  · rw [tag, full] at busy
    exact nomatch busy
  · rw [kept] at tag ⊢
    rw [EmsBuf.setTag_tag, Function.update_self] at tag
    rw [tag, EmsBuf.setTag_self]
  · rw [replaced] at tag word ⊢
    simp only [EmsBuf.replaced, EmsBuf.setTag_tag, EmsBuf.setTag_word,
      EmsBuf.setWord_word,
      Function.update_self] at tag word
    have type : (ledger.buf.tag (EMSdataCell idx)).type = .undefined := by
      rw [← wanted.1, undefined]
    have newType : newValue.type = .undefined := by rw [← type, ← tag]
    simp only [CasStores, newType, type] at stores
    obtain ⟨-, rfl, rfl⟩ := stores
    exact EmsBuf.replaced_eq_iff.mpr
      ⟨tag, word, by simp [memWithout, EMSType.IsText], rfl⟩

private theorem absent_casFinish (positive : 0 < array.nElem)
    (mapped : array.isMapped = true)
    {current : EMSvalueType} {result : Except EMSError EMSvalueType}
    (returned : heapSolo.Returns
      (casFinish patience array idx current newValue false)
      ledger result after) :
    after.buf = ledger.buf ↔ ledger.buf.tag (EMSdataCell idx) =
      ⟨.full, current.type, 0⟩ ∧
      (ledger.buf.tag (EMSmapCell array.nElem idx)).fe = .full := by
  have finished := casFinish_returns returned
  rw [if_neg nofun] at finished
  obtain ⟨-, rfl⟩ := finished
  have apart : EMSdataCell idx ≠ EMSmapCell array.nElem idx :=
    data_cell_ne_map positive
  rw [Ledger.released, if_pos mapped]
  constructor
  · intro same
    have data := congrFun (congrArg EmsBuf.tag same) (EMSdataCell idx)
    have map := congrFun (congrArg EmsBuf.tag same) (EMSmapCell array.nElem idx)
    simp only [Ledger.setTag_buf, EmsBuf.setTag_tag, Function.update_self,
      Function.update_of_ne apart, Function.update_of_ne apart.symm] at data map
    refine ⟨data.symm, ?_⟩
    rw [← map]
  · rintro ⟨data, map⟩
    rw [← data, Ledger.setTag_self, ← map, Ledger.setTag_self]

end Leaving

/-! ## The frame -/

section Frame

variable [CRuntime] {array : EmsArray} {key oldValue newValue : EMSvalueType}
  {ledger after : Ledger} {patience : Nat}

/-- The lookup of the key ends at the slot. -/
def FoundAt (array : EmsArray) (key : EMSvalueType) (buf : EmsBuf)
    (slot : Int) : Prop :=
  0 ≤ slot ∧ ∃ start, keyStart key = some start ∧
    lookupSearch array key buf MAX_OPEN_HASH_STEPS start = some slot

def Absent (array : EmsArray) (key : EMSvalueType) (buf : EmsBuf) : Prop :=
  ∀ slot, ¬ FoundAt array key buf slot

/-- The element is the one that is mapped from the key, or that the call may map
from it. -/
def CasTarget (array : EmsArray) (key oldValue : EMSvalueType) (buf : EmsBuf)
    (i : Int) : Prop :=
  FoundAt array key buf i ∨
    Absent array key buf ∧ oldValue.type = .undefined ∧
      (slotSearch array key buf).At i

/-- The call has touched its own element only. -/
structure CasFramed (array : EmsArray) (key oldValue : EMSvalueType)
    (before after : EmsBuf) :
    Prop where
  others : ∀ i, 0 ≤ i → i < array.nElem →
    ¬ CasTarget array key oldValue before i →
    after.tag (EMSdataCell i) = before.tag (EMSdataCell i) ∧
      after.word (EMSdataCell i) = before.word (EMSdataCell i)
  region : Absent array key before → oldValue.type ≠ .undefined → after = before

/-- What keeps a compare-and-swap inside its frame.  The key is found, or what
the call does at the index of an absent key has no effect; in an array of one
element that index is the one of the element. -/
def CasInside (array : EmsArray) (key oldValue newValue : EMSvalueType)
    (buf : EmsBuf) : Prop :=
  (∃ slot, FoundAt array key buf slot) ∨
    if keyIndex array key buf true < 0 then
      if oldValue.type = .undefined then
        ∀ slot, slotSearch array key buf = .kept slot ∨
          slotSearch array key buf = .free slot →
          0 ≤ slot
      else buf.tag (EMSdataCell (keyIndex array key buf true)) =
        ⟨.full, .undefined, 0⟩ ∧
        (buf.tag (EMSmapCell array.nElem (keyIndex array key buf true))).fe =
          .full
    else oldValue.type = .undefined ∧ slotSearch array key buf ≠ .exhausted ∨
      CasLeaves (keyIndex array key buf true) oldValue newValue buf

theorem FoundAt.keyIndex {buf : EmsBuf} {slot : Int}
    (found : FoundAt array key buf slot) :
    keyIndex array key buf true = slot := by
  obtain ⟨-, start, started, search⟩ := found
  rw [EMS.keyIndex, started]
  simp only [if_true, search, Option.getD_some]
  exact lookupSearch_tmod search

/-- An absent key has an index only where there is no other. -/
theorem Absent.one {buf : EmsBuf} (absent : Absent array key buf)
    (positive : 0 < array.nElem) (inside : 0 ≤ keyIndex array key buf true) :
    array.nElem = 1 ∧ keyIndex array key buf true = 0 := by
  rw [keyIndex] at inside ⊢
  cases started : keyStart key with
  | none =>
      simp only [started] at inside
      exact absurd inside (by decide)
  | some start =>
      simp only [started, if_true] at inside ⊢
      cases search : lookupSearch array key buf MAX_OPEN_HASH_STEPS start with
      | some slot =>
          rw [search, Option.getD_some, lookupSearch_tmod search] at inside
          exact absurd ⟨inside, start, started, search⟩ (absent slot)
      | none =>
          rw [search, Option.getD_none] at inside
          have one : array.nElem = 1 := by
            by_contra other
            rw [neg_one_tmod (by omega)] at inside
            exact absurd inside (by decide)
          rw [Option.getD_none, one]
          exact ⟨rfl, rfl⟩

private theorem EMScas_full (positive : 0 < array.nElem)
    (mapped : array.isMapped = true)
    (inside : 0 ≤ keyIndex array key ledger.buf true)
    {result : Except EMSError EMSvalueType}
    (returned : heapSolo.Returns
      (EMScas patience array key oldValue newValue) ledger result after) :
    (ledger.buf.tag (EMSmapCell array.nElem
      (keyIndex array key ledger.buf true))).fe = .full := by
  rw [EMScas] at returned
  obtain ⟨_, _, looked, -⟩ := Solo.returns_bind_iff.mp returned
  obtain ⟨rfl, rfl⟩ := EMSkey2index_returns looked
  rw [mapped] at looked
  exact EMSkey2index_full positive inside looked

theorem cas_frame (positive : 0 < array.nElem) (mapped : array.isMapped = true)
    {result : Except EMSError EMSvalueType}
    (returned : heapSolo.Returns
      (EMScas patience array key oldValue newValue) ledger result after) :
    CasFramed array key oldValue ledger.buf after.buf ↔
      CasInside array key oldValue newValue ledger.buf := by
  have continued := EMScas_returns positive returned
  simp only [mapped, not_true_eq_false, false_and, false_or,
    true_and] at continued
  have below := @keyIndex_lt array key _ positive true ledger.buf
  rw [if_neg (by omega)] at continued
  by_cases found : ∃ slot, FoundAt array key ledger.buf slot
  · refine iff_of_true ?_ (.inl found)
    obtain ⟨slot, found⟩ := found
    have inside := found.1
    rw [found.keyIndex, if_neg (by omega)] at continued
    rw [found.keyIndex] at below
    constructor
    · intro i _ inArray other
      refine casElement_others inside inArray ?_ continued
      rintro rfl
      exact other (.inl found)
    · exact fun absent => absurd found (absent slot)
  · have absent : Absent array key ledger.buf :=
      fun slot here => found ⟨slot, here⟩
    rw [CasInside, or_iff_right found]
    by_cases negative : keyIndex array key ledger.buf true < 0
    · rw [if_pos negative] at continued ⊢
      split at continued
      · next undefined =>
          rw [if_pos undefined]
          obtain ⟨slot, between, taken, ended⟩ := continued
          constructor
          · intro framed held takes
            by_contra outside
            -- the slot before the first one is the last element
            obtain ⟨answer, full, busy⟩ := taken.held takes
            rw [if_pos (by omega)] at ended
            obtain ⟨-, rfl⟩ := ended
            have above : -array.nElem < held := by
              rw [← slotSearch_tmod (.inr takes)]
              exact Int.lt_tmod_of_pos held positive
            have same :=
              (framed.others (held + array.nElem) (by omega) (by omega) ?_).1
            · rw [← EMSmapCell_eq] at same
              rw [same, full] at busy
              exact nomatch busy
            · rintro (here | ⟨-, -, at'⟩)
              · exact found ⟨_, here⟩
              · have equal := SlotSearch.At.unique at' (.inr takes)
                omega
          · intro inMap
            refine ⟨fun i above inArray other => ?_,
              fun _ defined => absurd undefined defined⟩
            have kept : between.buf.tag (EMSdataCell i) =
                ledger.buf.tag (EMSdataCell i) ∧
                between.buf.word (EMSdataCell i) =
                    ledger.buf.word (EMSdataCell i) := by
              apply taken.others
              intro held takes
              have inside := inMap held takes
              rw [EMSmapCell_eq, Ne, EMSdataCell_inj]
              omega
            split at ended
            · rw [ended.2]
              exact kept
            · have ends := taken.ends (by omega)
              have apart : i ≠ slot := by
                rintro rfl
                exact other (.inr ⟨absent, undefined, ends⟩)
              have same := casElement_others (by omega) inArray apart ended
              simpa [apart, kept] using same
      · next defined =>
          rw [if_neg defined]
          have unchanged := absent_casFinish positive mapped continued
          constructor
          · exact fun framed => unchanged.mp (framed.region absent defined)
          · intro holds
            have same := unchanged.mpr holds
            exact
              ⟨fun i _ _ _ => by rw [same]; exact ⟨rfl, rfl⟩, fun _ _ => same⟩
    · rw [if_neg negative] at continued ⊢
      obtain ⟨one, zero⟩ := absent.one positive (by omega)
      have full := EMScas_full positive mapped (by omega) returned
      rw [zero] at continued full ⊢
      have leaves := casElement_leaves positive (fun _ => full) continued
      constructor
      · intro framed
        by_cases undefined : oldValue.type = .undefined
        · by_cases none : slotSearch array key ledger.buf = .exhausted
          · have same := framed.others 0 le_rfl (by omega) ?_
            · exact .inr (leaves.mp
                (casElement_leaves_element positive (fun _ => full) undefined
                continued same.1 same.2))
            · rintro (here | ⟨-, -, at'⟩)
              · exact found ⟨_, here⟩
              · rw [none] at at'
                simp [SlotSearch.At] at at'
          · exact .inl ⟨undefined, none⟩
        · exact .inr (leaves.mp (framed.region absent undefined))
      · rintro (⟨undefined, some⟩ | stays)
        · refine ⟨fun i above inArray other => ?_,
            fun _ defined => absurd undefined defined⟩
          have ends : (slotSearch array key ledger.buf).At i := by
            obtain ⟨slot, ends⟩ := SlotSearch.ends_of_ne some
            have zero := slotSearch_tmod ends
            rw [one, Int.tmod_one] at zero
            have last : i = slot := by omega
            rwa [last]
          exact absurd (.inr ⟨absent, undefined, ends⟩) other
        · have same := leaves.mpr stays
          exact ⟨fun i _ _ _ => by rw [same]; exact ⟨rfl, rfl⟩, fun _ _ => same⟩

end Frame

section FrameRuns

/-- A map of two elements, none of which has been written, with the tags that
say that they are empty. -/
def emptyMap : Ledger where
  buf := ((uniformBuf ⟨.full, .undefined, 0⟩ 0).setTag (EMSdataCell 0)
    ⟨.empty, .undefined, 0⟩).setTag (EMSdataCell 1) ⟨.empty, .undefined, 0⟩
  live := []
  misfreed := false

private theorem emptyMap_initial : InitialMap ⟨2, true⟩ 0 emptyMap := by
  refine ⟨?_, storeAfter [], InitialStore.holds ⟨?_, rfl, rfl, rfl, rfl⟩, ?_⟩
  · intro i _
    have first : EMSmapCell 2 i ≠ EMSdataCell 0 := by
      rw [EMSmapCell_eq, Ne, EMSdataCell_inj]
      omega
    have second : EMSmapCell 2 i ≠ EMSdataCell 1 := by
      rw [EMSmapCell_eq, Ne, EMSdataCell_inj]
      omega
    simp [emptyMap, uniformBuf, first, second]
  · intro i _ _
    simp only [emptyMap, uniformBuf, EmsBuf.setTag_tag, Function.update_apply]
    split
    · rfl
    · split <;> rfl
  · exact ⟨fun _ boolean => nomatch boolean⟩

theorem emptyMap_cas :
    let _ := ieeeRuntime
    Absent ⟨2, true⟩ (scalar .integer 5) emptyMap.buf ∧
      ∃ result after, heapSolo.Returns
          (EMScas 1 ⟨2, true⟩ (scalar .integer 5) (scalar .integer 1)
          (scalar .integer 2)) emptyMap result after ∧
        (after.buf.tag (EMSdataCell 1)).fe = .full := by
  intro _
  obtain ⟨result, after, returned, full⟩ := heapSolo.exists_returns
    (EMScas 1 ⟨2, true⟩ (scalar .integer 5) (scalar .integer 1)
      (scalar .integer 2)) emptyMap
    (fun played => (played.2.buf.tag (EMSdataCell 1)).fe = .full)
      (by decide +kernel)
  refine ⟨?_, result, after, returned, of_decide_eq_true full⟩
  rintro slot ⟨-, start, started, search⟩
  cases started
  have none : lookupSearch ⟨2, true⟩ (scalar .integer 5) emptyMap.buf
      MAX_OPEN_HASH_STEPS
      (llabs 5) = none := by
    decide +kernel
  rw [show (scalar .integer 5).value = 5 from rfl, none] at search
  exact nomatch search

theorem cas_frame_absent :
    let _ := ieeeRuntime
    ∃ after : Ledger, CasFramed ⟨2, true⟩ (scalar .integer 5)
        (scalar .integer 1) emptyMap.buf
        after.buf ↔
      CasInside ⟨2, true⟩ (scalar .integer 5) (scalar .integer 1)
        (scalar .integer 2)
        emptyMap.buf := by
  intro _
  obtain ⟨-, result, after, returned, -⟩ := emptyMap_cas
  exact ⟨after, cas_frame (by decide) rfl returned⟩

/-- Already in a fresh map a swap for an absent key changes an element. -/
theorem not_cas_frame :
    ¬ ∀ [CRuntime] (array : EmsArray) (level : Nat) (ledger after : Ledger)
      (key oldValue newValue : EMSvalueType) (patience : Nat)
      (result : Except EMSError EMSvalueType), 0 < array.nElem →
        array.isMapped = true →
      InitialMap array level ledger →
      heapSolo.Returns (EMScas patience array key oldValue newValue) ledger
        result after →
      CasFramed array key oldValue ledger.buf after.buf := by
  intro framed
  let _ := ieeeRuntime
  obtain ⟨absent, result, after, returned, full⟩ := emptyMap_cas
  have same := (framed ⟨2, true⟩ 0 emptyMap after _ _ _ 1 result (by decide) rfl
    emptyMap_initial returned).region absent (by decide)
  rw [same] at full
  exact absurd full (by decide)

end FrameRuns

end EMS
