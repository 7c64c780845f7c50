import EMS.ReturningCalls

/-!
# Where the search for a key ends

The slot that a lookup finds and the slot that an insertion takes, computed
from the memory alone, for every key and every state of the map.  A process
alone that looks for a key and returns has found what is computed.
-/

namespace EMS

open SharedProgram

/-- Whether `strcmp` finds the string in the heap equal to the text. -/
def heapEquals (heap : Int → UInt8) : List UInt8 → Int → Bool
  | [], address => heap address = 0
  | expected :: text, address =>
      if heap address = expected then
        heapEquals heap text (address + 1) else false

theorem heapEquals_iff {heap : Int → UInt8} {text : List UInt8}
    {address : Int} :
    heapEquals heap text address = true ↔ HeapHolds heap address text := by
  induction text generalizing address with
  | nil => simp [heapEquals, HeapHolds]
  | cons expected text induction => simp [heapEquals, HeapHolds, induction]

section Searching

variable [CRuntime] (array : EmsArray) (key : EMSvalueType) (buf : EmsBuf)

/-- Whether `EMSkey2index` takes the slot for the one of the key. -/
def lookupFinds (idx : Int) : Bool :=
  if (buf.tag (EMSmapCell array.nElem idx)).type = key.type then
    match key.type with
    | .boolean | .integer => key.value = buf.word (EMSmapCell array.nElem idx)
    | .float => CRuntime.eq key.value (buf.word (EMSmapCell array.nElem idx))
    | .string =>
        heapEquals buf.heap key.text.bytes
          (buf.word (EMSmapCell array.nElem idx))
    | .undefined => false
    | _ => true
  else false

/-- Where the probe loop of `EMSkey2index` ends. -/
def lookupSearch : Nat → Int → Option Int
  | 0, _ => none
  | tries + 1, idx =>
      if lookupFinds array key buf (idx.tmod array.nElem) then
        some (idx.tmod array.nElem)
      else if (buf.tag (EMSmapCell array.nElem (idx.tmod array.nElem))).type =
        .undefined then none
      else lookupSearch tries (idx.tmod array.nElem + 1)

/-- What `EMSkey2index` answers. -/
def keyIndex (isMapped : Bool) : Int :=
  match keyStart key with
  | none => -1
  | some start =>
      if isMapped then
        ((lookupSearch array key buf MAX_OPEN_HASH_STEPS start).getD (-1)).tmod
          array.nElem
      else start.tmod array.nElem

/-- Whether `EMSwriteIndexMap` takes the slot for the one of the key. -/
def writeFinds (idx : Int) : Bool :=
  if (buf.tag (EMSmapCell array.nElem idx)).type = key.type then
    match (buf.tag (EMSmapCell array.nElem idx)).type with
    | .boolean =>
        key.value = if buf.word (EMSmapCell array.nElem idx) ≠ 0 then 1 else 0
    | .integer => key.value = buf.word (EMSmapCell array.nElem idx)
    | .float => CRuntime.eq key.value (buf.word (EMSmapCell array.nElem idx))
    | .string =>
        heapEquals buf.heap key.text.bytes
          (buf.word (EMSmapCell array.nElem idx))
    | _ => true
  else false

/-- How the search of `EMSwriteIndexMap` ends: at the slot of the key, at one
of a type that has no word to compare, at a free slot, or without a slot. -/
inductive SlotSearch where
  | found (slot : Int)
  | kept (slot : Int)
  | free (slot : Int)
  | exhausted
  deriving DecidableEq

/-- Where the probe loop of `EMSwriteIndexMap` ends. -/
def writeSearch : Nat → Int → SlotSearch
  | 0, _ => .exhausted
  | tries + 1, idx =>
      if (buf.tag (EMSmapCell array.nElem (idx.tmod array.nElem))).type =
          .undefined then
        .free (idx.tmod array.nElem)
      else if writeFinds array key buf (idx.tmod array.nElem) then
        match (buf.tag (EMSmapCell array.nElem (idx.tmod array.nElem))).type
            with
        | .boolean | .integer | .float | .string =>
            .found (idx.tmod array.nElem)
        | _ => .kept (idx.tmod array.nElem)
      else writeSearch tries (idx.tmod array.nElem + 1)

/-- Where the search of `EMSwriteIndexMap` ends. -/
def slotSearch : SlotSearch :=
  if 0 < keyIndex array key buf array.isMapped then
    .found (keyIndex array key buf array.isMapped)
  else if array.isMapped then
    writeSearch array key buf MAX_OPEN_HASH_STEPS (keyIndex array key buf false)
  else if keyIndex array key buf false < 0 ∨
      array.nElem ≤ keyIndex array key buf false then
    .exhausted
  else .found (keyIndex array key buf false)

end Searching

/-! ## Looking up -/

theorem neg_one_tmod {n : Int} (large : 1 < n) : (-1 : Int).tmod n = -1 := by
  rw [Int.neg_tmod, Int.tmod_eq_of_lt (by decide) large]

/-- A tag that was full, was made busy and is full again. -/
theorem storeFE_released {α : Type} {ledger after : Ledger} {cell : Cell}
    {rest : Unit → EmsProg α} {value : α}
    (full : (ledger.buf.tag cell).fe = .full) :
    heapSolo.Returns (storeFE cell .full >>= rest)
        (ledger.setTag cell { ledger.buf.tag cell with fe := .busy })
          value after ↔
      heapSolo.Returns (rest ()) ledger value after := by
  have same : { ledger.buf.tag cell with fe := .full } =
    ledger.buf.tag cell := by rw [← full]
  simp only [storeFE_returns, Ledger.setTag_buf, EmsBuf.setTag_tag,
    Function.update_self,
    Ledger.setTag_setTag, same, Ledger.setTag_self]

theorem equalsHeap_returns {α : Type} {text : List UInt8} {address : Int}
    {rest : Bool → EmsProg α} {value : α} {ledger after : Ledger} :
    heapSolo.Returns (equalsHeap text address >>= rest) ledger value after ↔
      heapSolo.Returns (rest (heapEquals ledger.buf.heap text address)) ledger
        value after := by
  induction text generalizing address with
  | nil =>
      simp only [equalsHeap, heapEquals, bind_assoc,
        loadByte_returns, pure_bind]
  | cons expected text induction =>
      simp only [equalsHeap, heapEquals, bind_assoc, loadByte_returns]
      by_cases same : ledger.buf.heap address = expected
      · simp only [if_pos same]
        exact induction
      · simp only [if_neg same, pure_bind]

theorem setTag_type {cell other : Cell} {fe : FE} {buf : EmsBuf} :
    ((buf.setTag cell { buf.tag cell with fe := fe }).tag other).type =
    (buf.tag other).type := by
  by_cases same : other = cell
  · simp [same]
  · simp [same]

section Lookup

variable [CRuntime] {array : EmsArray} {key : EMSvalueType}
  {ledger after : Ledger}
  {patience : Nat}

theorem lookupMatches_returns {α : Type} {tag : Tag} {idx : Int}
    {rest : Bool → EmsProg α}
    {value : α} (type :
      tag.type = (ledger.buf.tag (EMSmapCell array.nElem idx)).type) :
    heapSolo.Returns (lookupMatches array key tag idx >>= rest) ledger
      value after ↔
      heapSolo.Returns (rest (lookupFinds array key ledger.buf idx)) ledger
        value after := by
  rw [lookupMatches, lookupFinds, type]
  split
  · cases key.type <;>
      simp only [bind_assoc, load_returns, equalsHeap_returns, pure_bind]
  · rfl

theorem writeMatches_returns {α : Type} {tag : Tag} {idx : Int}
    {rest : Bool → EmsProg α}
    {value : α} (type :
      tag.type = (ledger.buf.tag (EMSmapCell array.nElem idx)).type) :
    heapSolo.Returns (if tag.type = key.type then
      writeMatches array key tag idx >>= rest
        else pure false >>= rest) ledger value after ↔
      heapSolo.Returns (rest (writeFinds array key ledger.buf idx)) ledger
        value after := by
  rw [writeMatches, writeFinds, type]
  split
  · cases (ledger.buf.tag (EMSmapCell array.nElem idx)).type <;>
      simp only [bind_assoc, load_returns, equalsHeap_returns, pure_bind]
  · rfl

theorem lookupFinds_setTag {cell : Cell} {fe : FE} {idx : Int} {buf : EmsBuf} :
    lookupFinds array key (buf.setTag cell { buf.tag cell with fe := fe }) idx =
      lookupFinds array key buf idx := by
  rw [lookupFinds, lookupFinds, setTag_type]
  rfl

theorem writeFinds_setTag {cell : Cell} {fe : FE} {idx : Int} {buf : EmsBuf} :
    writeFinds array key (buf.setTag cell { buf.tag cell with fe := fe }) idx =
      writeFinds array key buf idx := by
  rw [writeFinds, writeFinds, setTag_type]
  rfl

theorem lookupProbe_returns {tries : Nat} {idx result : Int}
    (returned : heapSolo.Returns
      (lookupProbe patience array key tries idx) ledger result after) :
    result = (lookupSearch array key ledger.buf tries idx).getD (-1) ∧
      after = ledger ∧
      (tries ≠ 0 →
        (ledger.buf.tag (EMSmapCell array.nElem (idx.tmod array.nElem))).fe =
          .full) ∧
      ∀ slot, lookupSearch array key ledger.buf tries idx = some slot →
        (ledger.buf.tag (EMSmapCell array.nElem slot)).fe = .full := by
  induction tries generalizing idx with
  | zero =>
      obtain ⟨rfl, rfl⟩ := Solo.returns_ret_iff.mp returned
      exact ⟨rfl, rfl, fun wrong => absurd rfl wrong, nofun⟩
  | succ tries induction =>
      rw [lookupProbe] at returned
      obtain ⟨full, continued⟩ := transition_returns returned
      have sameType : Tag.type
          { ledger.buf.tag (EMSmapCell array.nElem (idx.tmod array.nElem))
          with fe := .busy } =
            ((ledger.setTag (EMSmapCell array.nElem (idx.tmod array.nElem))
            { ledger.buf.tag (EMSmapCell array.nElem (idx.tmod array.nElem))
              with fe := .busy }).buf.tag
                  (EMSmapCell array.nElem (idx.tmod array.nElem))).type := by
        simp
      rw [lookupMatches_returns sameType] at continued
      simp only [storeFE_released full, Ledger.setTag_buf,
        lookupFinds_setTag] at continued
      simp only [lookupSearch]
      split at continued
      · next finds =>
          obtain ⟨rfl, rfl⟩ := Solo.returns_ret_iff.mp continued
          rw [if_pos finds]
          refine ⟨rfl, rfl, fun _ => full, ?_⟩
          rintro _ ⟨⟩
          exact full
      · next other =>
          rw [if_neg other]
          split at continued
          · next free =>
              obtain ⟨rfl, rfl⟩ := Solo.returns_ret_iff.mp continued
              rw [if_pos free]
              exact ⟨rfl, rfl, fun _ => full, nofun⟩
          · next bound =>
              rw [if_neg bound]
              obtain ⟨same, unchanged, -, slotFull⟩ := induction continued
              exact ⟨same, unchanged, fun _ => full, slotFull⟩

theorem lookupSearch_tmod {tries : Nat} {idx slot : Int} {buf : EmsBuf}
    (search : lookupSearch array key buf tries idx = some slot) :
    slot.tmod array.nElem = slot := by
  induction tries generalizing idx with
  | zero => cases search
  | succ tries induction =>
      rw [lookupSearch] at search
      split at search
      · cases search
        exact Int.tmod_tmod _ _
      · split at search
        · cases search
        · exact induction search

/-- A lookup changes nothing. -/
theorem EMSkey2index_returns {isMapped : Bool} {idx : Int}
    (returned : heapSolo.Returns
      (EMSkey2index patience array key isMapped) ledger idx after) :
    idx = keyIndex array key ledger.buf isMapped ∧ after = ledger := by
  rw [keyIndex]
  rw [EMSkey2index] at returned
  cases started : keyStart key with
  | none =>
      rw [started] at returned
      exact Solo.returns_ret_iff.mp returned
  | some start =>
      rw [started] at returned
      cases isMapped with
      | false => exact Solo.returns_ret_iff.mp returned
      | true =>
          obtain ⟨found, between, probed, continued⟩ :=
            Solo.returns_bind_iff.mp returned
          obtain ⟨rfl, rfl, -⟩ := lookupProbe_returns probed
          exact Solo.returns_ret_iff.mp continued

/-- An index that a lookup in the map finds is the one of a full slot. -/
theorem EMSkey2index_full (positive : 0 < array.nElem) {idx : Int}
    (inside : 0 ≤ idx)
    (returned : heapSolo.Returns
      (EMSkey2index patience array key true) ledger idx after) :
    (ledger.buf.tag (EMSmapCell array.nElem idx)).fe = .full := by
  rw [EMSkey2index] at returned
  cases started : keyStart key with
  | none =>
      rw [started] at returned
      obtain ⟨rfl, -⟩ := Solo.returns_ret_iff.mp returned
      exact absurd inside (by decide)
  | some start =>
      rw [started] at returned
      obtain ⟨found, between, probed, continued⟩ :=
        Solo.returns_bind_iff.mp returned
      obtain ⟨rfl, rfl⟩ := Solo.returns_ret_iff.mp continued
      obtain ⟨rfl, -, firstFull, slotFull⟩ := lookupProbe_returns probed
      cases search : lookupSearch array key ledger.buf
          MAX_OPEN_HASH_STEPS start with
      | some slot =>
          rw [Option.getD_some, lookupSearch_tmod search]
          exact slotFull slot search
      | none =>
          -- there is one slot, and it has been looked at
          rw [search, Option.getD_none] at inside
          have one : array.nElem = 1 := by
            by_contra other
            rw [neg_one_tmod (by omega)] at inside
            exact absurd inside (by decide)
          have first := firstFull (by decide)
          simpa [one] using first

end Lookup

/-! ## Inserting -/

theorem serves_of_answer {mem mem' : EmsMem} {bytes : Nat} {address : Int}
    (answer : emsMem_alloc mem bytes = .ok (address, mem')) :
    Serves mem bytes ↔ 0 ≤ address := by
  constructor
  · exact fun serves => serves _ _ answer
  · intro inside address' mem'' answer'
    rw [answer] at answer'
    cases answer'
    exact inside

section Insertion

variable {array : EmsArray} {key : EMSvalueType} {ledger after : Ledger}
  {patience : Nat}
  {slot : Int}

/-- The word of a slot that is given to a key without a string. -/
def insertedWord (key : EMSvalueType) (old : Int) : Int :=
  match key.type with
  | .boolean => if key.value ≠ 0 then 1 else 0
  | .integer | .float => key.value
  | .undefined => 0xdeadbeef
  | _ => old

/-- The allocator when it has been asked for what a key needs. -/
def memWithKey (key : EMSvalueType) (mem : EmsMem) : EmsMem :=
  if key.type = .string then
    match emsMem_alloc mem (key.length + 1) with
    | .ok (_, mem') => mem'
    | .error _ => mem
  else mem

/-- The heap when it holds a key. -/
def heapWithKey (key : EMSvalueType) (buf : EmsBuf) : Int → UInt8 :=
  if key.type = .string then
    match emsMem_alloc buf.mem (key.length + 1) with
    | .ok (address, _) => writeText buf.heap address key.text.bytes
    | .error _ => buf.heap
  else buf.heap

/-- The tag of a slot that a key has been given and that is still held. -/
def claimedTag (tag : Tag) (key : EMSvalueType) : Tag :=
  { tag with fe := .busy, type := key.type }

/-- The slot has been claimed for the key, but the heap could not hold it. -/
structure KeyRefused (array : EmsArray) (key : EMSvalueType) (slot : Int)
    (ledger after : Ledger) : Prop where
  text : key.type = .string
  refused : ¬ Serves ledger.buf.mem (key.length + 1)
  tag : after.buf.tag =
    Function.update ledger.buf.tag (EMSmapCell array.nElem slot)
    (claimedTag (ledger.buf.tag (EMSmapCell array.nElem slot)) key)
  word : after.buf.word = ledger.buf.word
  heap : after.buf.heap = ledger.buf.heap
  live : after.live = ledger.live

/-- The slot has been given to the key and is still held. -/
structure KeyInserted (array : EmsArray) (key : EMSvalueType) (slot : Int)
    (ledger after : Ledger) : Prop where
  served : key.type = .string → Serves ledger.buf.mem (key.length + 1)
  tag : after.buf.tag =
    Function.update ledger.buf.tag (EMSmapCell array.nElem slot)
    (claimedTag (ledger.buf.tag (EMSmapCell array.nElem slot)) key)
  words : ∀ cell, cell ≠ EMSmapCell array.nElem slot → after.buf.word cell =
    ledger.buf.word cell
  mem : after.buf.mem = memWithKey key ledger.buf.mem
  heap : after.buf.heap = heapWithKey key ledger.buf
  quiet : key.type ≠ .string → after = { ledger with
    buf := { ledger.buf with tag := after.buf.tag, word := after.buf.word } } ∧
    after.buf.word (EMSmapCell array.nElem slot) =
      insertedWord key (ledger.buf.word (EMSmapCell array.nElem slot))

/-- What `EMSwriteIndexMap` answers and leaves behind, given how its search
ends. -/
def SlotTaken (array : EmsArray) (key : EMSvalueType) (ledger : Ledger)
    (search : SlotSearch)
    (idx : Int) (after : Ledger) : Prop :=
  match search with
  | .found slot => idx = slot ∧ after = ledger ∧
      (array.isMapped = true →
        (ledger.buf.tag (EMSmapCell array.nElem slot)).fe = .full)
  | .kept slot =>
      idx = slot ∧ (ledger.buf.tag (EMSmapCell array.nElem slot)).fe = .full ∧
      after = ledger.setTag (EMSmapCell array.nElem slot)
        { ledger.buf.tag (EMSmapCell array.nElem slot) with fe := .busy }
  | .free slot => (ledger.buf.tag (EMSmapCell array.nElem slot)).fe = .full ∧
      ((idx = -1 ∧ KeyRefused array key slot ledger after) ∨
        (idx = slot ∧ KeyInserted array key slot ledger after))
  | .exhausted => idx = -1 ∧ after = ledger

/-- The slot is held when the key is put into it. -/
theorem insertKey_returns {result : Except EMSError Unit}
    (returned : heapSolo.Returns (insertKey patience array key slot)
      (ledger.setTag (EMSmapCell array.nElem slot)
        { ledger.buf.tag (EMSmapCell array.nElem slot) with fe := .busy })
          result after) :
    (∃ error, result = .error error) ∧ KeyRefused array key slot ledger after ∨
      result = .ok () ∧ KeyInserted array key slot ledger after := by
  rw [insertKey] at returned
  simp only [storeType_returns, Ledger.setTag_buf, EmsBuf.setTag_tag,
    Function.update_self,
    Ledger.setTag_setTag] at returned
  have scalarWord : ∀ word, key.type ≠ .string →
      insertedWord key (ledger.buf.word (EMSmapCell array.nElem slot)) = word →
      after = (ledger.setTag (EMSmapCell array.nElem slot)
        (claimedTag (ledger.buf.tag (EMSmapCell array.nElem slot)) key)).setWord
          (EMSmapCell array.nElem slot) word →
      KeyInserted array key slot ledger after := by
    intro word other inserted changed
    subst changed
    refine ⟨fun wrong => absurd wrong other, rfl, ?_, ?_, ?_,
      fun _ => ⟨rfl, ?_⟩⟩
    · intro cell different
      simp [different]
    · rw [memWithKey, if_neg other]
      rfl
    · rw [heapWithKey, if_neg other]
      rfl
    · simp [inserted]
  cases type : key.type with
  | boolean | integer | float | undefined =>
      simp only [type, store_returns, Prog.pure_eq,
        Solo.returns_ret_iff] at returned
      obtain ⟨rfl, changed⟩ := returned
      refine .inr ⟨rfl, scalarWord _ (by simp [type]) ?_
        (by rw [changed, claimedTag, type])⟩
      simp only [insertedWord, type]
  | json | invalid | unassigned =>
      simp only [type, Prog.pure_eq, Solo.returns_ret_iff] at returned
      obtain ⟨rfl, rfl⟩ := returned
      refine .inr
        ⟨rfl, by simp [type], ?_, fun _ _ => rfl, ?_, ?_, fun _ => ⟨rfl, ?_⟩⟩
      · rw [claimedTag, type]
        rfl
      · rw [memWithKey, if_neg (by simp [type])]
        rfl
      · rw [heapWithKey, if_neg (by simp [type])]
        rfl
      · simp only [insertedWord, type]
        rfl
  | string =>
      simp only [type] at returned
      obtain ⟨address, between, requested, continued⟩ :=
        Solo.returns_bind_iff.mp returned
      obtain ⟨mem, answer, rfl⟩ := emsMutexMem_alloc_returns requested
      have serves := serves_of_answer answer
      simp only [Ledger.setTag_buf, EmsBuf.setTag_mem] at serves
      split at continued
      · next negative =>
          obtain ⟨rfl, rfl⟩ := Solo.returns_ret_iff.mp continued
          refine .inl ⟨⟨_, rfl⟩, type, ?_, ?_, rfl, rfl, ?_⟩
          · rw [serves]
            omega
          · rw [claimedTag, type]
            rfl
          · rw [Ledger.allocated_live _ _ _ _ negative]
            rfl
      · next positive =>
          simp only [store_returns] at continued
          have copied := copyToHeap_returns continued
          obtain ⟨rfl, rfl⟩ := Solo.returns_ret_iff.mp copied
          refine .inr ⟨rfl, fun _ => serves.mpr (by omega), ?_, ?_, ?_, ?_,
            fun wrong => absurd type wrong⟩
          · rw [claimedTag, type]
            rfl
          · intro cell different
            simp [different]
          · simp only [Ledger.setTag_buf, EmsBuf.setTag_mem] at answer
            simp only [memWithKey, type, if_true, answer]
            rfl
          · simp only [Ledger.setTag_buf, EmsBuf.setTag_mem] at answer
            simp only [heapWithKey, type, if_true, answer]
            rfl

variable [CRuntime]

theorem writeProbe_returns {tries : Nat} {idx result : Int}
    (returned : heapSolo.Returns
      (writeProbe patience array key tries idx) ledger result after) :
    SlotTaken array key ledger (writeSearch array key ledger.buf tries idx)
      result after := by
  induction tries generalizing idx with
  | zero => exact Solo.returns_ret_iff.mp returned
  | succ tries induction =>
      rw [writeProbe] at returned
      obtain ⟨full, continued⟩ := transition_returns returned
      rw [writeSearch]
      split at continued
      · next free =>
          rw [if_pos free]
          obtain ⟨inserted, between, placed, ended⟩ :=
            Solo.returns_bind_iff.mp continued
          refine ⟨full, ?_⟩
          rcases insertKey_returns placed with ⟨⟨_, rfl⟩, refused⟩ | ⟨rfl, done⟩
          · obtain ⟨rfl, rfl⟩ := Solo.returns_ret_iff.mp ended
            exact .inl ⟨rfl, refused⟩
          · obtain ⟨rfl, rfl⟩ := Solo.returns_ret_iff.mp ended
            exact .inr ⟨rfl, done⟩
      · next bound =>
          rw [if_neg bound]
          rw [writeMatches_returns (by simp)] at continued
          simp only [Ledger.setTag_buf, writeFinds_setTag] at continued
          split at continued
          · next finds =>
              rw [if_pos finds]
              cases type : (ledger.buf.tag
                  (EMSmapCell array.nElem (idx.tmod array.nElem))).type with
              | boolean | integer | float | string =>
                  simp only [type] at continued
                  rw [← type, storeFE_released full] at continued
                  obtain ⟨rfl, rfl⟩ := Solo.returns_ret_iff.mp continued
                  exact ⟨rfl, rfl, fun _ => full⟩
              | undefined => exact absurd type bound
              | json | invalid | unassigned =>
                  simp only [type] at continued
                  rw [← type] at continued
                  obtain ⟨rfl, rfl⟩ := Solo.returns_ret_iff.mp continued
                  exact ⟨rfl, full, rfl⟩
          · next other =>
              rw [if_neg other]
              rw [storeFE_released full] at continued
              exact induction continued

/-- A slot where a search ends is a remainder. -/
def SlotSearch.At (slot : Int) (search : SlotSearch) : Prop :=
  search = .found slot ∨ search = .kept slot ∨ search = .free slot

omit [CRuntime] in
theorem SlotSearch.At.unique {slot slot' : Int} {search : SlotSearch}
    (ends : search.At slot)
    (ends' : search.At slot') : slot = slot' := by
  rcases ends with rfl | rfl | rfl <;> simpa [SlotSearch.At] using ends'

omit [CRuntime] in
theorem SlotSearch.At.ne_exhausted {slot : Int} {search : SlotSearch}
    (ends : search.At slot) :
    search ≠ .exhausted := by
  rintro rfl
  simp [SlotSearch.At] at ends

omit [CRuntime] in
theorem SlotSearch.ends_of_ne {search : SlotSearch}
    (some : search ≠ .exhausted) :
    ∃ slot, search.At slot := by
  cases search with
  | found slot => exact ⟨slot, .inl rfl⟩
  | kept slot => exact ⟨slot, .inr (.inl rfl)⟩
  | free slot => exact ⟨slot, .inr (.inr rfl)⟩
  | exhausted => exact absurd rfl some

private theorem writeSearch_tmod {tries : Nat} {idx : Int} {buf : EmsBuf}
    (ends : (writeSearch array key buf tries idx).At slot) :
    slot.tmod array.nElem = slot := by
  induction tries generalizing idx with
  | zero => simp [SlotSearch.At, writeSearch] at ends
  | succ tries induction =>
      rw [writeSearch] at ends
      split at ends
      · simp only [SlotSearch.At, reduceCtorEq, SlotSearch.free.injEq,
          false_or] at ends
        rw [← ends, Int.tmod_tmod]
      · split at ends
        · split at ends <;>
            simp only [SlotSearch.At, reduceCtorEq, SlotSearch.found.injEq,
              SlotSearch.kept.injEq, false_or, or_false] at ends <;>
            rw [← ends, Int.tmod_tmod]
        · exact induction ends

theorem keyIndex_tmod {isMapped : Bool} {buf : EmsBuf}
    (inside : 0 ≤ keyIndex array key buf isMapped) :
    (keyIndex array key buf isMapped).tmod array.nElem =
      keyIndex array key buf isMapped := by
  rw [keyIndex] at inside ⊢
  split at inside
  · exact absurd inside (by decide)
  · split
    · exact Int.tmod_tmod _ _
    · exact Int.tmod_tmod _ _

theorem slotSearch_tmod {buf : EmsBuf}
    (ends : (slotSearch array key buf).At slot) :
    slot.tmod array.nElem = slot := by
  rw [slotSearch] at ends
  split at ends
  · next above =>
      simp only [SlotSearch.At, reduceCtorEq, SlotSearch.found.injEq,
        or_false] at ends
      rw [← ends, keyIndex_tmod above.le]
  · split at ends
    · exact writeSearch_tmod ends
    · split at ends
      · simp [SlotSearch.At] at ends
      · next inside =>
          simp only [SlotSearch.At, reduceCtorEq, SlotSearch.found.injEq,
            or_false] at ends
          rw [← ends, keyIndex_tmod (by omega)]

theorem slotSearch_free_mapped {buf : EmsBuf}
    (free : slotSearch array key buf = .free slot) :
    array.isMapped = true := by
  rw [slotSearch] at free
  split at free
  · cases free
  · split at free
    · assumption
    · split at free <;> cases free

/-- An index that a key has lies in the array. -/
theorem keyIndex_lt (positive : 0 < array.nElem) {isMapped : Bool}
    {buf : EmsBuf} :
    keyIndex array key buf isMapped < array.nElem := by
  rw [keyIndex]
  split
  · omega
  · split
    · exact Int.tmod_lt_of_pos _ positive
    · exact Int.tmod_lt_of_pos _ positive

theorem slotSearch_lt (positive : 0 < array.nElem) {buf : EmsBuf}
    (ends : (slotSearch array key buf).At slot) : slot < array.nElem := by
  rw [← slotSearch_tmod ends]
  exact Int.tmod_lt_of_pos slot positive

/-- An index that `EMSwriteIndexMap` answers is a remainder. -/
theorem SlotTaken.tmod {idx : Int} (inside : 0 ≤ idx)
    (taken : SlotTaken array key ledger
      (slotSearch array key ledger.buf) idx after) :
    idx.tmod array.nElem = idx := by
  cases search : slotSearch array key ledger.buf with
  | found slot =>
      rw [search] at taken
      rw [taken.1, slotSearch_tmod (.inl search)]
  | kept slot =>
      rw [search] at taken
      rw [taken.1, slotSearch_tmod (.inr (.inl search))]
  | free slot =>
      rw [search] at taken
      rcases taken.2 with ⟨rfl, -⟩ | ⟨rfl, -⟩
      · exact absurd inside (by decide)
      · exact slotSearch_tmod (.inr (.inr search))
  | exhausted =>
      rw [search] at taken
      rw [taken.1] at inside
      exact absurd inside (by decide)

theorem EMSwriteIndexMap_returns (positive : 0 < array.nElem) {idx : Int}
    (returned : heapSolo.Returns
      (EMSwriteIndexMap patience array key) ledger idx after) :
    SlotTaken array key ledger (slotSearch array key ledger.buf) idx after := by
  rw [EMSwriteIndexMap] at returned
  obtain ⟨first, between, looked, continued⟩ :=
    Solo.returns_bind_iff.mp returned
  obtain ⟨rfl, rfl⟩ := EMSkey2index_returns looked
  rw [slotSearch]
  split at continued
  · next above =>
      obtain ⟨rfl, rfl⟩ := Solo.returns_ret_iff.mp continued
      rw [if_pos above]
      refine ⟨rfl, rfl, fun mapped => ?_⟩
      rw [mapped] at looked above ⊢
      exact EMSkey2index_full positive above.le looked
  · next below =>
      rw [if_neg below]
      obtain ⟨second, between, reduced, ended⟩ :=
        Solo.returns_bind_iff.mp continued
      obtain ⟨rfl, rfl⟩ := EMSkey2index_returns reduced
      split at ended
      · next mapped =>
          rw [if_pos mapped]
          exact writeProbe_returns ended
      · next unmapped =>
          rw [if_neg unmapped]
          split at ended
          · next outside =>
              rw [if_pos outside]
              exact Solo.returns_ret_iff.mp ended
          · next inside =>
              rw [if_neg inside]
              obtain ⟨rfl, rfl⟩ := Solo.returns_ret_iff.mp ended
              exact ⟨rfl, rfl, fun mapped => absurd mapped unmapped⟩

end Insertion

end EMS
