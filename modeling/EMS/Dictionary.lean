import EMS.KeyMap
import EMS.KeyedCalls

/-!
# A mapped array is a dictionary

One process reads and writes the elements of a mapped array by their keys.  It
cannot tell that a slot is bound to a key only when the key is first needed:
every key has an element from the beginning, undefined and in the state in which
the elements are initialised, as long as there are slots left.
-/

namespace EMS

open SharedProgram Interleaving OpenAddressing

/-! ## The specification -/

/-- The state for which an operation waits. -/
def KeyedOp.waitsFor : KeyedOp → Option FE
  | .readFE | .readFF => some .full
  | .writeEF _ => some .empty
  | _ => none

/-- The state in which an operation leaves the element, if it changes the
state. -/
def KeyedOp.leaves : KeyedOp → Option FE
  | .readFF | .writeXF _ | .writeEF _ => some .full
  | .readFE | .writeXE _ => some .empty
  | _ => none

/-- The value that an operation stores. -/
def KeyedOp.stores : KeyedOp → Option EMSvalueType
  | .write value | .writeXF value | .writeXE value | .writeEF value =>
    some value
  | _ => none

/-- The operation only reads or only writes. -/
def KeyedOp.ReadsOrWrites : KeyedOp → Prop
  | .read | .readFE | .readFF | .write _ | .writeXF _ | .writeXE _ |
    .writeEF _ => True
  | .readRW | .releaseRW | .faa _ | .cas _ _ | .setTag _ => False

/-- A key needs a slot for all but plain reads. -/
def KeyedOp.binds : KeyedOp → Bool
  | .read => false
  | _ => true

/-- What stands under a key. -/
structure DictionaryEntry where
  fe : FE
  value : EMSvalueType

/-- The entries of all keys, and the keys that have needed a slot. -/
structure Dictionary where
  entries : MapKey → DictionaryEntry
  known : Finset MapKey

/-- An operation on the element of a key, with the key as it is passed. -/
structure KeyedCall where
  key : EMSvalueType
  name : MapKey
  op : KeyedOp

structure KeyedCall.Valid (call : KeyedCall) : Prop where
  names : call.key.Names call.name
  readsOrWrites : call.op.ReadsOrWrites
  wellFormed : ∀ value, call.op.stores = some value → value.WellFormed

namespace Dictionary

/-- Every key has an undefined element. -/
def initial (fe : FE) : Dictionary := ⟨fun _ => ⟨fe, scalar .undefined 0⟩, ∅⟩

def learn (dict : Dictionary) (k : MapKey) : Dictionary :=
  { dict with known := insert k dict.known }

def put (dict : Dictionary) (k : MapKey) (entry : DictionaryEntry) :
    Dictionary :=
  { dict with entries := Function.update dict.entries k entry }

/-- What a call that succeeds makes of the dictionary. -/
def perform (dict : Dictionary) (call : KeyedCall) : Dictionary :=
  let entry := dict.entries call.name
  (if call.op.binds then dict.learn call.name else dict).put call.name
    ⟨call.op.leaves.getD entry.fe, call.op.stores.getD entry.value⟩

end Dictionary

instance KeyedRes.decidableFailed : (res : KeyedRes) → Decidable res.Failed
  | .value (.error _) | .written (.error _) => isTrue trivial
  | .value (.ok _) | .written (.ok _) => isFalse id
  | .count res => inferInstanceAs (Decidable (res < 0))
  | .done res => inferInstanceAs (Decidable (res = false))

/-- The dictionary after a sequence of calls. -/
def dictionaryAfter (fe : FE) (calls : List (KeyedCall × KeyedRes)) :
    Dictionary :=
  calls.foldl (fun dict call => if call.2.Failed then dict
    else dict.perform call.1)
    (.initial fe)

/-- A call that succeeds has found the entry in the state for which it waits.  A
read returns the value of the entry. -/
structure KeyedCall.Answers (call : KeyedCall) (entry : DictionaryEntry)
    (res : KeyedRes)
    (heap : Int → UInt8) : Prop where
  waited : ∀ fe, call.op.waitsFor = some fe → entry.fe = fe
  result : match call.op.stores with
    | some _ => res = .written (.ok ())
    | none => ∃ value, res = .value (.ok value) ∧ Reads heap value entry.value

/-- A call fails only if it needs a slot for a key that has none, and as many
keys have one as there are slots, or as a search looks at. -/
structure KeyedCall.Refused (array : EmsArray) (dict : Dictionary)
    (call : KeyedCall) : Prop where
  binds : call.op.binds = true
  unknown : call.name ∉ dict.known
  crowded : min array.nElem.toNat MAX_OPEN_HASH_STEPS ≤ dict.known.card

/-! ## The dictionary in memory -/

/-- The keys that are known have their slots, whose elements are as in the
dictionary, and the other elements are as they were initialised.  The slot of
the element that is worked on may be busy. -/
structure DictionaryHolds (array : EmsArray) (level : Nat) (fe : FE)
    (working : Int)
    (dict : Dictionary) (table : Table MapKey) (store : Store)
    (ledger : Ledger) : Prop where
  held : MapHeld array level table store ledger
  slots : ∀ i : Nat, (i : Int) < array.nElem → (i : Int) ≠ working →
    (ledger.buf.tag (EMSmapCell array.nElem i)).fe = .full
  known : ∀ k, k ∈ dict.known ↔ ∃ i, table i = some k
  entries : ∀ i k, table i = some k →
    dict.entries k = ⟨(ledger.buf.tag (EMSdataCell i)).fe, store i⟩
  unused : ∀ i : Nat, (i : Int) < array.nElem → table i = none →
    (ledger.buf.tag (EMSdataCell i)).fe = fe ∧ store i = scalar .undefined 0
  unknown : ∀ k, k ∉ dict.known → dict.entries k = ⟨fe, scalar .undefined 0⟩
  valid : StoreValid store

/-- No slot is bound, and all elements are undefined and in one state. -/
structure FreshMap (array : EmsArray) (level : Nat) (fe : FE)
    (ledger : Ledger) : Prop where
  slots : ∀ i : Nat, (i : Int) < array.nElem →
    (ledger.buf.tag (EMSmapCell array.nElem i)).fe = .full ∧
      (ledger.buf.tag (EMSmapCell array.nElem i)).type = .undefined
  elements : ∀ i : Nat, (i : Int) < array.nElem →
    (ledger.buf.tag (EMSdataCell i)).fe = fe
  stored : StoreHolds array level 0 (fun _ => scalar .undefined 0) ledger

section Holding

variable {array : EmsArray} {level slot : Nat} {fe : FE} {working : Int}
  {dict : Dictionary}
  {table : Table MapKey} {store : Store} {ledger after : Ledger}
    {key : EMSvalueType} {k : MapKey}
  {patience : Nat}

theorem FreshMap.holds (fresh : FreshMap array level fe ledger) :
    DictionaryHolds array level fe (-1) (.initial fe) (fun _ => none)
      (fun _ => scalar .undefined 0)
      ledger := by
  obtain ⟨slots, elements, stored⟩ := fresh
  constructor
  · refine ⟨sound_free, fun _ => [], ?_, by simpa using stored⟩
    exact fun i inside => ⟨(slots i inside).2, rfl⟩
  · exact fun i inside _ => (slots i inside).1
  · simp [Dictionary.initial]
  · intro i k bound
    cases bound
  · exact fun i inside _ => ⟨elements i inside, rfl⟩
  · exact fun _ _ => rfl
  · refine ⟨fun i boolean => ?_⟩
    cases boolean

theorem DictionaryHolds.search
    (holds : DictionaryHolds array level fe working dict table store ledger)
    (bound : table slot = some k) : mapSearch array table k = .found slot :=
  holds.held.sound slot k bound

theorem DictionaryHolds.not_known
    (holds : DictionaryHolds array level fe working dict table store ledger)
    (absent : ∀ slot, mapSearch array table k ≠ .found slot) :
    k ∉ dict.known := by
  intro isKnown
  obtain ⟨slot, bound⟩ := (holds.known k).mp isKnown
  exact absent slot (holds.search bound)

theorem DictionaryHolds.found
    (holds : DictionaryHolds array level fe (-1) dict table store ledger)
    (bound : table slot = some k) :
    DictionaryHolds array level fe slot (dict.learn k) table store ledger := by
  have already : dict.learn k = dict := by
    have isKnown : k ∈ dict.known := (holds.known k).mpr ⟨slot, bound⟩
    rw [Dictionary.learn, Finset.insert_eq_self.mpr isKnown]
  rw [already]
  exact ⟨holds.held, fun i inside _ => holds.slots i inside (by omega),
    holds.known, holds.entries,
    holds.unused, holds.unknown, holds.valid⟩

/-- A key that is bound gets the element of its slot, which is as its entry has
been. -/
theorem DictionaryHolds.bind (positive : 0 < array.nElem)
    (holds : DictionaryHolds array level fe (-1) dict table store ledger)
    (free : mapSearch array table k = .free slot)
    (held : MapHeld array level
      (Function.update table slot (some k)) store after)
    (tags : ∀ cell, cell ≠ EMSmapCell array.nElem slot →
      after.buf.tag cell = ledger.buf.tag cell) :
    DictionaryHolds array level fe slot (dict.learn k)
      (Function.update table slot (some k)) store
      after := by
  have isFree : table slot = none := search_free free
  have below : slot < array.nElem.toNat := search_lt (by omega) (.inr free)
  have inside : (slot : Int) < array.nElem := by omega
  have unknown : k ∉ dict.known := by
    apply holds.not_known
    simp [free]
  have elements : ∀ i : Nat, (i : Int) < array.nElem →
      after.buf.tag (EMSdataCell i) = ledger.buf.tag (EMSdataCell i) :=
        fun i inRange =>
    tags _ (data_ne_map (Int.natCast_nonneg slot) i inRange)
  have inTable : ∀ {i : Nat} {k' : MapKey}, table i = some k' →
      (i : Int) < array.nElem := by
    intro i k' bound
    have inRange : i < array.nElem.toNat := holds.held.sound.lt (by omega) bound
    omega
  constructor
  · exact held
  · intro i inRange other
    rw [tags _ (by simpa using other)]
    exact holds.slots i inRange (by omega)
  · intro k'
    rw [Dictionary.learn, Finset.mem_insert, holds.known]
    constructor
    · rintro (rfl | ⟨i, bound⟩)
      · exact ⟨slot, Function.update_self ..⟩
      · have other : i ≠ slot := by
          rintro rfl
          rw [isFree] at bound
          cases bound
        exact ⟨i, by rwa [Function.update_of_ne other]⟩
    · rintro ⟨i, bound⟩
      by_cases same : i = slot
      · subst same
        rw [Function.update_self] at bound
        exact .inl (Option.some.inj bound).symm
      · rw [Function.update_of_ne same] at bound
        exact .inr ⟨i, bound⟩
  · intro i k' bound
    by_cases same : i = slot
    · subst same
      rw [Function.update_self] at bound
      obtain rfl := Option.some.inj bound
      obtain ⟨state, value⟩ := holds.unused i inside isFree
      rw [elements i inside, state, value]
      exact holds.unknown k unknown
    · rw [Function.update_of_ne same] at bound
      rw [elements i (inTable bound)]
      exact holds.entries i k' bound
  · intro i inRange unbound
    have other : i ≠ slot := by
      rintro rfl
      simp at unbound
    rw [Function.update_of_ne other] at unbound
    rw [elements i inRange]
    exact holds.unused i inRange unbound
  · intro k' notKnown
    apply holds.unknown
    intro isKnown
    exact notKnown (Finset.mem_insert_of_mem isKnown)
  · exact holds.valid

/-- What an operation on the element of a key leaves behind, when it has
released the slot. -/
theorem DictionaryHolds.finish {blocks : Nat → List Block}
    (mapped : array.isMapped = true)
    (holds : DictionaryHolds array level fe slot dict table store ledger)
    (inside : (slot : Int) < array.nElem) (bound : table slot = some k)
    (slotsHold : SlotsHold array table blocks ledger.buf)
    (frame : Frame array
      (∑ i ∈ Finset.range array.nElem.toNat, (blocks i : Multiset Block)) slot
      ledger after) {entry : DictionaryEntry}
    (stored : StoreHolds array level
      (∑ i ∈ Finset.range array.nElem.toNat, (blocks i : Multiset Block))
      (Function.update store slot entry.value) after)
    (state : (after.buf.tag (EMSdataCell slot)).fe = entry.fe)
    (boolean : entry.value.type = .boolean → entry.value.value = 0 ∨
      entry.value.value = 1) :
    DictionaryHolds array level fe (-1) (dict.put k entry) table
      (Function.update store slot entry.value) after := by
  obtain ⟨word, tag, heap⟩ := frame
  have inMap : ∀ i : Nat, EMSmapCell array.nElem i ≠ EMSdataCell slot :=
    fun i =>
    (data_ne_map (Int.natCast_nonneg i) slot inside).symm
  have mapTag : ∀ i : Nat, after.buf.tag (EMSmapCell array.nElem i) =
      if i = slot then { ledger.buf.tag (EMSmapCell array.nElem i)
        with fe := .full }
      else ledger.buf.tag (EMSmapCell array.nElem i) := by
    intro i
    rw [tag _ (inMap i)]
    by_cases same : i = slot
    · subst same
      simp [releasedMap, mapped]
    · simp [releasedMap, mapped, same]
  have dataTag : ∀ i : Nat, (i : Int) < array.nElem → i ≠ slot →
      after.buf.tag (EMSdataCell i) = ledger.buf.tag (EMSdataCell i) := by
    intro i inRange other
    rw [tag _ (by simpa using other)]
    simp [releasedMap, mapped, data_ne_map (Int.natCast_nonneg slot) i inRange]
  have inTable : ∀ {i : Nat} {k' : MapKey}, table i = some k' →
      (i : Int) < array.nElem := by
    intro i k' isBound
    have inRange : i < array.nElem.toNat :=
      holds.held.sound.lt (by omega) isBound
    omega
  constructor
  · refine ⟨holds.held.sound, blocks, ?_, stored⟩
    intro i inRange
    obtain ⟨type, wordHolds⟩ := slotsHold i inRange
    rw [mapTag, word _ (inMap i)]
    refine ⟨by split <;> exact type, wordHolds.same ?_⟩
    intro block member
    apply heap
    exact Multiset.mem_sum.mpr ⟨i, Finset.mem_range.mpr (by omega), member⟩
  · intro i inRange _
    rw [mapTag]
    split
    case isTrue => rfl
    case isFalse other => exact holds.slots i inRange (by omega)
  · exact holds.known
  · intro i k' isBound
    by_cases same : i = slot
    · subst same
      obtain rfl : k = k' := Option.some.inj (bound.symm.trans isBound)
      simp [Dictionary.put, state]
    · have otherKey : k' ≠ k := by
        rintro rfl
        exact same (holds.held.sound.unique isBound bound)
      rw [dataTag i (inTable isBound) same]
      simpa [Dictionary.put, otherKey, same] using holds.entries i k' isBound
  · intro i inRange unbound
    have other : i ≠ slot := by
      rintro rfl
      rw [bound] at unbound
      cases unbound
    rw [dataTag i inRange other]
    simpa [other] using holds.unused i inRange unbound
  · intro k' notKnown
    have otherKey : k' ≠ k := by
      rintro rfl
      exact notKnown ((holds.known k').mpr ⟨slot, bound⟩)
    simpa [Dictionary.put, otherKey] using holds.unknown k' notKnown
  · refine ⟨fun i isBoolean => ?_⟩
    by_cases same : i = slot
    · subst same
      simpa using boolean (by simpa using isBoolean)
    · simpa [same] using holds.valid.boolean i (by simpa [same] using isBoolean)

/-! ## Finding a slot -/

/-- A search has given up and changed nothing, or has ended at the slot of the
key. -/
def Located (array : EmsArray) (level : Nat) (fe : FE) (dict : Dictionary)
    (k : MapKey)
    (ledger : Ledger) (idx : Int) (after : Ledger) : Prop :=
  (idx = -1 ∧ after = ledger ∧ k ∉ dict.known ∧
      min array.nElem.toNat MAX_OPEN_HASH_STEPS ≤ dict.known.card) ∨
    ∃ (slot : Nat) (table : Table MapKey) (store : Store), idx = slot ∧
      (slot : Int) < array.nElem ∧ table slot = some k ∧
      DictionaryHolds array level fe slot (dict.learn k) table store after

theorem EMSwriteIndexMap_located [CRuntime] (mapped : array.isMapped = true)
    (positive : 0 < array.nElem) (names : key.Names k)
    (holds : DictionaryHolds array level fe (-1) dict table store ledger) :
    ledgerSolo.Ends (Located array level fe dict k ledger)
      (EMSwriteIndexMap patience array key)
      ledger := by
  have full : ∀ i : Nat, (i : Int) < array.nElem →
      (ledger.buf.tag (EMSmapCell array.nElem i)).fe = .full :=
    fun i inside => holds.slots i inside (by omega)
  apply (EMSwriteIndexMap_held mapped positive names holds.held full).mono
  intro idx after indexed
  cases result : mapSearch array table k with
  | found slot =>
      rw [result] at indexed
      obtain ⟨rfl, rfl⟩ := indexed
      have below : slot < array.nElem.toNat :=
        search_lt (by omega) (.inl result)
      have bound : table slot = some k := search_found result
      exact .inr ⟨slot, table, store, rfl, by omega, bound, holds.found bound⟩
  | free slot =>
      rw [result] at indexed
      obtain ⟨rfl, held, tags⟩ := indexed
      have below : slot < array.nElem.toNat :=
        search_lt (by omega) (.inr result)
      exact .inr ⟨slot, _, store,
        rfl, by omega, by simp, holds.bind positive result held tags⟩
  | exhausted =>
      rw [result] at indexed
      obtain ⟨rfl, rfl⟩ := indexed
      refine .inl ⟨rfl, rfl, holds.not_known (by simp [result]), ?_⟩
      exact holds.held.sound.crowded result fun i other bound =>
        (holds.known other).mpr ⟨i, bound⟩

/-! ## Waiting for ever -/

theorem Ends.and_returned {α : Type} {post holds : α → Ledger → Prop}
    {prog : EmsProg α}
    (ends : ledgerSolo.Ends post prog ledger)
    (returned : ∀ value after, heapSolo.Returns prog ledger value after →
      holds value after) :
    ledgerSolo.Ends (fun value after => post value after ∧ holds value after)
      prog ledger := by
  induction prog generalizing ledger with
  | ret value => exact ⟨ends, returned _ _ .ret⟩
  | access act next induction =>
      intro given
      refine ⟨(ends given).1, induction _ (ends given).2 ?_⟩
      exact fun value after later =>
        returned value after (.access trivial later)
  | spin => exact ends
  | abort => exact ends

private theorem EMStransitionFEtag_waits {post : Tag → EmsBuf → Prop}
    {cell : Cell} {mapTag : Option Cell}
    {oldFE newFE : FE} {buf : EmsBuf}
    (apart : ∀ map, mapTag = some map → cell ≠ map)
    (other : (buf.tag cell).fe ≠ oldFE) :
    (quietSolo True).Ends post
    (EMStransitionFEtag patience cell mapTag oldFE newFE) buf := by
  induction patience generalizing buf with
  | zero => trivial
  | succ patience induction =>
      have notOld : buf.tag cell ≠ { buf.tag cell with fe := oldFE } := by
        intro same
        exact other (congrArg Tag.fe same)
      apply Solo.Ends.perform
      refine fun _ => ⟨trivial, ?_⟩
      apply Solo.Ends.perform
      refine fun _ => ⟨trivial, ?_⟩
      simp only [Access.perform, notOld, if_false]
      cases mapTag with
      | none => exact induction other
      | some map =>
          apply (storeFE_yields trivial fun _ => trivial).bind
          apply (EMStransitionFEtag_yields (by simp) (fun _ => trivial) trivial
            fun _ _ => trivial).bind
          apply induction
          simpa [apart map rfl] using other

private theorem readLoop_waits
    {post : Except EMSError EMSvalueType → EmsBuf → Prop} {i : Int}
    {awaited : FE}
    {finalFE : Option FE} {tries : Nat} {newTag : Tag} {buf : EmsBuf}
    (noLock : awaited ≠ .rwLock)
    (apart : EMSdataCell i ≠ EMSmapCell array.nElem i)
    (other : (buf.tag (EMSdataCell i)).fe ≠ awaited) :
    (quietSolo True).Ends post
    (readLoop patience array i (some awaited) finalFE tries newTag)
      buf := by
  induction tries generalizing buf with
  | zero => trivial
  | succ tries induction =>
      have mayNot : mayRead (some awaited) (buf.tag (EMSdataCell i))
          newTag = false := by
        cases awaited with
        | rwLock => exact absurd rfl noLock
        | _ => simpa [mayRead] using other
      simp only [readLoop]
      apply Solo.Ends.perform
      refine fun _ => ⟨trivial, ?_⟩
      simp only [Access.perform, mayNot, Bool.false_eq_true, if_false]
      split
      · apply (storeFE_yields trivial fun _ => trivial).bind
        apply (EMStransitionFEtag_yields (by simp) (fun _ => trivial) trivial
          fun _ _ => trivial).bind
        apply induction
        simpa [apart] using other
      · exact induction other

/-! ## Writing -/

variable {value : EMSvalueType}

private theorem writeLoop_untagged (positive : 0 < array.nElem)
    (inside : (slot : Int) < array.nElem)
    {tries : Nat} {res : Except EMSError Unit}
    (returned : heapSolo.Returns
      (writeLoop patience array value none none tries slot) ledger res
      after) :
    (after.buf.tag (EMSdataCell slot)).fe =
    (ledger.buf.tag (EMSdataCell slot)).fe := by
  obtain ⟨-, written⟩ := writeLoop_returns returned
  simp only [Int.tmod_eq_of_lt (Int.natCast_nonneg slot) inside, heldForWrite,
    if_true, or_true]
    at written
  obtain ⟨between, stored, outcome, gives, storing, ended⟩ :=
    writeElement_returns (by rfl) written
  have tags : stored.buf.tag = ledger.buf.tag := by
    rcases storeValue_returns storing with ⟨_, -, -, tag, -⟩ | ⟨-, -, -, tag, -⟩
    · rw [tag, gives.tag]
    · rw [tag, gives.tag]
  cases outcome with
  | error error =>
      obtain ⟨-, rfl⟩ := ended
      rw [tags]
  | ok =>
      obtain ⟨-, rfl⟩ := ended
      rw [Ledger.released_tag positive]
      simp [writtenTag]

/-- The value has been written under the key. -/
def DictionaryWritten (array : EmsArray) (level : Nat) (fe : FE)
    (dict : Dictionary) (k : MapKey)
    (value : EMSvalueType) (finalFE : Option FE) (res : Except EMSError Unit)
    (after : Ledger) :
    Prop :=
  res = .ok () ∧ ∃ table store, DictionaryHolds array level fe (-1)
    (dict.put k ⟨finalFE.getD (dict.entries k).fe, value⟩) table store after

theorem DictionaryHolds.wrote {blocks : Nat → List Block}
    (mapped : array.isMapped = true)
    (wellFormed : value.WellFormed)
    (holds : DictionaryHolds array level fe slot dict table store ledger)
    (inside : (slot : Int) < array.nElem) (bound : table slot = some k)
    (slotsHold : SlotsHold array table blocks ledger.buf) {finalFE : Option FE}
    {res : Except EMSError Unit}
    (wrote : Wrote array level
      (∑ i ∈ Finset.range array.nElem.toNat, (blocks i : Multiset Block)) store
        slot value finalFE
      ledger res after)
    (kept : finalFE = none → (after.buf.tag (EMSdataCell slot)).fe =
      (ledger.buf.tag (EMSdataCell slot)).fe) :
    DictionaryWritten array level fe dict k value finalFE res after := by
  obtain ⟨rfl, storedAfter, frame, final⟩ := wrote
  refine ⟨rfl, table, _,
    holds.finish mapped inside bound slotsHold frame storedAfter ?_
    wellFormed.boolean⟩
  cases finalFE with
  | none =>
      rw [kept rfl, holds.entries slot k bound]
      rfl
  | some last => exact final last rfl

/-- The element of a key that has been found is written whatever its state
is. -/
theorem DictionaryHolds.write (small : EMS_MEM_BLOCKSZ * 2 ^ level < 2 ^ 63)
    (mapped : array.isMapped = true) (positive : 0 < array.nElem)
    (wellFormed : value.WellFormed)
    (holds : DictionaryHolds array level fe slot dict table store ledger)
    (inside : (slot : Int) < array.nElem) (bound : table slot = some k)
    {finalFE : Option FE}
    {tries : Nat} :
    ledgerSolo.Ends (DictionaryWritten array level fe dict k value finalFE)
      (writeLoop patience array value none finalFE tries slot) ledger := by
  obtain ⟨-, blocks, slotsHold, stored⟩ := holds.held
  have written :=
    @writeLoop_alone array level _ store ledger slot patience value small
    wellFormed.toSized stored inside none finalFE tries fun some =>
      absurd rfl some
  apply (Ends.and_returned written fun res after returned
      (untagged : finalFE = none) =>
    writeLoop_untagged positive inside (untagged ▸ returned)).mono
  rintro res after ⟨written, kept⟩
  exact holds.wrote mapped wellFormed inside bound slotsHold written kept

/-- The element is written when it is in the state awaited. -/
theorem DictionaryHolds.write_waiting
    (small : EMS_MEM_BLOCKSZ * 2 ^ level < 2 ^ 63)
    (mapped : array.isMapped = true) (positive : 0 < array.nElem)
    (wellFormed : value.WellFormed)
    (holds : DictionaryHolds array level fe slot dict table store ledger)
    (inside : (slot : Int) < array.nElem) (bound : table slot = some k)
    {awaited : FE}
    {finalFE : Option FE} (tagged : finalFE ≠ none) :
    ledgerSolo.Ends (fun res after => (dict.entries k).fe = awaited ∧
        DictionaryWritten array level fe dict k value finalFE res after)
      (EMStransitionFEtag patience (EMSdataCell slot)
        (mapTagOf array slot) awaited .busy >>=
        fun _ => writeLoop patience array value (some awaited) finalFE patience
          slot) ledger := by
  obtain ⟨-, blocks, slotsHold, stored⟩ := holds.held
  apply Solo.Ends.bind
  apply Ends.account
  by_cases found : (ledger.buf.tag (EMSdataCell slot)).fe = awaited
  · apply (EMStransitionFEtag_yields found (fun _ => trivial) trivial fun _ _ =>
      trivial).mono
    rintro _ _ ⟨-, rfl⟩
    refine (writeLoop_alone small wellFormed.toSized (stored.retag ?_)
      inside ?_).mono ?_
    · rfl
    · intro _
      simp
    · intro res after written
      refine ⟨?_, holds.wrote mapped wellFormed inside bound slotsHold
        (written.of_retag inside)
        fun untagged => absurd untagged tagged⟩
      rw [holds.entries slot k bound]
      exact found
  · exact EMStransitionFEtag_waits (mapTagOf_apart positive) found

/-- A call fails and changes nothing. -/
def DictionaryRefuses {α : Type} (array : EmsArray) (dict : Dictionary)
    (k : MapKey)
    (ledger : Ledger) (res : Except EMSError α) (after : Ledger) : Prop :=
  (∃ error, res = .error error) ∧ after = ledger ∧ k ∉ dict.known ∧
    min array.nElem.toNat MAX_OPEN_HASH_STEPS ≤ dict.known.card

/-- A write under a key fails, or writes the element of the key. -/
private theorem EMSwriteUsingTags_dictionary [CRuntime]
    (small : EMS_MEM_BLOCKSZ * 2 ^ level < 2 ^ 63)
    (mapped : array.isMapped = true) (positive : 0 < array.nElem)
    (names : key.Names k)
    (wellFormed : value.WellFormed)
    (holds : DictionaryHolds array level fe (-1) dict table store ledger)
    {initialFE finalFE : Option FE}
    (waits : initialFE ≠ none → finalFE ≠ none) :
    ledgerSolo.Ends (fun res after =>
      DictionaryRefuses array dict k ledger res after ∨
        (∀ awaited, initialFE = some awaited → (dict.entries k).fe = awaited) ∧
          DictionaryWritten array level fe (dict.learn k) k value
            finalFE res after)
      (EMSwriteUsingTags patience array key value initialFE finalFE)
        ledger := by
  simp only [EMSwriteUsingTags]
  apply Solo.Ends.bind
  apply (EMSwriteIndexMap_located mapped positive names holds).mono
  rintro idx between (⟨rfl, rfl, unknown, crowded⟩ |
    ⟨slot, table', store', rfl, inside, bound, located⟩)
  · exact .inl ⟨⟨_, rfl⟩, rfl, unknown, crowded⟩
  · rw [if_neg (by omega)]
    cases initialFE with
    | none =>
        apply (located.write small mapped positive wellFormed inside bound).mono
        exact fun res after written => .inr ⟨by simp, written⟩
    | some awaited =>
        apply (located.write_waiting small mapped positive wellFormed
          inside bound
          (waits (by simp))).mono
        rintro res after ⟨found, written⟩
        refine .inr ⟨?_, written⟩
        rintro _ ⟨⟩
        exact found

/-! ## Reading -/

/-- The value under the key has been read. -/
def DictionaryRead (array : EmsArray) (level : Nat) (fe : FE)
    (dict : Dictionary) (k : MapKey)
    (finalFE : Option FE) (res : Except EMSError EMSvalueType)
    (after : Ledger) : Prop :=
  (∃ value, res = .ok value ∧
    Reads after.buf.heap value (dict.entries k).value) ∧
    ∃ table store, DictionaryHolds array level fe (-1)
      (dict.put k ⟨finalFE.getD (dict.entries k).fe, (dict.entries k).value⟩)
        table store after

theorem acquiredRead_same {i : Int} {initialFE : Option FE} {buf : EmsBuf} :
    acquiredRead i initialFE buf =
      { buf with tag := (acquiredRead i initialFE buf).tag } := by
  unfold acquiredRead
  cases initialFE <;> rfl

private theorem read_frame {kept : Multiset Block}
    (inside : (slot : Int) < array.nElem)
    {initialFE finalFE : Option FE} {newTag : Tag} :
    Frame array kept slot ledger { ledger with
      buf :=
        finishedRead array slot finalFE newTag
          (acquiredRead slot initialFE ledger.buf) } := by
  constructor
  · intro cell _
    rw [finishedRead_same, acquiredRead_same]
  · intro cell other
    apply releasedMap_tag_congr _ inside (Int.natCast_nonneg slot) other
    intro cell' other'
    cases finalFE <;> cases initialFE <;> simp [acquiredRead, other']
  · intro block _ a _ _
    rw [finishedRead_same, acquiredRead_same]

private theorem read_state (inside : (slot : Int) < array.nElem)
    {initialFE finalFE : Option FE}
    (untagged : finalFE = none → initialFE = none) {newTag : Tag}
    {buf : EmsBuf} :
    ((finishedRead array slot finalFE newTag
      (acquiredRead slot initialFE buf)).tag
      (EMSdataCell slot)).fe = finalFE.getD
        (buf.tag (EMSdataCell slot)).fe := by
  unfold finishedRead
  rw [releasedMap_data inside]
  cases finalFE with
  | none =>
      rw [untagged rfl]
      rfl
  | some last => simp

/-- The element of a key that has been found is read, when it is in the state
awaited. -/
theorem DictionaryHolds.read (positive : 0 < array.nElem)
    (mapped : array.isMapped = true)
    (holds : DictionaryHolds array level fe slot dict table store ledger)
    (inside : (slot : Int) < array.nElem) (bound : table slot = some k)
    {initialFE finalFE : Option FE} (noLock : initialFE ≠ some .rwLock)
    (untagged : finalFE = none → initialFE = none) {stack : Tag} :
    ledgerSolo.Ends (fun res after =>
        (∀ awaited, initialFE = some awaited → (dict.entries k).fe = awaited) ∧
          DictionaryRead array level fe dict k finalFE res after)
      (readLoop patience array slot initialFE finalFE patience stack)
        ledger := by
  have entry := holds.entries slot k bound
  obtain ⟨-, blocks, slotsHold, stored⟩ := holds.held
  obtain ⟨own, ⟨type, word⟩, -⟩ := stored.element inside
  apply Ends.account
  by_cases found : ∀ awaited, initialFE = some awaited →
      (ledger.buf.tag (EMSdataCell slot)).fe = awaited
  · apply (readLoop_ends word type (holds.valid.boolean slot) noLock
      (fun _ => found)
      fun _ => trivial).mono
    rintro res _ ⟨rfl, current, rfl, reads⟩
    have unchanged : Function.update store slot (store slot) = store :=
      Function.update_eq_self (slot : Int) store
    have storedAfter := @StoreHolds.read _ _ _ _ _ slot stored initialFE finalFE
    rw [← unchanged] at storedAfter
    refine ⟨?_, ⟨current, rfl, ?_⟩, table,
      Function.update store slot (store slot), ?_⟩
    · rw [entry]
      exact found
    · rw [entry, finishedRead_same]
      exact reads
    · rw [entry]
      exact holds.finish mapped inside bound slotsHold
        (read_frame inside) storedAfter
        (read_state inside untagged) (holds.valid.boolean slot)
  · push Not at found
    obtain ⟨awaited, rfl, other⟩ := found
    exact readLoop_waits (fun lock => noLock (congrArg some lock))
      (data_cell_ne_map positive) other

theorem DictionaryHolds.read_unknown
    (holds : DictionaryHolds array level fe (-1) dict table store ledger)
    (unknown : k ∉ dict.known)
    {undefined : EMSvalueType} (type : undefined.type = .undefined) :
    DictionaryRead array level fe dict k none (.ok undefined) ledger := by
  have entry := holds.unknown k unknown
  have unchanged : dict.put k (dict.entries k) = dict := by
    rw [Dictionary.put, Function.update_eq_self]
  refine ⟨⟨undefined, rfl, ?_⟩, table, store, ?_⟩
  · rw [entry]
    refine ⟨type, fun isText => ?_, fun isWord => ?_⟩
    · exact absurd isText (by simp [EMSType.IsText, scalar])
    · exact absurd isWord (by simp [EMSType.IsWord, scalar])
  · change DictionaryHolds array level fe (-1) (dict.put k (dict.entries k))
      table store ledger
    rwa [unchanged]

/-- A read under a key fails, or reads the element of the key.  A plain read
does not fail. -/
theorem EMSreadUsingTags_dictionary [CRuntime] (mapped : array.isMapped = true)
    (large : 1 < array.nElem) (names : key.Names k)
    (holds : DictionaryHolds array level fe (-1) dict table store ledger)
    {initialFE finalFE : Option FE} (noLock : initialFE ≠ some .rwLock)
    (untagged : finalFE = none → initialFE = none) {stack : Tag} :
    ledgerSolo.Ends (fun res after =>
        finalFE ≠ none ∧ DictionaryRefuses array dict k ledger res after ∨
        (∀ awaited, initialFE = some awaited → (dict.entries k).fe = awaited) ∧
          DictionaryRead array level fe
            (if finalFE = none then dict else dict.learn k) k finalFE
            res after)
      (EMSreadUsingTags patience array stack key initialFE finalFE) ledger := by
  have positive : 0 < array.nElem := by omega
  have full : ∀ i : Nat, (i : Int) < array.nElem →
      (ledger.buf.tag (EMSmapCell array.nElem i)).fe = .full :=
    fun i inside => holds.slots i inside (by omega)
  obtain ⟨-, blocks, slotsHold, -⟩ := holds.held
  -- the search has not found the key
  have absent : (∀ slot, mapSearch array table k ≠ .found slot) →
      ledgerSolo.Ends (fun res after =>
        finalFE ≠ none ∧ DictionaryRefuses array dict k ledger res after ∨
        (∀ awaited, initialFE = some awaited → (dict.entries k).fe = awaited) ∧
          DictionaryRead array level fe
            (if finalFE = none then dict else dict.learn k) k finalFE
            res after)
      (if finalFE = none then pure (.ok (scalar .undefined 0xdeafbeef))
      else do
        let idx ← EMSwriteIndexMap patience array key
        if idx < 0 then pure (.error .unableToAllocate)
        else if array.nElem ≤ idx then pure (.error .indexOutOfBounds)
        else readLoop patience array idx initialFE finalFE patience stack)
            ledger := by
    intro notFound
    by_cases plain : finalFE = none
    · subst plain
      rw [untagged rfl, if_pos rfl, if_pos rfl]
      exact .inr ⟨by simp, holds.read_unknown (holds.not_known notFound) rfl⟩
    · rw [if_neg plain, if_neg plain]
      apply Solo.Ends.bind
      apply (EMSwriteIndexMap_located mapped positive names holds).mono
      rintro idx between (⟨rfl, rfl, unknown, crowded⟩ |
        ⟨slot, table', store', rfl, inside, bound, located⟩)
      · exact .inl ⟨plain, ⟨_, rfl⟩, rfl, unknown, crowded⟩
      · rw [if_neg (by omega), if_neg (by omega)]
        apply (located.read positive mapped inside bound noLock untagged).mono
        exact fun res after read => .inr read
  have negative : True ∧ (-1 : Int) < 0 := by decide
  simp only [EMSreadUsingTags, mapped]
  apply Yields.account
    (EMSkey2index_yields positive names slotsHold full fun _ => trivial)
  cases result : mapSearch array table k with
  | found slot =>
      have below : slot < array.nElem.toNat :=
        search_lt (by omega) (.inl result)
      have bound : table slot = some k := search_found result
      have already : dict.learn k = dict := by
        have isKnown : k ∈ dict.known := (holds.known k).mpr ⟨slot, bound⟩
        rw [Dictionary.learn, Finset.insert_eq_self.mpr isKnown]
      have present : ¬ (True ∧ (slot : Int) < 0) := by omega
      have inRange : ¬ ((slot : Int) < 0 ∨ array.nElem ≤ slot) := by omega
      rw [foundIndex, tmod_slot positive, Nat.mod_eq_of_lt below,
        if_neg present, if_neg inRange]
      apply ((holds.found bound).read positive mapped (by omega) bound noLock
        untagged).mono
      rintro res after ⟨found, read⟩
      rw [already] at read
      rw [already, ite_self]
      exact .inr ⟨found, read⟩
  | free slot =>
      have index : foundIndex (.free slot) = -1 := rfl
      rw [index, neg_one_tmod large, if_pos negative]
      exact absent (by simp [result])
  | exhausted =>
      have index : foundIndex .exhausted = -1 := rfl
      rw [index, neg_one_tmod large, if_pos negative]
      exact absent (by simp [result])

end Holding

/-! ## Sequences of calls -/

section Calls

variable [CRuntime] {array : EmsArray} {level : Nat} {fe : FE} {stack : Tag}

/-- A call that returns, with nothing refused by the allocator. -/
abbrev DictionaryCall (array : EmsArray) (stack : Tag) :
    Ledger → KeyedCall × KeyedRes → Ledger → Prop :=
  ledgerSolo.Call (fun call => call.op.code array stack call.key) fun call
    _ => call.Valid

/-- What is known of the result of a call and of what it leaves behind. -/
def KeyedCall.Returned (array : EmsArray) (level : Nat) (fe : FE)
    (dict : Dictionary)
    (ledger : Ledger) (call : KeyedCall) (res : KeyedRes)
    (after : Ledger) : Prop :=
  if res.Failed then call.Refused array dict ∧ after = ledger
  else call.Answers (dict.entries call.name) res after.buf.heap ∧
    ∃ table store, DictionaryHolds array level fe (-1) (dict.perform call)
      table store after

/-- A call answers by the dictionary and leaves it as specified. -/
theorem KeyedCall.alone (small : EMS_MEM_BLOCKSZ * 2 ^ level < 2 ^ 63)
    (mapped : array.isMapped = true) (large : 1 < array.nElem)
    {dict : Dictionary}
    {table : Table MapKey} {store : Store} {ledger : Ledger}
    (holds : DictionaryHolds array level fe (-1) dict table store ledger)
    {call : KeyedCall}
    (valid : call.Valid) {patience : Nat} :
    ledgerSolo.Ends (call.Returned array level fe dict ledger)
      (call.op.code array stack call.key patience) ledger := by
  obtain ⟨names, readsOrWrites, wellFormed⟩ := valid
  have positive : 0 < array.nElem := by omega
  obtain ⟨key, k, op⟩ := call
  have writes : ∀ {value : EMSvalueType} {initialFE finalFE : Option FE},
      op.stores = some value →
      op.binds = true → op.waitsFor = initialFE → op.leaves = finalFE →
      (initialFE ≠ none → finalFE ≠ none) →
      ledgerSolo.Ends (KeyedCall.Returned array level fe dict ledger
        ⟨key, k, op⟩)
        (.written <$> EMSwriteUsingTags patience array key value initialFE
            finalFE) ledger := by
    intro value initialFE finalFE stores binds waitsFor leaves waits
    simp only [map_eq_pure_bind]
    apply Solo.Ends.bind
    apply (EMSwriteUsingTags_dictionary small mapped positive names
      (wellFormed value stores) holds
      waits).mono
    rintro res after (⟨⟨error, rfl⟩, rfl, unknown, crowded⟩ |
      ⟨waited, rfl, table', store', holds'⟩)
    · exact ⟨⟨binds, unknown, crowded⟩, rfl⟩
    · refine ⟨⟨?_, ?_⟩, table', store', ?_⟩
      · rw [waitsFor]
        exact waited
      · simp [stores]
      · simpa [Dictionary.perform, Dictionary.learn, binds, leaves,
          stores] using holds'
  have reads : ∀ {initialFE finalFE : Option FE}, op.stores = none →
      op.binds = (finalFE != none) → op.waitsFor = initialFE →
        op.leaves = finalFE →
      initialFE ≠ some .rwLock → (finalFE = none → initialFE = none) →
      ledgerSolo.Ends (KeyedCall.Returned array level fe dict ledger
        ⟨key, k, op⟩)
        (.value <$> EMSreadUsingTags patience array stack key initialFE finalFE)
            ledger := by
    intro initialFE finalFE stores binds waitsFor leaves noLock untagged
    simp only [map_eq_pure_bind]
    apply Solo.Ends.bind
    apply (EMSreadUsingTags_dictionary mapped large names holds noLock
      untagged).mono
    rintro res after (⟨tagged, ⟨error, rfl⟩, rfl, unknown, crowded⟩ |
      ⟨waited, ⟨value, rfl, read⟩, table', store', holds'⟩)
    · exact ⟨⟨by simpa [binds] using tagged, unknown, crowded⟩, rfl⟩
    · have sameEntry : (if finalFE = none then dict
          else dict.learn k).entries k =
          dict.entries k := by
        split <;> rfl
      have learned : (if finalFE = none then dict else dict.learn k) =
          if op.binds then dict.learn k else dict := by
        rw [binds]
        cases finalFE <;> rfl
      rw [sameEntry] at read holds'
      rw [learned] at holds'
      refine ⟨⟨?_, ?_⟩, table', store', ?_⟩
      · rw [waitsFor]
        exact waited
      · rw [stores]
        exact ⟨value, rfl, read⟩
      · simpa [Dictionary.perform, leaves, stores] using holds'
  cases op with
  | write value | writeXF value | writeXE value | writeEF value =>
      exact writes rfl rfl rfl rfl (by simp)
  | read | readFF | readFE => exact reads rfl rfl rfl rfl (by decide) (by simp)
  | readRW | releaseRW | faa | cas | setTag => exact readsOrWrites.elim

omit [CRuntime] in
theorem dictionaryAfter_snoc (calls : List (KeyedCall × KeyedRes))
    (call : KeyedCall × KeyedRes) :
    dictionaryAfter fe (calls ++ [call]) =
      if call.2.Failed then dictionaryAfter fe calls
      else (dictionaryAfter fe calls).perform call.1 := by
  simp [dictionaryAfter]

private theorem dictionary_invariant
    (small : EMS_MEM_BLOCKSZ * 2 ^ level < 2 ^ 63)
    (mapped : array.isMapped = true) (large : 1 < array.nElem)
    {start ledger : Ledger}
    (fresh : FreshMap array level fe start)
    {calls : List (KeyedCall × KeyedRes)}
    (run : Run (DictionaryCall array stack) start calls ledger) :
    ∃ table store, DictionaryHolds array level fe (-1)
      (dictionaryAfter fe calls) table store
      ledger := by
  induction run with
  | nil => exact ⟨_, _, fresh.holds⟩
  | snoc _ call induction =>
      obtain ⟨table, store, holds⟩ := induction
      cases call with
      | mk patience valid returns =>
          have returned :=
            (KeyedCall.alone small mapped large holds valid).returns returns
          rw [dictionaryAfter_snoc]
          unfold KeyedCall.Returned at returned
          split at returned
          case isTrue failed =>
            obtain ⟨-, rfl⟩ := returned
            rw [if_pos failed]
            exact ⟨table, store, holds⟩
          case isFalse succeeded =>
            rw [if_neg succeeded]
            exact returned.2

/-- A mapped array is a dictionary in which every key has an element from the
beginning.  After any sequence of reads and writes the known keys have slots of
their own, the heap holds the strings that are keys and values and nothing
besides, and the next call answers by the dictionary, changes nothing if it is
refused, and fails no assertion. -/
theorem mapped_array_refines (small : EMS_MEM_BLOCKSZ * 2 ^ level < 2 ^ 63)
    (mapped : array.isMapped = true) (large : 1 < array.nElem)
    {start ledger : Ledger}
    (fresh : FreshMap array level fe start)
    {calls : List (KeyedCall × KeyedRes)}
    (run : Run (DictionaryCall array stack) start calls ledger) :
    (∃ table store, DictionaryHolds array level fe (-1)
      (dictionaryAfter fe calls) table store
      ledger) ∧
    (∀ call res after, DictionaryCall array stack ledger (call, res) after →
      if res.Failed then call.Refused array (dictionaryAfter fe calls) ∧
        after = ledger
      else call.Answers ((dictionaryAfter fe calls).entries call.name) res
        after.buf.heap) ∧
    ∀ (call : KeyedCall) (patience : Nat), call.Valid →
      ¬ ledgerSolo.Aborts (call.op.code array stack call.key patience)
        ledger := by
  obtain ⟨table, store, holds⟩ :=
    dictionary_invariant small mapped large fresh run
  refine ⟨⟨table, store, holds⟩, ?_, ?_⟩
  · intro call res after called
    cases called with
    | mk patience valid returns =>
        have returned :=
          (KeyedCall.alone small mapped large holds valid).returns returns
        unfold KeyedCall.Returned at returned
        split at returned
        case isTrue failed =>
          rw [if_pos failed]
          exact returned
        case isFalse succeeded =>
          rw [if_neg succeeded]
          exact returned.1
  · intro call patience valid
    exact (KeyedCall.alone small mapped large holds valid).not_aborts

end Calls

/-- The number 7 is written under the key 5. -/
def putsSeven : KeyedCall :=
  ⟨scalar .integer 5, .integer 5, .writeXF (scalar .integer 7)⟩

/-- What is under the key 5 is taken. -/
def takesFive : KeyedCall := ⟨scalar .integer 5, .integer 5, .readFE⟩

theorem five_names : (scalar .integer 5).Names (.integer 5) where
  same := by decide
  sized := ⟨by decide, fun text => absurd text (by decide)⟩
  start := by decide

private theorem putsSeven_valid : putsSeven.Valid where
  names := five_names
  readsOrWrites := trivial
  wellFormed := by
    intro value stored
    obtain rfl := Option.some.inj stored
    refine ⟨⟨by decide, fun text => absurd text (by decide)⟩, fun boolean => ?_⟩
    cases boolean

private theorem takesFive_valid : takesFive.Valid where
  names := five_names
  readsOrWrites := trivial
  wellFormed := by
    intro value stored
    cases stored

/-- The element of the key is left empty. -/
theorem mapped_array_refines_taken :
    letI := ieeeRuntime
    ∃ (calls : List (KeyedCall × KeyedRes)) (ledger : Ledger),
      ((dictionaryAfter .full calls).entries (.integer 5)).fe = .empty ∧
      ∃ table store, DictionaryHolds ⟨2, true⟩ 0 .full (-1)
        (dictionaryAfter .full calls) table store
        ledger := by
  let _ : CRuntime := ieeeRuntime
  let stack : Tag := ⟨.full, .undefined, 0⟩
  obtain ⟨pair, final, returned, checked⟩ := ledgerSolo.exists_returns (do
      let written ← putsSeven.op.code ⟨2, true⟩ stack putsSeven.key 2
      let taken ← takesFive.op.code ⟨2, true⟩ stack takesFive.key 2
      return (written, taken)) freshLedger
    (fun played => decide (¬ played.1.1.Failed ∧ ¬ played.1.2.Failed))
      (by decide +kernel)
  obtain ⟨written, between, writing, continued⟩ :=
    Solo.returns_bind_iff.mp returned
  obtain ⟨taken, after, taking, ended⟩ := Solo.returns_bind_iff.mp continued
  obtain ⟨rfl, rfl⟩ := Solo.returns_ret_iff.mp ended
  have run : Run (DictionaryCall ⟨2, true⟩ stack) freshLedger
      ([] ++ [(putsSeven, written)] ++ [(takesFive, taken)]) final :=
    (Run.nil.snoc (.mk 2 putsSeven_valid writing)).snoc
      (.mk 2 takesFive_valid taking)
  have fresh : FreshMap ⟨2, true⟩ 0 .full freshLedger :=
    ⟨fun _ _ => ⟨rfl, rfl⟩, fun _ _ => rfl,
      InitialStore.holds ⟨fun _ _ _ => rfl, rfl, rfl, rfl, rfl⟩⟩
  obtain ⟨stored, emptied⟩ := of_decide_eq_true checked
  refine ⟨_, final, ?_,
    (mapped_array_refines (by decide) rfl (by decide) fresh run).1⟩
  rw [dictionaryAfter_snoc, if_neg emptied]
  simp [Dictionary.perform, Dictionary.put, takesFive, KeyedOp.leaves]

end EMS
