import EMS.MapKeys
import EMS.TransactionAccesses

/-!
# Elements in the middle of a write

A write gives the old block back, places the new value, and stores its type.
Between these accesses an element holds no value, or one that its type does not
tell of yet.  The heap is accounted for at every stage.
-/

namespace EMS

open SharedProgram

/-- What an element holds: a value, nothing, or a value whose type is not stored
yet. -/
inductive Filling where
  | settled (value : EMSvalueType)
  | freed
  | placed (value : EMSvalueType)

/-- The element is at the stage, with the blocks. -/
def FillingHolds (buf : EmsBuf) (idx : Int) (filling : Filling)
    (blocks : List Block) : Prop :=
  match filling with
  | .settled value => ElementHolds buf idx value blocks ∧ PlainValue value
  | .freed => blocks = []
  | .placed value =>
      WordHolds (buf.word (EMSdataCell idx)) buf.heap value blocks ∧
        PlainValue value

/-- The elements are at their stages, and the live blocks are exactly theirs and
those that are kept besides. -/
structure RegionHolds (nElem level : Nat) (kept : Multiset Block)
    (fill : Nat → Filling)
    (ledger : Ledger) : Prop where
  ordered : ledger.Ordered level
  sound : ledger.misfreed = false
  elements : ∃ blocks : Nat → List Block,
    (∀ i, i < nElem → FillingHolds ledger.buf i (fill i) (blocks i)) ∧
    (ledger.live : Multiset Block) =
      kept + ∑ i ∈ Finset.range nElem, (blocks i : Multiset Block)

section Regions

variable {nElem level : Nat} {kept : Multiset Block} {fill : Nat → Filling}
  {ledger after : Ledger} {idx : Nat} {value : EMSvalueType}

/-- An element stays at its stage as long as its tag, its word and its blocks
are left alone. -/
theorem FillingHolds.congr {buf buf' : EmsBuf} {filling : Filling}
    {blocks : List Block}
    (tag : buf'.tag (EMSdataCell idx) = buf.tag (EMSdataCell idx))
    (word : buf'.word (EMSdataCell idx) = buf.word (EMSdataCell idx))
    (heap : ∀ block ∈ blocks, block.Same buf.heap buf'.heap)
    (holds : FillingHolds buf idx filling blocks) :
    FillingHolds buf' idx filling blocks := by
  cases filling with
  | settled value =>
      obtain ⟨⟨type, here⟩, plain⟩ := holds
      exact ⟨⟨by rw [tag, type], by rw [word]; exact here.same heap⟩, plain⟩
  | freed => exact holds
  | placed value =>
      obtain ⟨here, plain⟩ := holds
      exact ⟨by rw [word]; exact here.same heap, plain⟩

/-- One element goes to another stage, and the account follows. -/
theorem RegionHolds.advance (holds : RegionHolds nElem level kept fill ledger)
    (below : idx < nElem) {filling : Filling} (ordered : after.Ordered level)
    (misfreed : after.misfreed = ledger.misfreed)
    (tags : ∀ i : Nat, i ≠ idx → after.buf.tag (EMSdataCell i) = ledger.buf.tag
      (EMSdataCell i))
    (words : ∀ i : Nat, i ≠ idx → after.buf.word (EMSdataCell i) =
      ledger.buf.word (EMSdataCell i))
    (heap : ∀ block ∈ ledger.live, block.Same ledger.buf.heap after.buf.heap)
    (changes : ∀ blocks, FillingHolds ledger.buf idx (fill idx) blocks →
      (∀ block ∈ blocks, block ∈ ledger.live) →
      ∃ blocks', FillingHolds after.buf idx filling blocks' ∧
        (after.live + blocks : Multiset Block) = ledger.live + blocks') :
    RegionHolds nElem level kept (Function.update fill idx filling) after := by
  obtain ⟨_, sound, blocks, elements, live⟩ := holds
  have inLive : ∀ i, i < nElem → ∀ block ∈ blocks i, block ∈ ledger.live := by
    intro i inside block member
    exact mem_blocks (Finset.mem_range.mpr inside) member live
  obtain ⟨blocks', here, account⟩ :=
    changes (blocks idx) (elements idx below) (inLive idx below)
  have inArray : (idx : Int) < (⟨nElem, false⟩ : EmsArray).nElem :=
    Int.ofNat_lt.mpr below
  have split : ∑ i ∈ Finset.range nElem, (blocks i : Multiset Block) = _ :=
    blocks_split inArray blocks
  have updated : ∑ i ∈ Finset.range nElem,
      (Function.update blocks idx blocks' i : Multiset Block) = _ :=
    blocks_update inArray blocks blocks'
  refine ⟨ordered, misfreed.trans sound,
    Function.update blocks idx blocks', ?_, ?_⟩
  · intro i inside
    by_cases same : i = idx
    · subst same
      simpa using here
    · simp only [Function.update_of_ne same]
      exact (elements i inside).congr (tags i same) (words i same)
          fun block member =>
        heap block (inLive i inside block member)
  · rw [updated]
    rw [live, split] at account
    apply add_right_cancel (b := (blocks idx : Multiset Block))
    rw [account]
    abel

theorem RegionHolds.settled (holds : RegionHolds nElem level kept fill ledger)
    (below : idx < nElem) (settled : fill idx = .settled value) :
    ∃ blocks, ElementHolds ledger.buf idx value blocks ∧ PlainValue value ∧
      ∀ block ∈ blocks, block ∈ ledger.live := by
  obtain ⟨-, -, blocks, elements, live⟩ := holds
  have here := elements idx below
  rw [settled] at here
  exact ⟨blocks idx, here.1, here.2, fun block member =>
    mem_blocks (Finset.mem_range.mpr below) member live⟩

theorem RegionHolds.short (holds : RegionHolds nElem level kept fill ledger)
    (small : EMS_MEM_BLOCKSZ * 2 ^ level < 2 ^ 63) {block : Block}
    (member : block ∈ ledger.live) :
    block.bytes < 2 ^ 63 := by
  obtain ⟨-, tree, shape⟩ := holds.ordered
  have inside : block.address + block.length ≤ EMS_MEM_BLOCKSZ * 2 ^ level :=
    shape.inside member
  have room := block.bytes_le_length
  omega

/-- The tag of an element changes, and not its type. -/
theorem RegionHolds.retag
    (holds : RegionHolds nElem level kept fill ledger) {tag : Tag}
    (type : tag.type = (ledger.buf.tag (EMSdataCell idx)).type) :
    RegionHolds nElem level kept fill
      { ledger with buf := ledger.buf.setTag (EMSdataCell idx) tag } := by
  obtain ⟨ordered, sound, blocks, elements, live⟩ := holds
  refine ⟨ordered.congr rfl rfl rfl, sound, blocks, ?_, live⟩
  intro i inside
  have here := elements i inside
  by_cases same : i = idx
  · subst same
    cases filling : fill i with
    | settled value =>
        rw [filling] at here
        exact ⟨⟨by simpa [type] using here.1.1, here.1.2⟩, here.2⟩
    | freed =>
        rw [filling] at here
        exact here
    | placed value =>
        rw [filling] at here
        exact here
  · apply here.congr
    · have other : (i : Int) ≠ idx := fun equal => same (Int.ofNat.inj equal)
      simp [other]
    · rfl
    · exact fun _ _ _ _ _ => rfl

/-- The block of a string is given back. -/
theorem RegionHolds.free (holds : RegionHolds nElem level kept fill ledger)
    (small : EMS_MEM_BLOCKSZ * 2 ^ level < 2 ^ 63) (below : idx < nElem)
    (settled : fill idx = .settled value)
    (text : (ledger.buf.tag (EMSdataCell idx)).type.IsText) :
    ∃ mem live, Access.account
      (.memFree (ledger.buf.word (EMSdataCell idx))) ledger =
        (.ok (), ⟨ledger.buf.setMem mem, live, ledger.misfreed⟩) ∧
      RegionHolds nElem level kept (Function.update fill idx .freed)
        ⟨ledger.buf.setMem mem, live, ledger.misfreed⟩ := by
  obtain ⟨blocks, ⟨type, word⟩, -, inLive⟩ := holds.settled below settled
  obtain ⟨block, rfl, address, -⟩ := (wordHolds_text (type ▸ text)).mp word
  have member : block ∈ ledger.live := inLive block (by simp)
  obtain ⟨free, tree, shape⟩ := holds.ordered
  obtain ⟨mem, tree', success, shape'⟩ := shape.free member
  refine ⟨mem, ledger.live.erase block, ?_, ?_⟩
  · rw [address]
    exact memFree_account small shape member success
  · refine holds.advance below ⟨free, tree', shape'⟩ rfl (fun _ _ => rfl)
      (fun _ _ => rfl)
      (fun _ _ _ _ _ => rfl) ?_
    intro blocks' here inLive'
    rw [settled] at here
    obtain ⟨other, rfl, address', -⟩ :=
      (wordHolds_text (type ▸ text)).mp here.1.2
    have same : other = block := by
      apply shape.eq_of_address (inLive' other (by simp)) member
      rw [address] at address'
      exact (Int.ofNat.inj address').symm
    subst same
    refine ⟨[], rfl, ?_⟩
    simp only [Multiset.coe_add, Multiset.coe_eq_coe, List.append_nil]
    exact (List.perm_append_singleton _ _).trans
      (List.perm_cons_erase member).symm

theorem RegionHolds.keep (holds : RegionHolds nElem level kept fill ledger)
    (below : idx < nElem) (settled : fill idx = .settled value)
    (noText : ¬ (ledger.buf.tag (EMSdataCell idx)).type.IsText) :
    RegionHolds nElem level kept (Function.update fill idx .freed) ledger := by
  refine holds.advance below holds.ordered rfl (fun _ _ => rfl) (fun _ _ => rfl)
    (fun _ _ _ _ _ => rfl) ?_
  intro blocks here _
  rw [settled] at here
  rw [here.1.1] at noText
  exact ⟨[], rfl, by rw [here.1.2.no_blocks noText]⟩

/-- The allocator hands a block out, or refuses and leaves everything as it
is. -/
theorem Ledger.Ordered.memAlloc (ordered : ledger.Ordered level) {bytes : Nat}
    (valid : ValidRequest bytes) :
    (∃ (offset : Nat) (mem : EmsMem), Access.account (.memAlloc bytes) ledger =
        (.ok (offset : Int),
          ⟨ledger.buf.setMem mem, ⟨offset, bytes⟩ :: ledger.live,
            ledger.misfreed⟩) ∧
      Ledger.Ordered level
        ⟨ledger.buf.setMem mem, ⟨offset, bytes⟩ :: ledger.live,
          ledger.misfreed⟩) ∨
    (Access.account (.memAlloc bytes) ledger = (.ok (-1), ledger) ∧
      ¬ Serves ledger.buf.mem bytes) := by
  obtain ⟨free, tree, shape⟩ := ordered
  have spec := shape.alloc valid
  cases result : BuddyTree.take (orderFor bytes) level tree with
  | none =>
      simp only [result] at spec
      right
      refine ⟨?_, fun serves => absurd (serves _ _ spec) (by decide)⟩
      simp only [Access.account, Access.perform, spec, Access.settle,
        Access.misfrees,
        Bool.or_false]
      rfl
  | some taken =>
      simp only [result] at spec
      obtain ⟨mem, success, shape'⟩ := spec
      left
      refine ⟨taken.1 * EMS_MEM_BLOCKSZ, mem, ?_, free, taken.2, shape'⟩
      simp only [Access.account, Access.perform, success, Access.settle,
        Access.misfrees,
        Bool.or_false, Int.natCast_nonneg, if_true, Int.toNat_natCast]
      rfl

theorem PlainValue.storedWord {word : Int → UInt8} (plain : PlainValue value)
    (noText : ¬ value.type.IsText) :
    WordHolds (storedWord value) word value [] := by
  rcases plain.toSized.placeable.cases with ⟨text, -⟩ | type |
    type | type | type
  · exact absurd text noText
  all_goals simp [WordHolds, EMS.storedWord, type]

/-- A value is placed where the old one has been given back. -/
theorem RegionHolds.place (holds : RegionHolds nElem level kept fill ledger)
    (below : idx < nElem) (freed : fill idx = .freed) (plain : PlainValue value)
    {placed : List Block}
    (places : Placed level (EMSdataCell idx) value placed ledger after) :
    RegionHolds nElem level kept
      (Function.update fill idx (.placed value)) after := by
  refine holds.advance below places.ordered places.misfreed (fun _ _ => by
    rw [places.tag]) ?_
    places.heap ?_
  · intro i other
    apply places.word
    simpa using other
  · intro blocks here _
    rw [freed] at here
    obtain rfl : blocks = [] := here
    refine ⟨placed, ⟨places.holds, plain⟩, ?_⟩
    rw [places.live]
    simp only [Multiset.coe_add, Multiset.coe_eq_coe, List.append_nil]
    exact List.perm_append_comm

/-- The type of the value is stored at last. -/
theorem RegionHolds.finish (holds : RegionHolds nElem level kept fill ledger)
    (below : idx < nElem) (placed : fill idx = .placed value) {tag : Tag}
    (type : tag.type = value.type) :
    RegionHolds nElem level kept (Function.update fill idx (.settled value))
      { ledger with buf := ledger.buf.setTag (EMSdataCell idx) tag } := by
  refine holds.advance below (holds.ordered.congr rfl rfl rfl) rfl ?_
    (fun _ _ => rfl)
    (fun _ _ _ _ _ => rfl) ?_
  · intro i other
    have apart : (i : Int) ≠ idx := fun equal => other (Int.ofNat.inj equal)
    simp [apart]
  · intro blocks here _
    rw [placed] at here
    exact ⟨blocks, ⟨⟨by simpa using type, here.1⟩, here.2⟩, rfl⟩

theorem StoreHolds.settled {store : Store}
    (holds : StoreHolds ⟨nElem, false⟩ level kept store ledger)
    (plain : ∀ i : Nat, i < nElem → PlainValue (store i)) :
    RegionHolds nElem level kept (fun i => .settled (store i)) ledger := by
  obtain ⟨ordered, sound, blocks, elements, live⟩ := holds
  refine ⟨ordered, sound, blocks, ?_, live⟩
  intro i below
  exact ⟨elements i (Int.ofNat_lt.mpr below), plain i below⟩

end Regions

/-! ## All arrays -/

namespace TxMemory

variable {memory : TxMemory} {name other : ElementName}
  {ledger : Ledger} {tag : Tag}

@[simp] theorem region_setRegion :
    (memory.setRegion name ledger).region name.1 = ledger := by
  simp [setRegion]

theorem region_setRegion_ne {r : Nat} (different : r ≠ name.1) :
    (memory.setRegion name ledger).region r = memory.region r := by
  simp [setRegion, different]

theorem setRegion_self : memory.setRegion name (memory.region name.1) =
    memory := by
  simp [setRegion]

@[simp] theorem tag_setRegion :
    (memory.setRegion name ledger).tag name = ledger.buf.tag
    (EMSdataCell name.2) := by
  simp [TxMemory.tag]

@[simp] theorem word_setRegion :
    (memory.setRegion name ledger).word name = ledger.buf.word
    (EMSdataCell name.2) := by
  simp [TxMemory.word]

@[simp] theorem tag_setTag : (memory.setTag name tag).tag name = tag := by
  simp [setTag]

theorem tag_setRegion_ne (different : other ≠ name)
    (tags : ∀ i : Nat, i ≠ name.2 →
      ledger.buf.tag (EMSdataCell i) =
        (memory.region name.1).buf.tag (EMSdataCell i)) :
    (memory.setRegion name ledger).tag other = memory.tag other := by
  obtain ⟨r, i⟩ := other
  by_cases same : r = name.1
  · subst same
    have apart : i ≠ name.2 := fun equal => different (Prod.ext rfl equal)
    simpa [TxMemory.tag] using tags i apart
  · simp [TxMemory.tag, region_setRegion_ne same]

theorem word_setRegion_ne (different : other ≠ name)
    (words : ∀ i : Nat, i ≠ name.2 →
      ledger.buf.word (EMSdataCell i) =
        (memory.region name.1).buf.word (EMSdataCell i)) :
    (memory.setRegion name ledger).word other = memory.word other := by
  obtain ⟨r, i⟩ := other
  by_cases same : r = name.1
  · subst same
    have apart : i ≠ name.2 := fun equal => different (Prod.ext rfl equal)
    simpa [TxMemory.word] using words i apart
  · simp [TxMemory.word, region_setRegion_ne same]

theorem tag_setTag_ne (different : other ≠ name) :
    (memory.setTag name tag).tag other = memory.tag other := by
  apply tag_setRegion_ne different
  intro i apart
  have elsewhere : (i : Int) ≠ name.2 :=
    fun equal => apart (Int.ofNat.inj equal)
  simp [elsewhere]

@[simp] theorem word_setTag :
    (memory.setTag name tag).word other = memory.word other := by
  by_cases same : other = name
  · subst same
    simp [setTag, TxMemory.word]
  · exact word_setRegion_ne same fun _ _ => rfl

theorem setTag_setTag (memory : TxMemory) (name : ElementName)
    (first second : Tag) :
    (memory.setTag name first).setTag name second =
      memory.setTag name second := by
  simp [setTag, setRegion, EmsBuf.setTag, Function.update_idem]

end TxMemory

/-- The regions are accounted for, with every element at its stage. -/
def TxHolds (nElem level : Nat → Nat) (kept : Nat → Multiset Block)
    (fill : ElementName → Filling) (memory : TxMemory) : Prop :=
  ∀ r, RegionHolds (nElem r) (level r) (kept r) (fun i => fill (r, i))
    (memory.region r)

section Memories

variable {nElem level : Nat → Nat} {kept : Nat → Multiset Block}
  {fill : ElementName → Filling}
  {memory : TxMemory} {name : ElementName} {value : EMSvalueType}

theorem TxHolds.setRegion (holds : TxHolds nElem level kept fill memory)
    {filling : Filling}
    {ledger : Ledger}
    (here : RegionHolds (nElem name.1) (level name.1) (kept name.1)
      (Function.update (fun i => fill (name.1, i)) name.2 filling) ledger) :
    TxHolds nElem level kept (Function.update fill name filling)
      (memory.setRegion name ledger) := by
  intro r
  by_cases same : r = name.1
  · subst same
    have fills : (fun i => Function.update fill name filling (name.1, i)) =
        Function.update (fun i => fill (name.1, i)) name.2 filling := by
      funext i
      by_cases equal : i = name.2
      · subst equal
        simp
      · have different : (name.1, i) ≠ name :=
          fun wrong => equal (congrArg Prod.snd wrong)
        simp [equal, different]
    rw [fills, TxMemory.region_setRegion]
    exact here
  · have fills : (fun i => Function.update fill name filling (r, i)) = fun i =>
        fill (r, i) := by
      funext i
      have different : (r, i) ≠ name :=
        fun wrong => same (congrArg Prod.fst wrong)
      simp [different]
    rw [fills, TxMemory.region_setRegion_ne same]
    exact holds r

theorem TxHolds.retag (holds : TxHolds nElem level kept fill memory) {tag : Tag}
    (type : tag.type = (memory.tag name).type) :
    TxHolds nElem level kept fill (memory.setTag name tag) := by
  intro r
  by_cases same : r = name.1
  · subst same
    rw [TxMemory.setTag, TxMemory.region_setRegion]
    exact (holds name.1).retag type
  · rw [TxMemory.setTag, TxMemory.region_setRegion_ne same]
    exact holds r

theorem TxHolds.shown (holds : TxHolds nElem level kept fill memory)
    (below : name.2 < nElem name.1) (settled : fill name = .settled value) :
    (memory.shown name).Is value ∧ PlainValue value := by
  obtain ⟨blocks, ⟨type, word⟩, plain, -⟩ :=
    (holds name.1).settled below settled
  exact ⟨⟨type, blocks, word⟩, plain⟩

theorem returnData_readValue {word : Int} {heap : Int → UInt8}
    {blocks : List Block}
    {text : CString} (plain : PlainValue value)
    (holds : WordHolds word heap value blocks)
    (reads : value.type.IsText → HeapHolds heap word text.bytes) :
    returnData (readValue value.type word text) = returnData value := by
  cases type : value.type with
  | invalid => exact absurd type plain.isValue.1
  | unassigned => exact absurd type plain.isValue.2
  | json => exact absurd type plain.notJson
  | undefined => simp [returnData, readValue, type]
  | boolean =>
      obtain ⟨rfl, -⟩ := (wordHolds_word (.inl type)).mp holds
      by_cases zero : value.value = 0 <;> simp [returnData,
        readValue, type, zero]
  | integer =>
      obtain ⟨rfl, -⟩ := (wordHolds_word (.inr (.inl type))).mp holds
      simp [returnData, readValue, type]
  | float =>
      obtain ⟨rfl, -⟩ := (wordHolds_word (.inr (.inr type))).mp holds
      simp [returnData, readValue, type]
  | string =>
      obtain ⟨block, -, address, -, string⟩ :=
        (wordHolds_text (.inl type)).mp holds
      have found := reads (.inl type)
      rw [address] at found
      obtain rfl := found.unique string
      simp [returnData, readValue, type]

/-- What Python gets of a settled element is the value, and it gets
something. -/
theorem TxHolds.fetches (holds : TxHolds nElem level kept fill memory)
    (small : ∀ r, EMS_MEM_BLOCKSZ * 2 ^ level r < 2 ^ 63)
    (below : name.2 < nElem name.1) (settled : fill name = .settled value) :
    (∃ text val, (value.type.IsText →
        HeapHolds (memory.region name.1).buf.heap (memory.word name)
          text.bytes) ∧
      returnData (readValue value.type (memory.word name) text) = some val) ∧
    ∀ text val, (value.type.IsText →
        HeapHolds (memory.region name.1).buf.heap (memory.word name)
          text.bytes) →
      returnData (readValue value.type (memory.word name) text) = some val →
      SameContent (newEMSval val) value ∧ PlainValue (newEMSval val) := by
  obtain ⟨blocks, ⟨type, word⟩, plain, inLive⟩ :=
    (holds name.1).settled below settled
  have word : WordHolds (memory.word name) (memory.region name.1).buf.heap value
    blocks := word
  have string : value.type.IsText →
      HeapHolds (memory.region name.1).buf.heap (memory.word name)
        value.text.bytes ∧
        value.text.bytes.length + 34 < 2 ^ 64 := by
    intro text
    obtain ⟨block, rfl, address, room, string⟩ := (wordHolds_text text).mp word
    have bounded := (holds name.1).short (small name.1) (inLive block (by simp))
    rw [address]
    exact ⟨string, by omega⟩
  obtain ⟨val, returned, same, plain'⟩ :=
    newEMSval_returnData plain fun text => (string text).2
  refine ⟨⟨value.text, val, fun text => (string text).1, ?_⟩, ?_⟩
  · rw [returnData_readValue plain word fun text => (string text).1, returned]
  · intro text' val' reads' returned'
    rw [returnData_readValue plain word reads', returned] at returned'
    obtain rfl := Option.some.inj returned'
    exact ⟨same, plain'⟩

end Memories

end EMS
