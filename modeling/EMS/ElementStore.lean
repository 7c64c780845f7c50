import EMS.Placement

/-!
# The elements of an array are a store

One process writes, swaps and reads the elements of an unmapped array.  Each
element keeps what was stored last, and the heap holds one block for each
element that is a string and none besides.
-/

namespace EMS

open SharedProgram Interleaving

/-! ## The operations -/

inductive ElementOp where
  | write (idx : Int) (value : EMSvalueType)
  | writeXF (idx : Int) (value : EMSvalueType)
  | writeXE (idx : Int) (value : EMSvalueType)
  | writeEF (idx : Int) (value : EMSvalueType)
  | cas (idx : Int) (oldValue newValue : EMSvalueType)
  | read (idx : Int)
  | readFF (idx : Int)
  | readFE (idx : Int)

inductive ElementRes where
  | written (res : Except EMSError Unit)
  | value (res : Except EMSError EMSvalueType)

namespace ElementOp

/-- `stack` is what the variable `newTag` of `EMSreadUsingTags` starts with. -/
def code [CRuntime] (array : EmsArray) (stack : Tag) (op : ElementOp)
    (patience : Nat) :
    EmsProg ElementRes :=
  match op with
  | write idx value =>
      .written <$> EMSwrite patience array (scalar .integer idx) value
  | writeXF idx value =>
      .written <$> EMSwriteXF patience array (scalar .integer idx) value
  | writeXE idx value =>
      .written <$> EMSwriteXE patience array (scalar .integer idx) value
  | writeEF idx value =>
      .written <$> EMSwriteEF patience array (scalar .integer idx) value
  | cas idx oldValue newValue =>
      .value <$> EMScas patience array (scalar .integer idx) oldValue newValue
  | read idx => .value <$> EMSread patience array stack (scalar .integer idx)
  | readFF idx =>
      .value <$> EMSreadFF patience array stack (scalar .integer idx)
  | readFE idx =>
      .value <$> EMSreadFE patience array stack (scalar .integer idx)

def idx : ElementOp → Int
  | write idx _ | writeXF idx _ | writeXE idx _ | writeEF idx _ |
    cas idx _ _ | read idx
  | readFF idx | readFE idx => idx

/-- The value that the operation may store. -/
def stores : ElementOp → Option EMSvalueType
  | write _ value | writeXF _ value | writeXE _ value | writeEF _ value |
    cas _ _ value =>
      some value
  | read _ | readFF _ | readFE _ => none

end ElementOp

/-- A value of one of the types.  A string is not longer than its length
says. -/
structure EMSvalueType.Sized (value : EMSvalueType) : Prop where
  isValue : IsValue value.type
  text : value.type.IsText →
    value.text.bytes.length ≤ value.length ∧ value.length + 32 < 2 ^ 64

/-- A value as a caller passes it.  A boolean is 0 or 1. -/
structure EMSvalueType.WellFormed (value : EMSvalueType) :
    Prop extends value.Sized where
  boolean : value.type = .boolean → value.value = 0 ∨ value.value = 1

/-- The index is in range and the value is well formed. -/
structure ElementOp.Valid (array : EmsArray) (op : ElementOp) : Prop where
  inside : 0 ≤ op.idx
  below : op.idx < array.nElem
  wellFormed : ∀ value, op.stores = some value → value.WellFormed

instance EMSvalueType.decidableWellFormed (value : EMSvalueType) :
    Decidable value.WellFormed :=
  decidable_of_iff (IsValue value.type ∧ (value.type.IsText →
      value.text.bytes.length ≤ value.length ∧ value.length + 32 < 2 ^ 64) ∧
      (value.type = .boolean → value.value = 0 ∨ value.value = 1))
    ⟨fun parts => ⟨⟨parts.1, parts.2.1⟩, parts.2.2⟩,
      fun wellFormed =>
        ⟨wellFormed.isValue, wellFormed.text, wellFormed.boolean⟩⟩

instance ElementOp.decidableValid (array : EmsArray) (op : ElementOp) :
    Decidable (op.Valid array) :=
  decidable_of_iff (0 ≤ op.idx ∧ op.idx < array.nElem ∧
      (op.stores.all fun value => decide value.WellFormed) = true)
    ⟨fun parts => ⟨parts.1, parts.2.1, fun value stores =>
        of_decide_eq_true ((Option.all_eq_true _ _).mp parts.2.2 value stores)⟩,
      fun valid =>
          ⟨valid.inside, valid.below,
            (Option.all_eq_true _ _).mpr fun value stores =>
        decide_eq_true (valid.wellFormed value stores)⟩⟩

/-! ## The specification -/

/-- The values have the same type and content. -/
def SameContent (first second : EMSvalueType) : Prop :=
  first.type = second.type ∧ (first.type.IsText → first.text = second.text) ∧
    (first.type.IsWord → first.value = second.value)

instance (first second : EMSvalueType) : Decidable (SameContent first second) :=
  inferInstanceAs (Decidable (_ ∧ _ ∧ _))

/-- The values that were stored last. -/
abbrev Store := Int → EMSvalueType

def ElementOp.effect (store : Store) : ElementOp → Store
  | .write idx value | .writeXF idx value | .writeXE idx value |
    .writeEF idx value =>
      Function.update store idx value
  | .cas idx oldValue newValue =>
      if SameContent (store idx) oldValue then
        Function.update store idx newValue else store
  | .read _ | .readFF _ | .readFE _ => store

/-- What a read returns for a value.  A string is returned by the address at
which it stands. -/
def Reads (heap : Int → UInt8) (res value : EMSvalueType) : Prop :=
  res.type = value.type ∧
    (value.type.IsText →
      res.length = value.text.bytes.length ∧
        HeapHolds heap res.value value.text.bytes) ∧
    (value.type.IsWord → res.value = value.value)

def ElementOp.Answers (store : Store) (op : ElementOp) (res : ElementRes)
    (heap : Int → UInt8) : Prop :=
  match op, res with
  | .write _ _, .written res | .writeXF _ _, .written res | .writeXE _ _,
        .written res
  | .writeEF _ _, .written res => res = .ok ()
  | .cas idx _ _, .value res => ∃ value, res = .ok value ∧
        SameContent value (store idx)
  | .read idx, .value res | .readFF idx, .value res | .readFE idx, .value res =>
      ∃ value, res = .ok value ∧ Reads heap value (store idx)
  | _, _ => False

/-- What was stored last after a sequence of calls. -/
def storeAfter (calls : List (ElementOp × ElementRes)) : Store :=
  calls.foldl (fun store call => call.1.effect store) fun _ =>
    scalar .undefined 0

/-! ## Elements in memory -/

/-- The element is of the type of the value, and holds it in the blocks. -/
def ElementHolds (buf : EmsBuf) (idx : Int) (value : EMSvalueType)
    (blocks : List Block) : Prop :=
  (buf.tag (EMSdataCell idx)).type = value.type ∧
    WordHolds (buf.word (EMSdataCell idx)) buf.heap value blocks

/-- The elements hold the values, and the live blocks are exactly theirs and
those that are kept besides. -/
structure StoreHolds (array : EmsArray) (level : Nat) (kept : Multiset Block)
    (store : Store)
    (ledger : Ledger) : Prop where
  ordered : ledger.Ordered level
  sound : ledger.misfreed = false
  elements : ∃ blocks : Nat → List Block,
    (∀ i : Nat, (i : Int) < array.nElem →
      ElementHolds ledger.buf i (store i) (blocks i)) ∧
    (ledger.live : Multiset Block) =
      kept + ∑ i ∈ Finset.range array.nElem.toNat, (blocks i : Multiset Block)

section Holding

variable {array : EmsArray} {level : Nat} {kept : Multiset Block}
  {store : Store}
  {ledger after : Ledger} {idx : Nat}

/-- The elements other than one hold the values in the blocks, and no other
blocks are live. -/
structure HoldsBeside (array : EmsArray) (level : Nat) (kept : Multiset Block)
    (store : Store) (idx : Nat)
    (blocks : Nat → List Block) (ledger : Ledger) : Prop where
  ordered : ledger.Ordered level
  sound : ledger.misfreed = false
  elements : ∀ i : Nat, (i : Int) < array.nElem → i ≠ idx →
    ElementHolds ledger.buf i (store i) (blocks i)
  live : (ledger.live : Multiset Block) =
    kept + ∑ i ∈ (Finset.range array.nElem.toNat).erase idx,
      (blocks i : Multiset Block)

theorem blocks_split (below : (idx : Int) < array.nElem)
    (blocks : Nat → List Block) :
    ∑ i ∈ Finset.range array.nElem.toNat, (blocks i : Multiset Block) =
      blocks idx + ∑ i ∈ (Finset.range array.nElem.toNat).erase idx,
        (blocks i : Multiset Block) := by
  have inRange : idx ∈ Finset.range array.nElem.toNat := by
    rw [Finset.mem_range]
    omega
  exact (Finset.add_sum_erase _ (fun i => (blocks i : Multiset Block))
    inRange).symm

theorem blocks_update (below : (idx : Int) < array.nElem)
    (blocks : Nat → List Block)
    (placed : List Block) :
    ∑ i ∈ Finset.range array.nElem.toNat,
        (Function.update blocks idx placed i : Multiset Block) =
      placed + ∑ i ∈ (Finset.range array.nElem.toNat).erase idx,
        (blocks i : Multiset Block) := by
  rw [blocks_split below, Function.update_self]
  congr 1
  apply Finset.sum_congr rfl
  intro i member
  rw [Function.update_of_ne (Finset.ne_of_mem_erase member)]

theorem mem_blocks {indexes : Finset Nat} {blocks : Nat → List Block}
    {block : Block}
    (inside : idx ∈ indexes) (member : block ∈ blocks idx)
    (live : (ledger.live : Multiset Block) =
      kept + ∑ i ∈ indexes, (blocks i : Multiset Block)) :
        block ∈ ledger.live := by
  have inLive : block ∈ (ledger.live : Multiset Block) := by
    rw [live]
    exact Multiset.mem_add.mpr
      (.inr (Multiset.mem_sum.mpr ⟨idx, inside, member⟩))
  exact inLive

/-- Neither the types nor the words of the elements change, nor does the
heap. -/
theorem StoreHolds.congr (holds : StoreHolds array level kept store ledger)
    {buf : EmsBuf}
    (type : ∀ i : Nat, (i : Int) < array.nElem →
      (buf.tag (EMSdataCell i)).type = (ledger.buf.tag (EMSdataCell i)).type)
    (word : ∀ i : Nat, (i : Int) < array.nElem →
      buf.word (EMSdataCell i) = ledger.buf.word (EMSdataCell i))
    (mutex : buf.memMutex = ledger.buf.memMutex)
    (mem : buf.mem = ledger.buf.mem)
    (heap : buf.heap = ledger.buf.heap) :
    StoreHolds array level kept store { ledger with buf := buf } := by
  obtain ⟨ordered, sound, blocks, elements, live⟩ := holds
  refine ⟨ordered.congr mutex mem rfl, sound, blocks, ?_, live⟩
  intro i below
  obtain ⟨sameType, holdsHere⟩ := elements i below
  exact ⟨(type i below).trans sameType, by
    simpa [word i below, heap] using holdsHere⟩

theorem StoreHolds.setWord (holds : StoreHolds array level kept store ledger)
    {cell : Cell}
    (control : ∀ i : Nat, (i : Int) < array.nElem → EMSdataCell i ≠ cell)
    (word : Int) :
    StoreHolds array level kept store
      { ledger with buf := ledger.buf.setWord cell word } := by
  have words : ∀ i : Nat, (i : Int) < array.nElem →
      (ledger.buf.setWord cell word).word (EMSdataCell i) =
          ledger.buf.word (EMSdataCell i) := by
    intro i below
    simp [control i below]
  exact holds.congr (fun _ _ => rfl) words rfl rfl rfl

theorem StoreHolds.setTag (holds : StoreHolds array level kept store ledger)
    {cell : Cell}
    (control : ∀ i : Nat, (i : Int) < array.nElem → EMSdataCell i ≠ cell)
    (tag : Tag) :
    StoreHolds array level kept store
      { ledger with buf := ledger.buf.setTag cell tag } := by
  have types : ∀ i : Nat, (i : Int) < array.nElem →
      ((ledger.buf.setTag cell tag).tag (EMSdataCell i)).type =
        (ledger.buf.tag (EMSdataCell i)).type := by
    intro i below
    simp [control i below]
  exact holds.congr types (fun _ _ => rfl) rfl rfl rfl

/-- Only the tag of an element changes, and not its type. -/
theorem StoreHolds.retag
    (holds : StoreHolds array level kept store ledger) {tag : Tag}
    (type : tag.type = (ledger.buf.tag (EMSdataCell idx)).type) :
    StoreHolds array level kept store
      { ledger with buf := ledger.buf.setTag (EMSdataCell idx) tag } := by
  have types : ∀ i : Nat, (i : Int) < array.nElem →
      ((ledger.buf.setTag (EMSdataCell idx) tag).tag (EMSdataCell i)).type =
        (ledger.buf.tag (EMSdataCell i)).type := by
    intro i _
    by_cases same : (i : Int) = idx
    · simp [same, type]
    · simp [same]
  exact holds.congr types (fun _ _ => rfl) rfl rfl rfl

/-- A new value has been placed in the element, and its type is stored. -/
theorem HoldsBeside.place {blocks : Nat → List Block}
    (beside : HoldsBeside array level kept store idx blocks ledger)
    (below : (idx : Int) < array.nElem)
    {value : EMSvalueType} {placed : List Block}
    (places : Placed level (EMSdataCell idx) value placed ledger after)
    {tag : Tag}
    (type : tag.type = value.type) :
    StoreHolds array level kept (Function.update store idx value)
      { after with buf := after.buf.setTag (EMSdataCell idx) tag } := by
  refine ⟨places.ordered.congr rfl rfl rfl, places.misfreed.trans beside.sound,
    Function.update blocks idx placed, ?_, ?_⟩
  · intro i inside
    by_cases same : i = idx
    · subst same
      exact ⟨by simpa using type, by simpa using places.holds⟩
    · have other : (i : Int) ≠ idx := fun equal => same (by omega)
      obtain ⟨sameType, word⟩ := beside.elements i inside same
      refine ⟨?_, ?_⟩
      · simpa [other, places.tag] using sameType
      · have kept : WordHolds (ledger.buf.word (EMSdataCell i))
            after.buf.heap (store i)
            (blocks i) := by
          apply word.same
          intro block member
          apply places.heap
          have inRange : i ∈ Finset.range array.nElem.toNat :=
            Finset.mem_range.mpr (by omega)
          exact mem_blocks (Finset.mem_erase.mpr ⟨same, inRange⟩)
            member beside.live
        simpa [other, same,
          places.word _ (fun equal => other (EMSdataCell_inj.mp equal))]
            using kept
  · change (after.live : Multiset Block) = _
    rw [places.live, ← Multiset.coe_add, beside.live, blocks_update below,
      add_left_comm]

theorem StoreHolds.element (holds : StoreHolds array level kept store ledger)
    (below : (idx : Int) < array.nElem) :
    ∃ blocks, ElementHolds ledger.buf idx (store idx) blocks ∧
      ∀ block ∈ blocks, block ∈ ledger.live := by
  obtain ⟨-, -, blocks, elements, live⟩ := holds
  refine ⟨blocks idx, elements idx below, ?_⟩
  intro block member
  exact mem_blocks (Finset.mem_range.mpr (by omega)) member live

/-- What the operations do first with an element that they overwrite: they give
back the block of a string. -/
theorem free_ends {β : Type} {post : β → Ledger → Prop}
    {rest : Unit → EmsProg β}
    {patience : Nat} {type : EMSType}
    (small : EMS_MEM_BLOCKSZ * 2 ^ level < 2 ^ 63)
    (holds : StoreHolds array level kept store ledger)
    (below : (idx : Int) < array.nElem)
    (same : type = (store idx).type)
    (ends : ∀ blocks ledger',
      HoldsBeside array level kept store idx blocks ledger' →
      ledger'.buf.tag = ledger.buf.tag → ledger'.buf.word = ledger.buf.word →
      ledger'.buf.heap = ledger.buf.heap →
        ledgerSolo.Ends post (rest ()) ledger') :
    ledgerSolo.Ends post
      (if type = .string ∨ type = .json then do
        let old ← load (EMSdataCell idx)
        let freed ← emsMutexMem_free patience old
        rest freed
      else rest ()) ledger := by
  obtain ⟨ordered, sound, blocks, elements, live⟩ := holds
  have split : (ledger.live : Multiset Block) = (blocks idx : Multiset Block) +
      (kept + ∑ i ∈ (Finset.range array.nElem.toNat).erase idx,
          (blocks i : Multiset Block)) := by
    rw [live, blocks_split below, add_left_comm]
  have holdsHere := (elements idx below).2
  split
  case isTrue text =>
    rw [same] at text
    obtain ⟨block, own, address, -, -⟩ := (wordHolds_text text).mp holdsHere
    have member : block ∈ ledger.live := by
      have inLive : block ∈ (ledger.live : Multiset Block) := by
        rw [split, own]
        simp
      exact inLive
    apply load_ends
    rw [address]
    apply Solo.Ends.bind
    apply (emsMutexMem_free_alone small ordered member).mono
    rintro _ _ ⟨mem, rfl, ordered'⟩
    refine ends blocks _ ⟨ordered', sound, fun i inside _ => elements i inside,
      ?_⟩ rfl rfl rfl
    change ((ledger.live.erase block : List Block) : Multiset Block) = _
    rw [← Multiset.coe_erase, split, own]
    simp
  case isFalse noText =>
    rw [same] at noText
    refine ends blocks _ ⟨ordered, sound, fun i inside _ => elements i inside,
      ?_⟩ rfl rfl rfl
    rw [split, holdsHere.no_blocks noText]
    simp

/-! ## Releasing the map -/

/-- The memory after `releaseMap`. -/
def releasedMap (array : EmsArray) (idx : Int) (buf : EmsBuf) : EmsBuf :=
  if array.isMapped then
    buf.setTag (EMSmapCell array.nElem idx)
      { buf.tag (EMSmapCell array.nElem idx) with fe := .full }
  else buf

theorem releaseMap_yields {spins : Prop} {buf : EmsBuf} {i : Int} :
    (quietSolo spins).Yields (releaseMap array i) buf ()
    (releasedMap array i buf) := by
  unfold releaseMap releasedMap
  split
  · exact storeFE_yields trivial fun _ => trivial
  · exact ⟨rfl, rfl⟩

private theorem releasedMap_same (buf : EmsBuf) (i : Int) :
    releasedMap array i buf =
      { buf with tag := (releasedMap array i buf).tag } := by
  unfold releasedMap
  split <;> rfl

/-- The slots of the map are not among the elements. -/
theorem data_ne_map {i : Int} (inside : 0 ≤ i) (j : Nat)
    (below : (j : Int) < array.nElem) :
    EMSdataCell j ≠ EMSmapCell array.nElem i := by
  intro same
  have equal : (j : Int) + EMS_ARR_CB_SIZE =
    i + EMS_ARR_CB_SIZE + array.nElem := same
  omega

theorem releasedMap_data (below : (idx : Int) < array.nElem) (buf : EmsBuf) :
    (releasedMap array idx buf).tag (EMSdataCell idx) = buf.tag
    (EMSdataCell idx) := by
  unfold releasedMap
  split
  · simp [data_ne_map (Int.natCast_nonneg idx) idx below]
  · rfl

theorem StoreHolds.release (holds : StoreHolds array level kept store ledger) :
    StoreHolds array level kept store
      { ledger with buf := releasedMap array idx ledger.buf } := by
  unfold releasedMap
  split
  · exact holds.setTag (data_ne_map (Int.natCast_nonneg idx)) _
  · exact holds

/-- What an operation on an element leaves alone: the words and tags of other
entries, where the map tag of the element is released, and the blocks of
others. -/
structure Frame (array : EmsArray) (kept : Multiset Block) (idx : Nat)
    (before after : Ledger) :
    Prop where
  word : ∀ cell, cell ≠ EMSdataCell idx → after.buf.word cell =
    before.buf.word cell
  tag : ∀ cell, cell ≠ EMSdataCell idx →
    after.buf.tag cell = (releasedMap array idx before.buf).tag cell
  heap : ∀ block ∈ kept, block.Same before.buf.heap after.buf.heap

theorem releasedMap_tag_congr {buf buf' : EmsBuf} {cell : Cell} {i : Int}
    (same : ∀ cell, cell ≠ EMSdataCell idx → buf'.tag cell = buf.tag cell)
    (below : (idx : Int) < array.nElem) (inside : 0 ≤ i)
    (other : cell ≠ EMSdataCell idx) :
    (releasedMap array i buf').tag cell =
    (releasedMap array i buf).tag cell := by
  have map : EMSmapCell array.nElem i ≠ EMSdataCell idx :=
    (data_ne_map inside idx below).symm
  unfold releasedMap
  split
  · by_cases here : cell = EMSmapCell array.nElem i
    · subst here
      simp [same _ map]
    · simp [here, same _ other]
  · exact same cell other

theorem Frame.of_retag {tag : Tag} {after : Ledger}
    (below : (idx : Int) < array.nElem)
    (frame : Frame array kept idx
      { ledger with buf := ledger.buf.setTag (EMSdataCell idx) tag } after) :
    Frame array kept idx ledger after := by
  refine ⟨frame.word, ?_, frame.heap⟩
  intro cell other
  rw [frame.tag cell other]
  apply releasedMap_tag_congr _ below (Int.natCast_nonneg idx) other
  intro cell different
  simp [different]

/-! ## Writing -/

/-- The value has been written, and the others are as they were. -/
structure Wrote (array : EmsArray) (level : Nat) (kept : Multiset Block)
    (store : Store)
    (idx : Nat) (value : EMSvalueType) (finalFE : Option FE) (before : Ledger)
    (res : Except EMSError Unit) (after : Ledger) : Prop where
  ok : res = .ok ()
  holds : StoreHolds array level kept (Function.update store idx value) after
  frame : Frame array kept idx before after
  final : ∀ fe, finalFE = some fe → (after.buf.tag (EMSdataCell idx)).fe = fe

theorem EMSvalueType.Sized.placeable {value : EMSvalueType}
    (sized : value.Sized) :
    value.Placeable (value.length + 1) := by
  refine ⟨sized.isValue, fun text => ?_⟩
  obtain ⟨room, addressable⟩ := sized.text text
  constructor
  · constructor <;> omega
  · omega

variable {patience : Nat} {value : EMSvalueType}

/-- The end of a write: the tag is stored, and the map is released. -/
theorem finishWrite_alone {blocks : Nat → List Block} {placed : List Block}
    {between : Ledger}
    (beside : HoldsBeside array level kept store idx blocks between)
    (below : (idx : Int) < array.nElem)
    (sameTag : between.buf.tag = ledger.buf.tag)
    (sameWord : between.buf.word = ledger.buf.word)
    (sameHeap : between.buf.heap = ledger.buf.heap)
    (places : Placed level (EMSdataCell idx) value placed between after)
    {tag : Tag}
    (type : tag.type = value.type) {finalFE : Option FE}
    (final : ∀ fe, finalFE = some fe → tag.fe = fe) :
    ledgerSolo.Ends (Wrote array level kept store idx value finalFE ledger)
      (storeTag (EMSdataCell idx) tag >>= fun _ =>
        releaseMap array idx >>= fun _ =>
        pure (.ok ())) after := by
  apply storeTag_ends
  apply Yields.account releaseMap_yields
  refine ⟨rfl, (beside.place below places type).release, ⟨?_, ?_, ?_⟩, ?_⟩
  · intro cell other
    have kept : (releasedMap array idx
        (after.buf.setTag (EMSdataCell idx) tag)).word =
        after.buf.word := by
      unfold releasedMap
      split <;> rfl
    rw [kept, places.word cell other, sameWord]
  · intro cell other
    apply releasedMap_tag_congr _ below (Int.natCast_nonneg idx) other
    intro cell different
    simp [different, places.tag, sameTag]
  · intro block member
    have kept : (releasedMap array idx
        (after.buf.setTag (EMSdataCell idx) tag)).heap =
        after.buf.heap := by
      unfold releasedMap
      split <;> rfl
    have inLive : block ∈ (between.live : Multiset Block) := by
      rw [beside.live]
      exact Multiset.mem_add.mpr (.inl member)
    rw [kept, ← sameHeap]
    exact places.heap block inLive
  · intro fe isFinal
    rw [releasedMap_data below]
    simpa using final fe isFinal

theorem writeElement_alone (small : EMS_MEM_BLOCKSZ * 2 ^ level < 2 ^ 63)
    (sized : value.Sized)
    (holds : StoreHolds array level kept store ledger)
    (below : (idx : Int) < array.nElem)
    {finalFE : Option FE} {oldTag newTag : Tag}
    (type : oldTag.type = (store idx).type)
    (current : finalFE ≠ none → ledger.buf.tag (EMSdataCell idx) = newTag) :
    ledgerSolo.Ends (Wrote array level kept store idx value finalFE ledger)
      (writeElement patience array idx value finalFE oldTag newTag) ledger := by
  simp only [writeElement]
  apply free_ends small holds below type
  intro blocks between beside sameTag sameWord sameHeap
  apply Solo.Ends.bind
  apply (storeValue_places beside.ordered sized.placeable).mono
  rintro _ placed ⟨rfl, _, places⟩
  cases finalFE with
  | none =>
      apply finishWrite_alone beside below sameTag sameWord sameHeap places rfl
      intro fe isFinal
      cases isFinal
  | some fe =>
      apply loadTag_ends
      have still : placed.buf.tag (EMSdataCell idx) = newTag := by
        rw [places.tag, sameTag]
        exact current (by simp)
      rw [still, if_neg (not_not_intro rfl)]
      apply finishWrite_alone beside below sameTag sameWord sameHeap places rfl
      intro fe' isFinal
      exact Option.some.inj isFinal

theorem StoreHolds.type (holds : StoreHolds array level kept store ledger)
    (below : (idx : Int) < array.nElem) :
    (ledger.buf.tag (EMSdataCell idx)).type = (store idx).type := by
  obtain ⟨blocks, element, -⟩ := holds.element below
  exact element.1

theorem Wrote.of_retag {tag : Tag} {finalFE : Option FE}
    {res : Except EMSError Unit}
    (below : (idx : Int) < array.nElem)
    (wrote : Wrote array level kept store idx value finalFE
      { ledger with buf := ledger.buf.setTag (EMSdataCell idx) tag }
        res after) :
    Wrote array level kept store idx value finalFE ledger res after :=
  ⟨wrote.ok, wrote.holds, wrote.frame.of_retag below, wrote.final⟩

/-- With a state to wait for, the element has been acquired before the loop. -/
theorem writeLoop_alone (small : EMS_MEM_BLOCKSZ * 2 ^ level < 2 ^ 63)
    (sized : value.Sized)
    (holds : StoreHolds array level kept store ledger)
    (below : (idx : Int) < array.nElem)
    {initialFE finalFE : Option FE} {tries : Nat}
    (acquired : initialFE ≠ none →
      (ledger.buf.tag (EMSdataCell idx)).fe = .busy) :
    ledgerSolo.Ends (Wrote array level kept store idx value finalFE ledger)
      (writeLoop patience array value initialFE finalFE tries idx) ledger := by
  have type := holds.type below
  induction tries with
  | zero => trivial
  | succ tries induction =>
      simp only [writeLoop, Int.tmod_eq_of_lt (Int.natCast_nonneg idx) below]
      apply loadTag_ends
      split
      case isTrue direct =>
        apply writeElement_alone small sized holds below type
        intro final
        have waited : initialFE ≠ none := direct.resolve_right final
        rw [if_neg final, ← acquired waited]
      case isFalse =>
        split
        case isTrue =>
          apply casTag_ends
          rw [if_pos rfl]
          refine (writeElement_alone small sized (holds.retag ?_) below
            type ?_).mono ?_
          · split <;> rfl
          · intro final
            simp [final]
          · intro _ _ wrote
            exact wrote.of_retag below
        case isFalse => exact induction

theorem EMSwriteUsingTags_alone [CRuntime]
    (small : EMS_MEM_BLOCKSZ * 2 ^ level < 2 ^ 63)
    (unmapped : array.isMapped = false) (sized : value.Sized)
    (holds : StoreHolds array level kept store ledger)
    (below : (idx : Int) < array.nElem)
    {initialFE finalFE : Option FE} :
    ledgerSolo.Ends (Wrote array level kept store idx value finalFE ledger)
      (EMSwriteUsingTags patience array
        (scalar .integer idx) value initialFE finalFE) ledger := by
  have inside : ¬ (idx : Int) < 0 := by omega
  simp only [EMSwriteUsingTags,
    EMSwriteIndexMap_unmapped patience array unmapped
    (Int.natCast_nonneg idx) below, Prog.ret_bind, if_neg inside,
    mapTagOf, unmapped,
    Bool.false_eq_true, if_false]
  cases initialFE with
  | none =>
      apply writeLoop_alone small sized holds below
      intro waits
      exact absurd rfl waits
  | some fe =>
      apply Solo.Ends.bind
      apply Ends.account
      apply EMStransitionFEtag_alone.mono
      rintro _ _ ⟨-, -, rfl⟩
      refine (writeLoop_alone small sized (holds.retag ?_) below ?_).mono ?_
      · rfl
      · intro _
        simp
      · intro _ _ wrote
        exact wrote.of_retag below

/-! ## Reading -/

/-- The memory after a read of an element that was acquired with the tag. -/
def finishedRead (array : EmsArray) (idx : Int) (finalFE : Option FE)
    (newTag : Tag)
    (buf : EmsBuf) : EmsBuf :=
  releasedMap array idx
    (match finalFE with
    | some fe => buf.setTag (EMSdataCell idx) { newTag with fe := fe }
    | none => buf)

/-- The value has been read. -/
def ReadOk (array : EmsArray) (idx : Int) (finalFE : Option FE) (newTag : Tag)
    (buf : EmsBuf)
    (value : EMSvalueType) (res : Except EMSError EMSvalueType)
    (after : EmsBuf) : Prop :=
  after = finishedRead array idx finalFE newTag buf ∧
    ∃ current, res = .ok current ∧ Reads buf.heap current value

section Reading

variable {spins : Prop} {buf : EmsBuf} {i : Int} {finalFE : Option FE}
  {newTag : Tag}
  {blocks : List Block}

theorem finishedRead_same :
    finishedRead array i finalFE newTag buf =
      { buf with tag := (finishedRead array i finalFE newTag buf).tag } := by
  unfold finishedRead
  rw [releasedMap_same]
  cases finalFE <;> rfl

theorem finishRead_yields :
    (quietSolo spins).Yields (finishRead array i finalFE newTag) buf ()
      (finishedRead array i finalFE newTag buf) := by
  cases finalFE with
  | none => exact releaseMap_yields
  | some fe =>
      apply Solo.Ends.perform
      exact fun _ => ⟨trivial, releaseMap_yields⟩

theorem readElement_ends
    (word : WordHolds (buf.word (EMSdataCell i)) buf.heap value blocks)
    (type : newTag.type = value.type)
    (boolean : value.type = .boolean → value.value = 0 ∨ value.value = 1)
    (patient : patience ≤ value.text.bytes.length → spins) :
    (quietSolo spins).Ends (ReadOk array i finalFE newTag buf value)
      (readElement patience array i finalFE newTag) buf := by
  have isValue : IsValue value.type := word.isValue
  have text : newTag.type.IsText →
      (quietSolo spins).Ends (ReadOk array i finalFE newTag buf value)
      (load (EMSdataCell i) >>= fun textOffset =>
        heapStrlen patience textOffset >>= fun length =>
        finishRead array i finalFE newTag >>= fun _ =>
        pure (.ok ⟨newTag.type, textOffset, .empty, length⟩)) buf := by
    intro isText
    rw [type] at isText
    obtain ⟨block, -, address, -, string⟩ := (wordHolds_text isText).mp word
    apply Solo.Ends.perform
    refine fun _ => ⟨trivial, ?_⟩
    simp only [Access.perform]
    rw [address]
    apply (heapStrlen_yields string (fun _ _ _ => trivial) patient).bind
    apply finishRead_yields.bind
    exact ⟨rfl, _, rfl, type, fun _ => ⟨rfl, string⟩,
      fun isWord => absurd isWord isText.not_word⟩
  have scalar : ∀ kind, newTag.type = kind → kind.IsWord → ∀ result : Int → Int,
      (∀ word, value.type = kind → word = value.value →
        result word = value.value) →
      (quietSolo spins).Ends (ReadOk array i finalFE newTag buf value)
        (load (EMSdataCell i) >>= fun word =>
          finishRead array i finalFE newTag >>= fun _ =>
          pure (.ok (scalar kind (result word)))) buf := by
    intro kind isKind isWord result same
    have here : value.type = kind := type.symm.trans isKind
    apply Solo.Ends.perform
    refine fun _ => ⟨trivial, ?_⟩
    apply finishRead_yields.bind
    refine ⟨rfl, _, rfl, here.symm, fun isText => ?_, fun _ => ?_⟩
    · rw [here] at isText
      exact absurd isWord isText.not_word
    · exact same _ here ((wordHolds_word (here ▸ isWord)).mp word).1
  unfold readElement
  split
  case h_1 kind =>
    refine scalar .boolean kind (.inl rfl)
      (fun word => if word ≠ 0 then 1 else 0) ?_
    rintro _ here rfl
    rcases boolean here with zero | one
    · simp [zero]
    · simp [one]
  case h_2 kind =>
    exact scalar .integer kind (.inr (.inl rfl)) id fun _ _ same => same
  case h_3 kind =>
    exact scalar .float kind (.inr (.inr rfl)) id fun _ _ same => same
  case h_4 kind => exact text (.inr kind)
  case h_5 kind => exact text (.inl kind)
  case h_6 kind =>
    apply finishRead_yields.bind
    rw [kind] at type
    refine ⟨rfl, _, rfl, type, fun isText => ?_, fun isWord => ?_⟩
    · rw [← type] at isText
      exact absurd isText (by decide)
    · rw [← type] at isWord
      exact absurd isWord (by decide)
  case h_7 =>
    rw [← type] at isValue
    cases kind : newTag.type <;> simp_all [IsValue]

/-- The memory in which an element is read. -/
def acquiredRead (idx : Int) (initialFE : Option FE) (buf : EmsBuf) : EmsBuf :=
  match initialFE with
  | none => buf
  | some _ =>
      buf.setTag (EMSdataCell idx)
        { buf.tag (EMSdataCell idx) with fe := .busy }

/-- A loop that does not try for a readers-writer lock, on an element whose tag
it finds as it awaits it or waits for ever. -/
theorem readLoop_ends
    (word : WordHolds (buf.word (EMSdataCell i)) buf.heap value blocks)
    (type : (buf.tag (EMSdataCell i)).type = value.type)
    (boolean : value.type = .boolean → value.value = 0 ∨ value.value = 1)
    {initialFE : Option FE}
    (noLock : initialFE ≠ some .rwLock)
    {tries : Nat} (found : array.isMapped ∨ ¬ spins → ∀ fe,
      initialFE = some fe →
      (buf.tag (EMSdataCell i)).fe = fe)
    (patient : patience ≤ value.text.bytes.length ∨ tries = 0 → spins) :
    (quietSolo spins).Ends
      (ReadOk array i finalFE { buf.tag (EMSdataCell i) with fe := .busy }
        (acquiredRead i initialFE buf) value)
      (readLoop patience array i initialFE finalFE tries newTag) buf := by
  induction tries generalizing newTag with
  | zero => exact patient (.inr rfl)
  | succ tries induction =>
      have shortPatience : patience ≤ value.text.bytes.length → spins :=
        fun short => patient (.inl short)
      simp only [readLoop, if_neg noLock]
      apply Solo.Ends.perform
      refine fun _ => ⟨trivial, ?_⟩
      simp only [Access.perform]
      cases initialFE with
      | none =>
          simp only [mayRead, if_true]
          exact readElement_ends word type boolean shortPatience
      | some fe =>
          have noLock' : fe ≠ .rwLock := fun same => noLock (congrArg some same)
          have awaits : ∀ tag,
              mayRead (some fe) tag newTag = decide (tag.fe = fe) := by
            intro tag
            cases fe with
            | rwLock => exact absurd rfl noLock'
            | _ => rfl
          simp only [awaits]
          by_cases here : (buf.tag (EMSdataCell i)).fe = fe
          · have old : (⟨fe, (buf.tag (EMSdataCell i)).type,
                (buf.tag (EMSdataCell i)).rw⟩ : Tag) =
                buf.tag (EMSdataCell i) := by
              rw [← here]
            simp only [here, decide_true, if_true, if_neg noLock', old]
            apply Solo.Ends.perform
            refine fun _ => ⟨trivial, ?_⟩
            simp only [Access.perform, if_true]
            exact readElement_ends word type boolean shortPatience
          · have unmapped : array.isMapped = false := by
              cases mapped : array.isMapped with
              | false => rfl
              | true => exact absurd (found (.inl mapped) fe rfl) here
            simp only [here, decide_false, Bool.false_eq_true,
              if_false, unmapped]
            apply induction
            intro _
            by_contra never
            exact here (found (.inr never) fe rfl)

end Reading

/-- A boolean is 0 or 1, as it was when it was stored. -/
structure StoreValid (store : Store) : Prop where
  boolean : ∀ i, (store i).type = .boolean → (store i).value = 0 ∨
    (store i).value = 1

/-- The tag of an element is changed by a read, and not its type. -/
theorem StoreHolds.read (holds : StoreHolds array level kept store ledger)
    {initialFE finalFE : Option FE} :
    StoreHolds array level kept store { ledger with
      buf :=
        finishedRead array idx finalFE
          { ledger.buf.tag (EMSdataCell idx) with fe := .busy }
        (acquiredRead idx initialFE ledger.buf) } := by
  have acquired : StoreHolds array level kept store
      { ledger with buf := acquiredRead idx initialFE ledger.buf } := by
    cases initialFE with
    | none => exact holds
    | some fe => exact holds.retag rfl
  cases finalFE with
  | none => exact acquired.release
  | some fe =>
      have final : StoreHolds array level kept store { ledger with
          buf :=
            (acquiredRead idx initialFE ledger.buf).setTag (EMSdataCell idx)
            { ledger.buf.tag (EMSdataCell idx) with fe := fe } } := by
        apply acquired.retag
        cases initialFE <;> simp [acquiredRead]
      exact final.release

theorem EMSreadUsingTags_alone [CRuntime] (unmapped : array.isMapped = false)
    (holds : StoreHolds array level kept store ledger)
    (valid : StoreValid store)
    (below : (idx : Int) < array.nElem) {initialFE finalFE : Option FE}
    (noLock : initialFE ≠ some .rwLock) {stack : Tag} :
    ledgerSolo.Ends (fun res after => (∃ value, res = .ok value ∧
        Reads after.buf.heap value (store idx)) ∧
          StoreHolds array level kept store after)
      (EMSreadUsingTags patience array stack
        (scalar .integer idx) initialFE finalFE) ledger := by
  have inside : ¬ ((idx : Int) < 0 ∨ array.nElem ≤ idx) := by omega
  obtain ⟨blocks, ⟨type, word⟩, -⟩ := holds.element below
  simp only [EMSreadUsingTags, unmapped, EMSkey2index_unmapped patience array
    (Int.natCast_nonneg idx) below, Prog.ret_bind, Bool.false_eq_true,
    false_and, if_false,
    if_neg inside]
  apply Ends.account
  apply (readLoop_ends word type (valid.boolean idx) noLock ?_ fun _ =>
    trivial).mono
  · rintro res _ ⟨rfl, value, rfl, reads⟩
    refine ⟨⟨value, rfl, ?_⟩, holds.read⟩
    rw [finishedRead_same]
    cases initialFE <;> exact reads
  · simp [unmapped]

/-! ## Compare and swap -/

/-- The swap has been decided by the value that was stored last. -/
def CasOk (array : EmsArray) (level : Nat) (kept : Multiset Block)
    (store : Store) (idx : Nat)
    (oldValue newValue : EMSvalueType) (res : Except EMSError EMSvalueType)
    (after : Ledger) :
    Prop :=
  (∃ value, res = .ok value ∧ SameContent value (store idx)) ∧
    StoreHolds array level kept
      (if SameContent (store idx) oldValue then
        Function.update store idx newValue else store) after

/-- The value in memory has been read, and nothing has changed. -/
def CasReadOk (ledger : Ledger) (value : EMSvalueType)
    (res : Except EMSError EMSvalueType)
    (after : Ledger) : Prop :=
  after = ledger ∧ ∃ current, res = .ok current ∧ SameContent current value

theorem casRead_alone [CRuntime] (serves : MallocServes)
    (holds : StoreHolds array level kept store ledger)
    (below : (idx : Int) < array.nElem) :
    ledgerSolo.Ends (CasReadOk ledger (store idx))
      (casRead patience idx (store idx).type)
      ledger := by
  obtain ⟨blocks, ⟨-, word⟩, -⟩ := holds.element below
  have isValue : IsValue (store idx).type := word.isValue
  have wordCase : (store idx).type.IsWord →
      ledgerSolo.Ends (CasReadOk ledger (store idx))
      (load (EMSdataCell idx) >>= fun word =>
        pure (.ok (scalar (store idx).type word)))
      ledger := by
    intro isWord
    apply load_ends
    exact ⟨rfl, _, rfl, rfl, fun isText => absurd isWord isText.not_word,
      fun _ => ((wordHolds_word isWord).mp word).1⟩
  have textCase : (store idx).type.IsText →
      ledgerSolo.Ends (CasReadOk ledger (store idx))
      (load (EMSdataCell idx) >>= fun textOffset =>
        heapStrlen patience textOffset >>= fun memStrLen =>
        if CRuntime.mallocs (memStrLen + 1) then
          copyFromHeap patience textOffset >>= fun text =>
          pure (.ok ⟨(store idx).type, 0, text, memStrLen⟩)
        else pure (.error .unableToMalloc)) ledger := by
    intro isText
    obtain ⟨block, -, address, -, string⟩ := (wordHolds_text isText).mp word
    apply load_ends
    rw [address]
    apply Yields.account
      (heapStrlen_yields string (fun _ _ _ => trivial) fun _ => trivial)
    rw [if_pos (serves _)]
    apply Yields.account
      (copyFromHeap_yields string (fun _ _ _ => trivial) fun _ => trivial)
    exact ⟨rfl, _, rfl, rfl, fun _ => rfl,
      fun isWord => absurd isWord isText.not_word⟩
  cases kind : (store idx).type with
  | invalid => exact absurd kind isValue.1
  | unassigned => exact absurd kind isValue.2
  | undefined =>
      exact ⟨rfl, _, rfl, kind.symm, fun isText => absurd isText (by decide),
        fun isWord => absurd isWord (by decide)⟩
  | boolean => simpa only [casRead, kind] using wordCase (.inl kind)
  | integer => simpa only [casRead, kind] using wordCase (.inr (.inl kind))
  | float => simpa only [casRead, kind] using wordCase (.inr (.inr kind))
  | string => simpa only [casRead, kind] using textCase (.inl kind)
  | json => simpa only [casRead, kind] using textCase (.inr kind)

private theorem casEqual_eq {oldValue current value : EMSvalueType}
    (isValue : IsValue value.type)
    (same : SameContent current value) :
    casEqual oldValue current = decide (SameContent value oldValue) := by
  obtain ⟨type, text, word⟩ := same
  rw [type] at text word
  rw [Bool.eq_iff_iff, decide_eq_true_eq]
  simp only [casEqual, type, Bool.and_eq_true, beq_iff_eq, SameContent]
  rw [@eq_comm _ oldValue.type value.type]
  apply and_congr_right
  intro _
  cases kind : value.type with
  | invalid => exact absurd kind isValue.1
  | unassigned => exact absurd kind isValue.2
  | undefined => simp [EMSType.IsText, EMSType.IsWord]
  | boolean | integer | float =>
      rw [kind] at word
      simp [EMSType.IsText, EMSType.IsWord, word (by decide)]
  | string | json =>
      rw [kind] at text
      simp [EMSType.IsText, EMSType.IsWord, text (by decide)]

private theorem casFinish_alone (small : EMS_MEM_BLOCKSZ * 2 ^ level < 2 ^ 63)
    (unmapped : array.isMapped = false)
    (holds : StoreHolds array level kept store ledger)
    (below : (idx : Int) < array.nElem)
    {oldValue newValue current : EMSvalueType}
    (sized : newValue.Sized) (same : SameContent current (store idx)) :
    ledgerSolo.Ends (CasOk array level kept store idx oldValue newValue)
      (casFinish patience array idx current newValue
        (decide (SameContent (store idx) oldValue))) ledger := by
  by_cases equal : SameContent (store idx) oldValue
  · simp only [casFinish, equal, decide_true, if_true]
    apply free_ends small holds below same.1
    intro blocks ledger' beside _ _ _
    apply Solo.Ends.bind
    apply (casStore_places beside.ordered sized.placeable).mono
    rintro _ placed ⟨rfl, _, places⟩
    apply storeTag_ends
    simp only [releaseMap, unmapped]
    refine ⟨⟨current, rfl, same⟩, ?_⟩
    rw [if_pos equal]
    exact beside.place below places rfl
  · simp only [casFinish, equal, decide_false, Bool.false_eq_true, if_false]
    apply storeTag_ends
    simp only [releaseMap, unmapped]
    refine ⟨⟨current, rfl, same⟩, ?_⟩
    rw [if_neg equal]
    exact holds.retag (same.1.trans (holds.type below).symm)

private theorem EMScas_alone [CRuntime] (serves : MallocServes)
    (small : EMS_MEM_BLOCKSZ * 2 ^ level < 2 ^ 63)
    (unmapped : array.isMapped = false)
    (holds : StoreHolds array level kept store ledger)
    (below : (idx : Int) < array.nElem) {oldValue newValue : EMSvalueType}
    (sized : newValue.Sized) :
    ledgerSolo.Ends (CasOk array level kept store idx oldValue newValue)
      (EMScas patience array (scalar .integer idx) oldValue newValue)
        ledger := by
  have inside : ¬ ((True ∧ (idx : Int) < 0) ∨ array.nElem ≤ idx) := by omega
  simp only [EMScas, unmapped,
    EMSkey2index_unmapped patience array (Int.natCast_nonneg idx) below,
    Prog.ret_bind, Bool.false_eq_true, not_false_eq_true, false_and, if_false,
    if_neg inside,
    casElement, mapTagOf]
  apply Solo.Ends.bind
  apply Ends.account
  apply EMStransitionFEtag_alone.mono
  rintro _ _ ⟨-, -, rfl⟩
  have busy : StoreHolds array level kept store { ledger with
      buf := ledger.buf.setTag (EMSdataCell idx)
        { ledger.buf.tag (EMSdataCell idx) with fe := .busy } } :=
    holds.retag rfl
  apply loadTag_ends
  rw [busy.type below]
  apply Solo.Ends.bind
  apply (casRead_alone serves busy below).mono
  rintro _ _ ⟨rfl, current, rfl, same⟩
  obtain ⟨blocks, ⟨-, word⟩, -⟩ := holds.element below
  simp only
  rw [casEqual_eq word.isValue same]
  exact casFinish_alone small unmapped busy below sized same

end Holding

/-! ## Sequences of calls -/

section Calls

variable {array : EmsArray} {level : Nat}

/-- A call that returns, with nothing refused by the allocator. -/
abbrev ElementCall [CRuntime] (array : EmsArray) (stack : Tag) :
    Ledger → ElementOp × ElementRes → Ledger → Prop :=
  ledgerSolo.Call (ElementOp.code array stack) fun op _ => op.Valid array

/-- All elements are undefined, and the heap is fresh. -/
structure InitialStore (array : EmsArray) (level : Nat)
    (ledger : Ledger) : Prop where
  undefined : ∀ i, 0 ≤ i → i < array.nElem →
    (ledger.buf.tag (EMSdataCell i)).type = .undefined
  mutex : ledger.buf.memMutex = .empty
  heap : ledger.buf.mem = emsMem_new level
  live : ledger.live = []
  sound : ledger.misfreed = false

theorem InitialStore.holds {ledger : Ledger}
    (initially : InitialStore array level ledger) :
    StoreHolds array level 0 (storeAfter []) ledger := by
  obtain ⟨undefined, mutex, heap, live, sound⟩ := initially
  refine ⟨⟨mutex, .unused, ?_⟩, sound, fun _ => [], ?_, ?_⟩
  · rw [heap, live]
    exact HeapShape.fresh level
  · intro i below
    exact ⟨undefined i (Int.natCast_nonneg i) below, rfl⟩
  · simp [live]

theorem StoreValid.effect {store : Store} (valid : StoreValid store)
    {op : ElementOp}
    (allowed : op.Valid array) : StoreValid (op.effect store) := by
  have updated : ∀ idx value, op.stores = some value →
      StoreValid (Function.update store idx value) := by
    intro idx value stored
    constructor
    intro i
    by_cases same : i = idx
    · subst same
      simpa using (allowed.wellFormed value stored).boolean
    · simpa [same] using valid.boolean i
  cases op with
  | cas idx oldValue newValue =>
      simp only [ElementOp.effect]
      split
      · exact updated idx newValue rfl
      · exact valid
  | write idx value | writeXF idx value | writeXE idx value
  | writeEF idx value =>
      exact updated idx value rfl
  | read | readFF | readFE => exact valid

/-- What holds between calls. -/
structure StoreInvariant (array : EmsArray) (level : Nat) (store : Store)
    (ledger : Ledger) :
    Prop where
  holds : StoreHolds array level 0 store ledger
  valid : StoreValid store

/-- A call answers by the values that were stored last, and stores its own. -/
theorem ElementOp.alone [CRuntime] (serves : MallocServes)
    (small : EMS_MEM_BLOCKSZ * 2 ^ level < 2 ^ 63)
    (unmapped : array.isMapped = false) {store : Store} {ledger : Ledger}
    (invariant : StoreInvariant array level store ledger) {op : ElementOp}
    (allowed : op.Valid array) {stack : Tag} {patience : Nat} :
    ledgerSolo.Ends (fun res after => op.Answers store res after.buf.heap ∧
        StoreInvariant array level (op.effect store) after)
      (op.code array stack patience) ledger := by
  obtain ⟨holds, valid⟩ := invariant
  have valid' := valid.effect allowed
  obtain ⟨inside, below, wellFormed⟩ := allowed
  obtain ⟨idx, named⟩ := Int.eq_ofNat_of_zero_le inside
  rw [named] at below
  cases op with
  | write i value | writeXF i value | writeXE i value | writeEF i value =>
      obtain rfl : i = idx := named
      simp only [code, map_eq_pure_bind]
      apply Solo.Ends.bind
      apply (EMSwriteUsingTags_alone small unmapped
        (wellFormed value rfl).toSized holds below).mono
      rintro _ after ⟨rfl, stored, -, -⟩
      exact ⟨rfl, stored, valid'⟩
  | cas i oldValue newValue =>
      obtain rfl : i = idx := named
      simp only [code, map_eq_pure_bind]
      apply Solo.Ends.bind
      apply (EMScas_alone serves small unmapped holds below
        (wellFormed newValue rfl).toSized).mono
      rintro _ after ⟨answer, stored⟩
      exact ⟨answer, stored, valid'⟩
  | read i | readFF i | readFE i =>
      obtain rfl : i = idx := named
      simp only [code, map_eq_pure_bind]
      apply Solo.Ends.bind
      apply (EMSreadUsingTags_alone unmapped holds valid below (by decide)).mono
      rintro _ after ⟨reads, stored⟩
      exact ⟨reads, stored, valid'⟩

private theorem storeAfter_snoc (calls : List (ElementOp × ElementRes))
    (call : ElementOp × ElementRes) :
    storeAfter (calls ++ [call]) = call.1.effect (storeAfter calls) := by
  simp [storeAfter]

private theorem store_invariant [CRuntime] (serves : MallocServes)
    (small : EMS_MEM_BLOCKSZ * 2 ^ level < 2 ^ 63)
    (unmapped : array.isMapped = false) {stack : Tag} {start ledger : Ledger}
    (initially : InitialStore array level start)
    {calls : List (ElementOp × ElementRes)}
    (run : Run (ElementCall array stack) start calls ledger) :
    StoreInvariant array level (storeAfter calls) ledger := by
  induction run with
  | nil =>
      refine ⟨initially.holds, ⟨fun i boolean => ?_⟩⟩
      cases boolean
  | snoc _ call induction =>
      cases call with
      | mk patience allowed returns =>
          rw [storeAfter_snoc]
          exact ((ElementOp.alone serves small unmapped
            induction allowed).returns returns).2

/-- After any sequence of calls the elements hold what was stored last, the
live blocks are exactly theirs, and the next call answers accordingly and fails
no assertion. -/
theorem element_store_refines [CRuntime] (serves : MallocServes)
    (small : EMS_MEM_BLOCKSZ * 2 ^ level < 2 ^ 63)
    (unmapped : array.isMapped = false) {stack : Tag} {start ledger : Ledger}
    (initially : InitialStore array level start)
    {calls : List (ElementOp × ElementRes)}
    (run : Run (ElementCall array stack) start calls ledger) :
    StoreHolds array level 0 (storeAfter calls) ledger ∧
      (∀ op res after, ElementCall array stack ledger (op, res) after →
        op.Answers (storeAfter calls) res after.buf.heap) ∧
      ∀ (op : ElementOp) (patience : Nat), op.Valid array →
        ¬ ledgerSolo.Aborts (op.code array stack patience) ledger := by
  have invariant := store_invariant serves small unmapped initially run
  refine ⟨invariant.holds, ?_, ?_⟩
  · intro op res after call
    cases call with
    | mk patience allowed returns =>
        exact ((ElementOp.alone serves small unmapped invariant allowed).returns
          returns).1
  · intro op patience allowed
    exact (ElementOp.alone serves small unmapped invariant allowed).not_aborts

/-- A fresh array of one element, with the ledger of its heap. -/
def freshLedger : Ledger := ⟨uniformBuf ⟨.full, .undefined, 0⟩ 0, [], false⟩

/-- The string "hi". -/
def hi : EMSvalueType := ⟨.string, 0, ⟨[104, 105], terminated_hi⟩, 2⟩

/-- The string "yo". -/
def yo : EMSvalueType := ⟨.string, 0, ⟨[121, 111], by simp⟩, 2⟩

/-- The word that the last call has returned. -/
def lastWord (calls : List (ElementOp × ElementRes)) : Option Int :=
  match calls.getLast? with
  | some (_, .value (.ok value)) => some value.value
  | _ => none

/-- A string is written, overwritten and read: the word is where the second one
stands in the heap. -/
theorem element_store_refines_overwritten :
    letI := ieeeRuntime
    ∃ calls ledger, Run (ElementCall ⟨1, false⟩ ⟨.full, .undefined, 0⟩)
      freshLedger calls ledger ∧
      (∃ word, lastWord calls = some word ∧
        HeapHolds ledger.buf.heap word yo.text.bytes) ∧
      ledger.live.length = 1 ∧
          StoreHolds ⟨1, false⟩ 0 0 (storeAfter calls) ledger := by
  let _ := ieeeRuntime
  obtain ⟨calls, ledger, run, checked⟩ := ledgerSolo.exists_calls
    (ElementOp.code ⟨1, false⟩ ⟨.full, .undefined, 0⟩)
      (fun op _ => op.Valid ⟨1, false⟩) 8
    freshLedger [.writeXF 0 hi, .write 0 yo, .readFF 0]
    (fun played => (lastWord played.1).any (fun word =>
        decide (HeapHolds played.2.buf.heap word yo.text.bytes)) &&
          played.2.live.length == 1)
    (by decide +kernel)
  rw [Bool.and_eq_true, Option.any_eq_true, beq_iff_eq] at checked
  obtain ⟨⟨word, returned, holds⟩, live⟩ := checked
  have initially : InitialStore ⟨1, false⟩ 0 freshLedger :=
    ⟨fun _ _ _ => rfl, rfl, rfl, rfl, rfl⟩
  exact ⟨calls, ledger, run, ⟨word, returned, of_decide_eq_true holds⟩, live,
    (element_store_refines (fun _ => rfl) (by decide) rfl initially run).1⟩

end Calls

end EMS
