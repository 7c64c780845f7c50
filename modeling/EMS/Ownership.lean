import EMS.ElementStore
import EMS.Primitives

/-!
# Who owns the strings of a stack or a queue

A process pushes and pops, or enqueues and dequeues, and also writes elements.
An element whose type is that of a string owns a block.  A string that is
popped or dequeued is freed, but its element keeps the type, and what it refers
to is no longer live.  As long as no string is taken, all is well.
-/

namespace EMS

open SharedProgram Interleaving

/-! ## The operations -/

/-- Whether an array is used as a stack or as a queue. -/
inductive Discipline where
  | stack
  | queue
  deriving DecidableEq

inductive MixedOp where
  | push (value : EMSvalueType)
  | pop
  | enqueue (value : EMSvalueType)
  | dequeue
  | writeXF (idx : Int) (value : EMSvalueType)
  | writeXE (idx : Int) (value : EMSvalueType)
  | writeEF (idx : Int) (value : EMSvalueType)

inductive MixedRes where
  | entry (res : EntryRes)
  | written (res : Except EMSError Unit)

namespace MixedOp

def code [CRuntime] (array : EmsArray) (op : MixedOp) (patience : Nat) :
    EmsProg MixedRes :=
  match op with
  | push value => (.entry ∘ .index) <$> EMSpush patience array value
  | pop => (.entry ∘ .value) <$> EMSpop patience
  | enqueue value => (.entry ∘ .index) <$> EMSenqueue patience array value
  | dequeue => (.entry ∘ .value) <$> EMSdequeue patience array
  | writeXF idx value =>
      .written <$> EMSwriteXF patience array (scalar .integer idx) value
  | writeXE idx value =>
      .written <$> EMSwriteXE patience array (scalar .integer idx) value
  | writeEF idx value =>
      .written <$> EMSwriteEF patience array (scalar .integer idx) value

/-- Nothing is pushed or enqueued where there is no room for it, or at an index
that is no `int32_t`. -/
def Allowed (array : EmsArray) (discipline : Discipline) (buf : EmsBuf) :
    MixedOp → Prop
  | push value => discipline = .stack ∧ value.Sized ∧
      buf.word stackTop < array.nElem - 1 ∧ buf.word stackTop < 2 ^ 31
  | pop => discipline = .stack
  | enqueue value => discipline = .queue ∧ value.Sized ∧
      buf.word stackTop - buf.word queueBottom < array.nElem ∧
      (buf.word stackTop).tmod array.nElem < 2 ^ 31
  | dequeue => discipline = .queue
  | writeXF idx value | writeXE idx value | writeEF idx value =>
      0 ≤ idx ∧ idx < array.nElem ∧ value.Sized

/-- The element that the operation takes a value from is a string. -/
def TakesText (array : EmsArray) (buf : EmsBuf) : MixedOp → Prop
  | pop => 0 < buf.word stackTop ∧
      (buf.tag (EMSdataCell (buf.word stackTop - 1))).type.IsText
  | dequeue => buf.word queueBottom < buf.word stackTop ∧
      (buf.tag (EMSdataCell
        ((buf.word queueBottom).tmod array.nElem))).type.IsText
  | _ => False

end MixedOp

/-- An operation, and the ledger before it. -/
structure MixedEvent where
  op : MixedOp
  before : Ledger

/-- A call that returns. -/
inductive MixedStep [CRuntime] (array : EmsArray) (discipline : Discipline) :
    Ledger → MixedEvent → Ledger → Prop where
  | mk {op : MixedOp} {res : MixedRes} {before after : Ledger} :
      ledgerSolo.Call (MixedOp.code array)
        (fun op ledger => op.Allowed array discipline ledger.buf) before
          (op, res) after →
      MixedStep array discipline before ⟨op, before⟩ after

/-- No block has been freed that was not live, and the elements that are strings
refer to live blocks. -/
structure HeapSound (array : EmsArray) (ledger : Ledger) : Prop where
  freed : ledger.misfreed = false
  refers : ∀ i : Nat, (i : Int) < array.nElem →
    (ledger.buf.tag (EMSdataCell i)).type.IsText →
    ∃ block ∈ ledger.live, ledger.buf.word (EMSdataCell i) = block.address

/-! ## The invariant -/

/-- Where the stack or the queue stands. -/
def Position (array : EmsArray) (discipline : Discipline)
    (word : Cell → Int) : Prop :=
  match discipline with
  | .stack =>
      0 ≤ word stackTop ∧ (0 < word stackTop → word stackTop ≤ array.nElem)
  | .queue => 0 ≤ word queueBottom ∧ word queueBottom ≤ word stackTop ∧
      (word queueBottom < word stackTop →
        word stackTop ≤ word queueBottom + array.nElem)

/-- The elements hold some values, and some blocks are kept that no element
refers to. -/
structure MixedInvariant (array : EmsArray) (discipline : Discipline)
    (level : Nat)
    (ledger : Ledger) : Prop where
  holds : ∃ kept store, StoreHolds array level kept store ledger
  position : Position array discipline ledger.buf.word

section Invariant

variable {array : EmsArray} {discipline : Discipline} {level : Nat}
  {kept : Multiset Block}
  {store : Store} {ledger : Ledger} {patience : Nat}

theorem StoreHolds.heapSound
    (holds : StoreHolds array level kept store ledger) :
    HeapSound array ledger := by
  refine ⟨holds.sound, ?_⟩
  intro i below text
  obtain ⟨blocks, ⟨type, word⟩, inLive⟩ := holds.element below
  rw [type] at text
  obtain ⟨block, rfl, address, -⟩ := (wordHolds_text text).mp word
  exact ⟨block, inLive block (by simp), address⟩

theorem MixedInvariant.heapSound
    (invariant : MixedInvariant array discipline level ledger) :
    HeapSound array ledger := by
  obtain ⟨⟨kept, store, holds⟩, -⟩ := invariant
  exact holds.heapSound

theorem data_ne_stackTop (i : Nat) : EMSdataCell i ≠ stackTop :=
  EMSdataCell_ne_stackTop (Int.natCast_nonneg i)

theorem data_ne_queueBottom (i : Nat) : EMSdataCell i ≠ queueBottom :=
  EMSdataCell_ne_queueBottom (Int.natCast_nonneg i)

theorem stackTop_control (i : Nat) (_ : (i : Int) < array.nElem) :
    EMSdataCell i ≠ stackTop :=
  data_ne_stackTop i

theorem queueBottom_control (i : Nat) (_ : (i : Int) < array.nElem) :
    EMSdataCell i ≠ queueBottom :=
  data_ne_queueBottom i

theorem StoreHolds.abandon
    (holds : StoreHolds array level kept store ledger) {idx : Nat}
    (below : (idx : Int) < array.nElem) :
    ∃ kept' blocks, HoldsBeside array level kept' store idx blocks ledger := by
  obtain ⟨ordered, sound, blocks, elements, live⟩ := holds
  refine ⟨kept + blocks idx, blocks, ordered, sound,
    fun i inside _ => elements i inside, ?_⟩
  rw [live, blocks_split below, add_assoc]

/-- Only the full/empty state of a tag changes. -/
theorem StoreHolds.storeFE (holds : StoreHolds array level kept store ledger)
    (cell : Cell)
    (fe : FE) :
    StoreHolds array level kept store { ledger with
      buf :=
        ledger.buf.setTag cell { ledger.buf.tag cell with fe := fe } } := by
  have types : ∀ i : Nat, (i : Int) < array.nElem → ((ledger.buf.setTag cell
      { ledger.buf.tag cell with fe := fe }).tag (EMSdataCell i)).type =
      (ledger.buf.tag (EMSdataCell i)).type := by
    intro i _
    by_cases same : EMSdataCell i = cell
    · subst same
      simp
    · simp [same]
  exact holds.congr types (fun _ _ => rfl) rfl rfl rfl

theorem MixedInvariant.storeFE
    (invariant : MixedInvariant array discipline level ledger)
    (cell : Cell) (fe : FE) :
    MixedInvariant array discipline level { ledger with
      buf :=
        ledger.buf.setTag cell { ledger.buf.tag cell with fe := fe } } := by
  obtain ⟨⟨kept, store, holds⟩, position⟩ := invariant
  exact ⟨⟨kept, store, holds.storeFE cell fe⟩, position⟩

theorem EMSvalueType.Sized.entry {value : EMSvalueType} (sized : value.Sized) :
    value.Placeable (value.text.bytes.length + 1) := by
  refine ⟨sized.isValue, fun text => ?_⟩
  obtain ⟨room, addressable⟩ := sized.text text
  constructor
  · constructor <;> omega
  · omega

theorem EMSpush_alone {value : EMSvalueType} (sized : value.Sized)
    (invariant : MixedInvariant array .stack level ledger)
    (room : ledger.buf.word stackTop < array.nElem - 1)
    (int32 : ledger.buf.word stackTop < 2 ^ 31) :
    ledgerSolo.Ends (fun _ after => MixedInvariant array .stack level after)
      (EMSpush patience array value) ledger := by
  obtain ⟨⟨kept, store, holds⟩, nonneg, inRange⟩ := invariant
  obtain ⟨idx, top⟩ := Int.eq_ofNat_of_zero_le nonneg
  have below : (idx : Int) < array.nElem := by omega
  have small : toInt32 idx = idx := toInt32_eq (by omega) (by omega)
  have different : ¬ (idx : Int) = array.nElem - 1 := by omega
  apply Solo.Ends.bind
  apply Ends.account
  apply EMStransitionFEtag_alone.mono
  rintro _ _ ⟨-, -, rfl⟩
  apply load_ends
  apply load_ends
  apply store_ends
  simp only [EmsBuf.setTag_word, top, small, if_neg different]
  apply Solo.Ends.bind
  apply Ends.account
  apply EMStransitionFEtag_alone.mono
  rintro _ _ ⟨-, rfl, rfl⟩
  have locked := ((holds.storeFE stackTop .busy).setWord stackTop_control
    (idx + 1)).storeFE (EMSdataCell idx) .busy
  simp only [EmsBuf.setTag_tag, EmsBuf.setWord_tag,
    Function.update_of_ne (data_ne_stackTop idx)] at locked
  obtain ⟨kept', blocks, beside⟩ := locked.abandon below
  apply Solo.Ends.bind
  apply (storeEntry_places beside.ordered sized.entry).mono
  rintro _ placed ⟨rfl, _, places⟩
  apply storeTag_ends
  apply storeFE_ends
  have top' : placed.buf.word stackTop = idx + 1 := by
    rw [places.word _ (data_ne_stackTop idx).symm]
    simp
  refine ⟨⟨_, _, (beside.place below places ?_).setTag stackTop_control _⟩, ?_⟩
  · rfl
  · change 0 ≤ placed.buf.word stackTop ∧
      (0 < placed.buf.word stackTop → placed.buf.word stackTop ≤ array.nElem)
    omega

/-! ## Taking a value -/

/-- An element is a string that refers to no live block. -/
def Dangles (array : EmsArray) (ledger : Ledger) : Prop :=
  ∃ i : Nat, (i : Int) < array.nElem ∧
    (ledger.buf.tag (EMSdataCell i)).type.IsText ∧
    ∀ block ∈ ledger.live, ledger.buf.word (EMSdataCell i) ≠ block.address

theorem Dangles.not_sound (dangles : Dangles array ledger) :
    ¬ HeapSound array ledger := by
  intro sound
  obtain ⟨i, below, text, refersToNone⟩ := dangles
  obtain ⟨block, member, refers⟩ := sound.refers i below text
  exact refersToNone block member refers

theorem Dangles.storeFE (dangles : Dangles array ledger)
    (cell : Cell) (fe : FE) :
    Dangles array { ledger with
      buf :=
        ledger.buf.setTag cell { ledger.buf.tag cell with fe := fe } } := by
  obtain ⟨i, below, text, refersToNone⟩ := dangles
  refine ⟨i, below, ?_, refersToNone⟩
  by_cases same : EMSdataCell i = cell
  · subst same
    simpa using text
  · simpa [same] using text

/-- What is freed is live no more, and its element still refers to it. -/
theorem free_dangles (small : EMS_MEM_BLOCKSZ * 2 ^ level < 2 ^ 63)
    (holds : StoreHolds array level kept store ledger) {idx : Nat}
    (below : (idx : Int) < array.nElem)
    (text : (ledger.buf.tag (EMSdataCell idx)).type.IsText) :
    ledgerSolo.Ends (fun _ after => Dangles array after)
      (emsMutexMem_free patience (ledger.buf.word (EMSdataCell idx)))
        ledger := by
  obtain ⟨blocks, ⟨type, word⟩, inLive⟩ := holds.element below
  obtain ⟨block, rfl, address, -⟩ := (wordHolds_text (type ▸ text)).mp word
  have member : block ∈ ledger.live := inLive block (by simp)
  obtain ⟨-, tree, shape⟩ := holds.ordered
  have distinct : ledger.live.Nodup := by
    apply shape.apart.imp
    intro first second apart same
    have positive := first.length_pos
    rw [same] at apart positive
    unfold Block.Apart at apart
    omega
  rw [address]
  apply (emsMutexMem_free_alone small holds.ordered member).mono
  rintro _ _ ⟨mem, rfl, -⟩
  refine ⟨idx, below, text, ?_⟩
  intro other inRest
  have different : other ≠ block :=
    fun same => (distinct.mem_erase_iff.mp inRest).1 same
  have stillLive : other ∈ ledger.live := List.mem_of_mem_erase inRest
  intro same
  apply different
  apply shape.eq_of_address stillLive member
  have equal : (other.address : Int) = block.address := same.symm.trans address
  omega

/-- A string is copied out of the heap and freed. -/
theorem takeText_ends {β : Type} {post : β → Ledger → Prop}
    {rest : Nat → CString → EmsProg β}
    (small : EMS_MEM_BLOCKSZ * 2 ^ level < 2 ^ 63)
    (holds : StoreHolds array level kept store ledger) {idx : Nat}
    (below : (idx : Int) < array.nElem)
    (text : (ledger.buf.tag (EMSdataCell idx)).type.IsText)
    (ends : ∀ length taken after, Dangles array after →
      ledgerSolo.Ends post (rest length taken) after) :
    ledgerSolo.Ends post (do
      let textOffset ← load (EMSdataCell idx)
      let memStrLen ← heapStrlen patience textOffset
      let textOffset ← load (EMSdataCell idx)
      let taken ← copyFromHeap patience textOffset
      let textOffset ← load (EMSdataCell idx)
      emsMutexMem_free patience textOffset
      rest memStrLen taken) ledger := by
  apply load_ends
  apply Solo.Ends.bind
  apply Ends.account
  apply heapStrlen_alone.mono
  rintro length _ rfl
  apply load_ends
  apply Solo.Ends.bind
  apply Ends.account
  apply copyFromHeap_alone.mono
  rintro taken _ rfl
  apply load_ends
  apply Solo.Ends.bind
  apply (free_dangles small holds below text).mono
  intro _ after dangles
  exact ends length taken after dangles

/-- What a pop or a dequeue leaves behind. -/
structure Took (array : EmsArray) (discipline : Discipline) (level : Nat)
    (text : Prop)
    (after : Ledger) : Prop where
  dangles : text → Dangles array after
  invariant : ¬ text → MixedInvariant array discipline level after

theorem EMSpop_alone (small : EMS_MEM_BLOCKSZ * 2 ^ level < 2 ^ 63)
    (invariant : MixedInvariant array .stack level ledger) :
    ledgerSolo.Ends (fun _ after =>
        Took array .stack level (MixedOp.pop.TakesText array ledger.buf) after)
      (EMSpop patience) ledger := by
  obtain ⟨⟨kept, store, holds⟩, nonneg, inRange⟩ := invariant
  apply Solo.Ends.bind
  apply Ends.account
  apply EMStransitionFEtag_alone.mono
  rintro _ _ ⟨-, -, rfl⟩
  apply load_ends
  apply store_ends
  apply load_ends
  simp only [EmsBuf.setTag_word, EmsBuf.setWord_word, Function.update_self]
  have locked := ((holds.setTag stackTop_control
    { ledger.buf.tag stackTop with fe := .busy }).setWord stackTop_control
    (ledger.buf.word stackTop - 1))
  split
  case isTrue empty =>
    apply store_ends
    apply storeFE_ends
    refine ⟨fun takes => ?_,
      fun _ => ⟨⟨_, _, (locked.setWord stackTop_control 0).setTag
      stackTop_control _⟩, ?_⟩⟩
    · have some : 0 < ledger.buf.word stackTop := takes.1
      omega
    · simp [Position]
  case isFalse some =>
    obtain ⟨idx, top⟩ := Int.eq_ofNat_of_zero_le (not_lt.mp some)
    have below : (idx : Int) < array.nElem := by omega
    have takes : MixedOp.pop.TakesText array ledger.buf ↔
        (ledger.buf.tag (EMSdataCell idx)).type.IsText := by
      simp only [MixedOp.TakesText, top]
      exact and_iff_right (by omega)
    rw [top]
    apply Solo.Ends.bind
    apply Ends.account
    apply EMStransitionFEtag_alone.mono
    rintro dataTag _ ⟨-, rfl, rfl⟩
    simp only [EmsBuf.setTag_tag, EmsBuf.setWord_tag,
      Function.update_of_ne (data_ne_stackTop idx)]
    rw [takes]
    have held := locked.storeFE (EMSdataCell idx) .busy
    simp only [EmsBuf.setTag_tag, EmsBuf.setWord_tag,
      Function.update_of_ne (data_ne_stackTop idx), top] at held
    have position : Position array .stack
        (Function.update ledger.buf.word stackTop idx) := by
      simp only [Position, Function.update_self]
      omega
    split
    case h_1 kind | h_2 kind | h_3 kind =>
      apply load_ends
      apply storeFE_ends
      apply storeFE_ends
      refine ⟨fun text => ?_, fun _ => ?_⟩
      · rw [kind] at text
        exact absurd text (by decide)
      · exact ⟨⟨_, _, (held.storeFE _ _).storeFE _ _⟩, position⟩
    case h_4 kind | h_5 kind =>
      apply takeText_ends small held below (by simp [kind, EMSType.IsText])
      intro _ _ after dangles
      apply storeFE_ends
      apply storeFE_ends
      refine ⟨fun _ => (dangles.storeFE _ _).storeFE _ _, fun noText => ?_⟩
      exact absurd (by simp [kind, EMSType.IsText]) noText
    case h_6 kind =>
      apply storeFE_ends
      apply storeFE_ends
      refine ⟨fun text => ?_, fun _ => ?_⟩
      · rw [kind] at text
        exact absurd text (by decide)
      · exact ⟨⟨_, _, (held.storeFE _ _).storeFE _ _⟩, position⟩
    case h_7 noJson noString _ =>
      refine ⟨fun text => ?_, fun _ => ⟨⟨_, _, held⟩, position⟩⟩
      exact absurd text (not_or_intro noString noJson)

/-! ## Queues -/

theorem HoldsBeside.retag {idx : Nat} {blocks : Nat → List Block}
    (beside : HoldsBeside array level kept store idx blocks ledger)
    (tag : Tag) :
    HoldsBeside array level kept store idx blocks
      { ledger with buf := ledger.buf.setTag (EMSdataCell idx) tag } := by
  obtain ⟨ordered, sound, elements, live⟩ := beside
  refine ⟨ordered.congr rfl rfl rfl, sound, ?_, live⟩
  intro i below different
  obtain ⟨type, word⟩ := elements i below different
  have other : (i : Int) ≠ idx := fun same => different (by omega)
  exact ⟨by simpa [other] using type, word⟩

/-- The tag of a slot is changed before the value is placed. -/
theorem enqueueEntry_ends {β : Type} {post : β → Ledger → Prop}
    {rest : Except EMSError Unit → EmsProg β} {idx : Nat}
    {blocks : Nat → List Block}
    {value : EMSvalueType} (sized : value.Sized)
    (beside : HoldsBeside array level kept store idx blocks ledger)
    (below : (idx : Int) < array.nElem)
    (ends : ∀ after, StoreHolds array level kept
      (Function.update store idx value) after →
      (∀ cell, cell ≠ EMSdataCell idx → after.buf.word cell =
        ledger.buf.word cell) →
      ledgerSolo.Ends post (rest (.ok ())) after) :
    ledgerSolo.Ends post (do
      storeRW (EMSdataCell idx) 0
      storeType (EMSdataCell idx) value.type
      let tag ← loadTag (EMSdataCell idx)
      let stored ← storeEntry patience idx { value with type := tag.type }
      rest stored) ledger := by
  apply loadTag_ends
  apply storeTag_ends
  apply loadTag_ends
  apply storeTag_ends
  apply loadTag_ends
  simp only [EmsBuf.setTag_tag, Function.update_self]
  apply Solo.Ends.bind
  apply (storeEntry_places ((beside.retag _).retag _).ordered sized.entry).mono
  rintro _ placed ⟨rfl, _, places⟩
  apply ends
  · have type : (placed.buf.tag (EMSdataCell idx)).type = value.type := by
      rw [places.tag]
      simp
    have whole := ((beside.retag _).retag _).place below places type
    simpa [EmsBuf.setTag] using whole
  · intro cell different
    exact places.word cell different

theorem EMSenqueue_alone {value : EMSvalueType} (sized : value.Sized)
    (invariant : MixedInvariant array .queue level ledger)
    (room : ledger.buf.word stackTop - ledger.buf.word queueBottom <
      array.nElem)
    (int32 : (ledger.buf.word stackTop).tmod array.nElem < 2 ^ 31) :
    ledgerSolo.Ends (fun _ after => MixedInvariant array .queue level after)
      (EMSenqueue patience array value) ledger := by
  obtain ⟨⟨kept, store, holds⟩, nonneg, ordered, inRange⟩ := invariant
  have topNonneg : 0 ≤ ledger.buf.word stackTop := by omega
  have positive : 0 < array.nElem := by omega
  obtain ⟨idx, slot⟩ :=
    Int.eq_ofNat_of_zero_le (Int.tmod_nonneg array.nElem topNonneg)
  have below : (idx : Int) < array.nElem := by
    rw [← slot]
    exact Int.tmod_lt_of_pos _ positive
  have small : toInt32 idx = idx := toInt32_eq (by omega) (by omega)
  apply Solo.Ends.bind
  apply Ends.account
  apply EMStransitionFEtag_alone.mono
  rintro _ _ ⟨-, -, rfl⟩
  apply load_ends
  apply load_ends
  apply store_ends
  apply load_ends
  apply load_ends
  simp only [EmsBuf.setTag_word, EmsBuf.setWord_word, Function.update_self,
    Function.update_of_ne stackTop_ne_queueBottom.symm, slot, small]
  rw [if_neg (by omega)]
  have locked := (holds.storeFE stackTop .busy).setWord stackTop_control
    (ledger.buf.word stackTop + 1)
  obtain ⟨kept', blocks, beside⟩ := locked.abandon below
  apply enqueueEntry_ends sized beside below
  intro after stored others
  apply storeFE_ends
  apply storeFE_ends
  refine ⟨⟨_, _, (stored.storeFE _ _).storeFE _ _⟩, ?_⟩
  have top : after.buf.word stackTop = ledger.buf.word stackTop + 1 := by
    rw [others _ (data_ne_stackTop idx).symm]
    simp
  have bottom : after.buf.word queueBottom = ledger.buf.word queueBottom := by
    rw [others _ (data_ne_queueBottom idx).symm]
    simp [stackTop_ne_queueBottom.symm]
  change Position array .queue after.buf.word
  simp only [Position]
  omega

theorem EMSdequeue_alone (small : EMS_MEM_BLOCKSZ * 2 ^ level < 2 ^ 63)
    (invariant : MixedInvariant array .queue level ledger) :
    ledgerSolo.Ends (fun _ after =>
        Took array .queue level
          (MixedOp.dequeue.TakesText array ledger.buf) after)
      (EMSdequeue patience array) ledger := by
  obtain ⟨⟨kept, store, holds⟩, nonneg, ordered, inRange⟩ := invariant
  have locked := holds.storeFE queueBottom .busy
  apply Solo.Ends.bind
  apply Ends.account
  apply EMStransitionFEtag_alone.mono
  rintro _ _ ⟨-, -, rfl⟩
  apply load_ends
  apply load_ends
  apply load_ends
  by_cases empty : ledger.buf.word stackTop ≤ ledger.buf.word queueBottom
  · simp only [EmsBuf.setTag_word, empty, if_true]
    apply load_ends
    apply store_ends
    apply storeFE_ends
    refine ⟨fun takes => ?_,
      fun _ => ⟨⟨_, _, (locked.setWord queueBottom_control _).storeFE _ _⟩,
      ?_⟩⟩
    · have some : ledger.buf.word queueBottom < ledger.buf.word stackTop :=
        takes.1
      omega
    · simp [Position, stackTop_ne_queueBottom]
      omega
  · simp only [EmsBuf.setTag_word, empty, if_false]
    have positive : 0 < array.nElem := by omega
    obtain ⟨idx, slot⟩ :=
      Int.eq_ofNat_of_zero_le (Int.tmod_nonneg array.nElem nonneg)
    have below : (idx : Int) < array.nElem := by
      rw [← slot]
      exact Int.tmod_lt_of_pos _ positive
    have takes : MixedOp.dequeue.TakesText array ledger.buf ↔
        (ledger.buf.tag (EMSdataCell idx)).type.IsText := by
      simp only [MixedOp.TakesText, slot]
      exact and_iff_right (by omega)
    have position : Position array .queue
        (Function.update ledger.buf.word queueBottom
            (ledger.buf.word queueBottom + 1)) := by
      simp only [Position, Function.update_self,
        Function.update_of_ne stackTop_ne_queueBottom]
      omega
    apply load_ends
    apply store_ends
    simp only [EmsBuf.setTag_word, slot]
    apply Solo.Ends.bind
    apply Ends.account
    apply EMStransitionFEtag_alone.mono
    rintro dataTag _ ⟨-, rfl, rfl⟩
    simp only [EmsBuf.setTag_tag, EmsBuf.setWord_tag,
      Function.update_of_ne (data_ne_queueBottom idx)]
    rw [takes]
    have held := (locked.setWord queueBottom_control
      (ledger.buf.word queueBottom + 1)).storeFE (EMSdataCell idx) .busy
    simp only [EmsBuf.setTag_tag, EmsBuf.setWord_tag,
      Function.update_of_ne (data_ne_queueBottom idx)] at held
    have released := held.storeFE (EMSdataCell idx) .empty
    simp only [EmsBuf.setTag_tag, Function.update_self] at released
    split
    case h_1 kind | h_2 kind | h_3 kind =>
      apply load_ends
      apply storeTag_ends
      apply storeFE_ends
      refine ⟨fun text => ?_, fun _ => ?_⟩
      · rw [kind] at text
        exact absurd text (by decide)
      · exact ⟨⟨_, _, released.storeFE _ _⟩, position⟩
    case h_4 kind | h_5 kind =>
      apply storeTag_ends
      apply storeFE_ends
      apply takeText_ends small (released.storeFE _ _) below
      · simp [kind, EMSType.IsText, data_ne_queueBottom]
      intro _ _ after dangles
      refine ⟨fun _ => dangles, fun noText => ?_⟩
      exact absurd (by simp [kind, EMSType.IsText]) noText
    case h_6 kind =>
      apply storeTag_ends
      apply storeFE_ends
      refine ⟨fun text => ?_, fun _ => ?_⟩
      · rw [kind] at text
        exact absurd text (by decide)
      · exact ⟨⟨_, _, released.storeFE _ _⟩, position⟩
    case h_7 noJson noString _ =>
      refine ⟨fun text => ?_, fun _ => ⟨⟨_, _, held⟩, position⟩⟩
      exact absurd text (not_or_intro noString noJson)

/-! ## Sequences of calls -/

theorem MixedInvariant.write [CRuntime]
    (small : EMS_MEM_BLOCKSZ * 2 ^ level < 2 ^ 63)
    (unmapped : array.isMapped = false)
    (invariant : MixedInvariant array discipline level ledger)
    {i : Int} {value : EMSvalueType} (inside : 0 ≤ i) (below : i < array.nElem)
    (sized : value.Sized) {initialFE finalFE : Option FE} :
    ledgerSolo.Ends (fun _ after => MixedInvariant array discipline level after)
      (EMSwriteUsingTags patience array
        (scalar .integer i) value initialFE finalFE) ledger := by
  obtain ⟨⟨kept, store, holds⟩, position⟩ := invariant
  obtain ⟨idx, rfl⟩ := Int.eq_ofNat_of_zero_le inside
  apply (EMSwriteUsingTags_alone small unmapped sized holds below).mono
  rintro _ after ⟨-, stored, frame, -⟩
  refine ⟨⟨_, _, stored⟩, ?_⟩
  have top := frame.word _ (data_ne_stackTop idx).symm
  have bottom := frame.word _ (data_ne_queueBottom idx).symm
  cases discipline <;> simpa only [Position, top, bottom] using position

/-- A call that takes a string leaves its element dangling, and any other keeps
the invariant. -/
theorem MixedOp.alone [CRuntime] (small : EMS_MEM_BLOCKSZ * 2 ^ level < 2 ^ 63)
    (unmapped : array.isMapped = false)
    (invariant : MixedInvariant array discipline level ledger)
    {op : MixedOp} (allowed : op.Allowed array discipline ledger.buf) :
    ledgerSolo.Ends
      (fun _ after => Took array discipline level
        (op.TakesText array ledger.buf) after)
      (op.code array patience) ledger := by
  have keeps : ∀ {α : Type} {prog : EmsProg α} {f : α → MixedRes},
      ¬ op.TakesText array ledger.buf →
      ledgerSolo.Ends (fun _ after =>
        MixedInvariant array discipline level after) prog ledger →
      ledgerSolo.Ends
        (fun _ after =>
          Took array discipline level (op.TakesText array ledger.buf) after)
        (f <$> prog) ledger := by
    intro α prog f noText ends
    rw [map_eq_pure_bind]
    apply Solo.Ends.bind
    apply ends.mono
    intro _ after kept
    exact ⟨fun text => absurd text noText, fun _ => kept⟩
  cases op with
  | push value =>
      obtain ⟨rfl, sized, room, int32⟩ := allowed
      exact keeps id (EMSpush_alone sized invariant room int32)
  | pop =>
      obtain rfl : discipline = .stack := allowed
      simp only [code, map_eq_pure_bind]
      apply Solo.Ends.bind
      exact EMSpop_alone small invariant
  | enqueue value =>
      obtain ⟨rfl, sized, room, int32⟩ := allowed
      exact keeps id (EMSenqueue_alone sized invariant room int32)
  | dequeue =>
      obtain rfl : discipline = .queue := allowed
      simp only [code, map_eq_pure_bind]
      apply Solo.Ends.bind
      exact EMSdequeue_alone small invariant
  | writeXF idx value | writeXE idx value | writeEF idx value =>
      obtain ⟨inside, below, sized⟩ := allowed
      exact keeps id (invariant.write small unmapped inside below sized)

/-- All elements are EMPTY and undefined, nothing is on the stack or in the
queue, and the heap is fresh. -/
structure InitialMixed (array : EmsArray) (level : Nat) (ledger : Ledger) : Prop
    extends InitialStore array level ledger where
  empty : ∀ i, 0 ≤ i → i < array.nElem →
    (ledger.buf.tag (EMSdataCell i)).fe = .empty
  top : (ledger.buf.tag stackTop).fe = .full ∧ ledger.buf.word stackTop = 0
  bottom : (ledger.buf.tag queueBottom).fe = .full ∧
    ledger.buf.word queueBottom = 0

theorem InitialMixed.invariant (initially : InitialMixed array level ledger) :
    MixedInvariant array discipline level ledger := by
  refine ⟨⟨_, _, initially.toInitialStore.holds⟩, ?_⟩
  have top := initially.top.2
  have bottom := initially.bottom.2
  cases discipline <;> simp [Position, top, bottom]

variable [CRuntime] {start final : Ledger} {events : List MixedEvent}

theorem mixed_invariant (small : EMS_MEM_BLOCKSZ * 2 ^ level < 2 ^ 63)
    (unmapped : array.isMapped = false)
    (initially : InitialMixed array level start)
    (run : Run (MixedStep array discipline) start events final)
    (noText : ∀ e ∈ events, ¬ e.op.TakesText array e.before.buf) :
    MixedInvariant array discipline level final := by
  induction run with
  | nil => exact initially.invariant
  | snoc _ step induction =>
      have before :=
        induction fun e member => noText e (List.mem_append_left _ member)
      have takesNone :=
        noText _ (List.mem_append_right _ (List.mem_singleton_self _))
      cases step with
      | mk call =>
          cases call with
          | mk patience allowed returns =>
              exact ((MixedOp.alone small unmapped before allowed).returns
                returns).invariant
                takesNone

private theorem sound_of_no_text (small : EMS_MEM_BLOCKSZ * 2 ^ level < 2 ^ 63)
    (unmapped : array.isMapped = false)
    (initially : InitialMixed array level start)
    (run : Run (MixedStep array discipline) start events final)
    (noText : ∀ e ∈ events, ¬ e.op.TakesText array e.before.buf) :
    (∀ e ∈ events, HeapSound array e.before) ∧ HeapSound array final := by
  refine ⟨?_, (mixed_invariant small unmapped initially run noText).heapSound⟩
  induction run with
  | nil =>
      intro e member
      cases member
  | @snoc trace state next event before step induction =>
      have noTextBefore : ∀ e ∈ trace, ¬ e.op.TakesText array e.before.buf :=
        fun e member => noText e (List.mem_append_left _ member)
      intro e member
      rcases List.mem_append.mp member with earlier | last
      · exact induction noTextBefore e earlier
      · obtain rfl := List.mem_singleton.mp last
        cases step with
        | mk =>
            exact (mixed_invariant small unmapped initially before
              noTextBefore).heapSound

/-- The first string that is taken leaves an element that refers to nothing. -/
private theorem unsound_of_text (small : EMS_MEM_BLOCKSZ * 2 ^ level < 2 ^ 63)
    (unmapped : array.isMapped = false)
    (initially : InitialMixed array level start)
    (run : Run (MixedStep array discipline) start events final)
    (sound : (∀ e ∈ events, HeapSound array e.before) ∧ HeapSound array final) :
    ∀ e ∈ events, ¬ e.op.TakesText array e.before.buf := by
  induction run with
  | nil =>
      intro e member
      cases member
  | @snoc trace state next event before step induction =>
      obtain ⟨soundBefore, soundAfter⟩ := sound
      cases step with
      | @mk op res _ _ call =>
          have soundHere : HeapSound array state :=
            soundBefore ⟨op, state⟩
              (List.mem_append_right _ (List.mem_singleton_self _))
          have noTextBefore := induction
            ⟨fun e member => soundBefore e (List.mem_append_left _ member),
              soundHere⟩
          have invariant :=
            mixed_invariant small unmapped initially before noTextBefore
          intro e member
          rcases List.mem_append.mp member with earlier | last
          · exact noTextBefore e earlier
          · obtain rfl := List.mem_singleton.mp last
            intro takes
            cases call with
            | mk patience allowed returns =>
                have took :=
                  (MixedOp.alone small unmapped invariant allowed).returns
                    returns
                exact (took.dangles takes).not_sound soundAfter

/-- In a sequence of calls every block that is freed is live and every element
that is a string refers to a live block, exactly if no pop and no dequeue finds
a string. -/
theorem heap_sound_iff (small : EMS_MEM_BLOCKSZ * 2 ^ level < 2 ^ 63)
    (unmapped : array.isMapped = false)
    (initially : InitialMixed array level start)
    (run : Run (MixedStep array discipline) start events final) :
    ((∀ e ∈ events, HeapSound array e.before) ∧ HeapSound array final) ↔
      ∀ e ∈ events, ¬ e.op.TakesText array e.before.buf :=
  ⟨unsound_of_text small unmapped initially run,
    sound_of_no_text small unmapped initially run⟩

end Invariant

/-! ## Two elements -/

theorem mixed_of_calls [CRuntime] {array : EmsArray} {discipline : Discipline}
    {start final : Ledger} {calls : List (MixedOp × MixedRes)}
    (run : Run (ledgerSolo.Call (MixedOp.code array)
      fun op ledger => op.Allowed array discipline ledger.buf) start
        calls final) :
    ∃ events, Run (MixedStep array discipline) start events final := by
  induction run with
  | nil => exact ⟨[], .nil⟩
  | snoc _ call induction =>
      obtain ⟨events, before⟩ := induction
      exact ⟨_, before.snoc (.mk call)⟩

instance EMSvalueType.decidableSized (value : EMSvalueType) :
    Decidable value.Sized :=
  decidable_of_iff (IsValue value.type ∧ (value.type.IsText →
      value.text.bytes.length ≤ value.length ∧ value.length + 32 < 2 ^ 64))
    ⟨fun sized => ⟨sized.1, sized.2⟩, fun sized => ⟨sized.1, sized.2⟩⟩

instance MixedOp.decidableAllowed (array : EmsArray) (discipline : Discipline) :
    (op : MixedOp) → (ledger : Ledger) → Decidable
    (op.Allowed array discipline ledger.buf)
  | .push _, _ | .enqueue _, _ => inferInstanceAs (Decidable (_ ∧ _ ∧ _ ∧ _))
  | .pop, _ => inferInstanceAs (Decidable (discipline = .stack))
  | .dequeue, _ => inferInstanceAs (Decidable (discipline = .queue))
  | .writeXF _ _, _ | .writeXE _ _, _ | .writeEF _ _, _ =>
      inferInstanceAs (Decidable (_ ∧ _ ∧ _))

/-- An array whose elements are all EMPTY, with the ledger of its heap. -/
def emptyLedger : Ledger where
  buf := { uniformBuf ⟨.empty, .undefined, 0⟩ 0 with
    tag := fun cell =>
      if cell = stackTop ∨ cell = queueBottom then ⟨.full, .integer, 0⟩
      else ⟨.empty, .undefined, 0⟩ }
  live := []
  misfreed := false

private theorem emptyLedger_initial (nElem : Int) :
    InitialMixed ⟨nElem, false⟩ 0 emptyLedger := by
  have tag : ∀ i : Int, 0 ≤ i →
      emptyLedger.buf.tag (EMSdataCell i) = ⟨.empty, .undefined, 0⟩ := by
    intro i inside
    simp [emptyLedger, EMSdataCell_ne_stackTop inside,
      EMSdataCell_ne_queueBottom inside]
  refine ⟨⟨?_, rfl, rfl, rfl, rfl⟩, ?_, ⟨rfl, rfl⟩, ⟨rfl, rfl⟩⟩
  · intro i inside _
    rw [tag i inside]
  · intro i inside _
    rw [tag i inside]

theorem heap_sound_iff_pushed :
    let _ := ieeeRuntime
    ∃ events final, Run (MixedStep ⟨2, false⟩ .stack) emptyLedger events final ∧
      (((∀ e ∈ events, HeapSound ⟨2, false⟩ e.before) ∧
        HeapSound ⟨2, false⟩ final) ↔
        ∀ e ∈ events, ¬ e.op.TakesText ⟨2, false⟩ e.before.buf) ∧
      final.live ≠ [] := by
  intro _
  obtain ⟨calls, final, run, live⟩ := ledgerSolo.exists_calls
    (MixedOp.code ⟨2, false⟩)
      (fun op ledger => op.Allowed ⟨2, false⟩ .stack ledger.buf) 1
    emptyLedger [.push hi] (fun played => played.2.live ≠ [])
      (by decide +kernel)
  obtain ⟨events, mixed⟩ := mixed_of_calls run
  exact ⟨events, final, mixed,
    heap_sound_iff (by decide) rfl (emptyLedger_initial 2) mixed,
    by simpa using live⟩

/-- A string is pushed and popped, another takes its block, and the element of
the first is written again: the block of the second is freed. -/
theorem EMSpop_dangles :
    let _ := ieeeRuntime
    ∃ events final, Run (MixedStep ⟨2, false⟩ .stack) emptyLedger events final ∧
      ¬ HeapSound ⟨2, false⟩ final := by
  intro _
  obtain ⟨calls, final, run, checked⟩ := ledgerSolo.exists_calls
    (MixedOp.code ⟨2, false⟩)
      (fun op ledger => op.Allowed ⟨2, false⟩ .stack ledger.buf) 4
    emptyLedger [.push hi, .pop, .writeXF 1 hi, .writeXF 0 (scalar .integer 5)]
    (fun played => played.2.live = [] ∧
      (played.2.buf.tag (EMSdataCell 1)).type = .string)
    (by decide +kernel)
  obtain ⟨events, mixed⟩ := mixed_of_calls run
  refine ⟨events, final, mixed, ?_⟩
  intro sound
  simp only [decide_eq_true_eq] at checked
  obtain ⟨block, member, -⟩ := sound.refers 1 (by decide) (.inl checked.2)
  rw [checked.1] at member
  cases member

end EMS
