import EMS.Queue
import EMS.StackOverflow

/-!
# What overflows a queue

An enqueue takes its ticket and makes the tag of `STACKTOP` busy before it
compares the tickets, and it returns from the middle of its work when the queue
is full or the heap cannot hold its string.  As long as no enqueue comes that
far, the slots are a circular buffer in every run of calls.
-/

namespace EMS

open SharedProgram Interleaving

/-! ## A queue in memory -/

section Shape

variable {array : EmsArray} {level : Nat} {kept : List Block}
  {buf after : EmsBuf}
  {ticket : Nat} {queue : List EMSvalueType} {value : EMSvalueType}
    {live blocks : List Block}

/-- The slots from the one of the ticket on hold the values, the oldest first.
Their blocks are live, and so are the blocks that are kept for others. -/
def Queued (array : EmsArray) (buf : EmsBuf) (kept : List Block) :
    Nat → List EMSvalueType → List Block → Prop
  | _, [], live => live = kept
  | ticket, value :: later, live => ∃ blocks rest, live = blocks ++ rest ∧
      SlotHolds buf (slotOf array ticket) value blocks ∧
      Queued array buf kept (ticket + 1) later rest

theorem Queued.same
    (slots : ∀ k, k < queue.length →
      after.tag (EMSdataCell (slotOf array (ticket + k))) =
          buf.tag (EMSdataCell (slotOf array (ticket + k))) ∧
        after.word (EMSdataCell (slotOf array (ticket + k))) =
          buf.word (EMSdataCell (slotOf array (ticket + k))))
    (heap : ∀ block ∈ live, block.Same buf.heap after.heap)
    (queued : Queued array buf kept ticket queue live) :
    Queued array after kept ticket queue live := by
  induction queue generalizing ticket live with
  | nil => exact queued
  | cons value later induction =>
      obtain ⟨blocks, rest, rfl, ⟨type, contents⟩, queued⟩ := queued
      obtain ⟨sameTag, sameWord⟩ := slots 0 (by simp)
      rw [Nat.add_zero] at sameTag sameWord
      refine ⟨blocks, rest, rfl, ⟨by rw [sameTag, type], ?_⟩, ?_⟩
      · rw [sameWord]
        exact contents.same fun block member =>
          heap block (List.mem_append_left _ member)
      · refine induction (fun k inside => ?_) ?_ queued
        · have slot := slots (k + 1) (by simpa using inside)
          rwa [← Nat.add_assoc, Nat.add_right_comm] at slot
        · exact fun block member => heap block (List.mem_append_right _ member)

/-- One more value at the end. -/
theorem Queued.add (queued : Queued array buf kept ticket queue live)
    (holds : SlotHolds buf
      (slotOf array (ticket + queue.length)) value blocks) :
    ∃ live', live'.Perm (blocks ++ live) ∧
      Queued array buf kept ticket (queue ++ [value]) live' := by
  induction queue generalizing ticket live with
  | nil =>
      cases queued
      exact ⟨blocks ++ kept, .refl _, blocks, kept, rfl, holds, rfl⟩
  | cons oldest later induction =>
      obtain ⟨own, rest, rfl, here, queued⟩ := queued
      rw [List.length_cons, Nat.add_comm later.length, ← Nat.add_assoc] at holds
      obtain ⟨live', same, queued⟩ := induction queued holds
      refine ⟨own ++ live', ?_, own, live', rfl, here, queued⟩
      exact (same.append_left own).trans
        (List.perm_append_comm_assoc own blocks rest)

/-- The memory holds the queue, the next ticket to be taken first, and nobody is
working on it. -/
structure QueueShape (array : EmsArray) (level : Nat) (kept : List Block)
    (buf : EmsBuf)
    (taken : Nat) (queue : List EMSvalueType) : Prop where
  top : buf.word stackTop = taken + queue.length
  bottom : buf.word queueBottom = taken
  topFree : (buf.tag stackTop).fe = .full
  bottomFree : (buf.tag queueBottom).fe = .full
  room : (queue.length : Int) ≤ array.nElem
  filled : ∀ k, k < queue.length →
    (buf.tag (EMSdataCell (slotOf array (taken + k)))).fe = .full
  vacant : ∀ i : Int, 0 ≤ i → i < array.nElem →
    (∀ k, k < queue.length → slotOf array (taken + k) ≠ i) →
    (buf.tag (EMSdataCell i)).fe = .empty
  mutex : buf.memMutex = .empty
  entries : ∃ live, (∃ tree, HeapShape level ⟨buf.mem, live⟩ tree) ∧
    Queued array buf kept taken queue live

theorem EmptyQueue.shape (initially : EmptyQueue array level kept buf)
    (mutex : buf.memMutex = .empty) (positive : 0 < array.nElem) :
    QueueShape array level kept buf 0 [] where
  top := initially.top
  bottom := initially.bottom
  topFree := initially.topFree
  bottomFree := initially.bottomFree
  room := by
    simp only [List.length_nil, Nat.cast_zero]
    omega
  filled := fun k inside => absurd inside (by simp)
  vacant := fun i inside below _ => initially.empty i inside below
  mutex := mutex
  entries := ⟨kept, initially.heap, rfl⟩

theorem slotOf_ne {k k' : Nat} (before : k < k')
    (lap : (k' : Int) < k + array.nElem) :
    slotOf array k ≠ slotOf array k' :=
  fun same => absurd (slotOf_inj same before.le lap) before.ne

/-- The queue with one more value. -/
theorem QueueShape.add (shape : QueueShape array level kept buf ticket queue)
    (entries : Queued array buf kept ticket queue live)
    (room : (queue.length : Int) < array.nElem)
    (top : after.word stackTop = ticket + queue.length + 1)
    (bottom : after.word queueBottom = buf.word queueBottom)
    (topFree : (after.tag stackTop).fe = .full)
    (bottomFree : after.tag queueBottom = buf.tag queueBottom)
    (mutex : after.memMutex = .empty)
    (others : ∀ i : Int, 0 ≤ i → i ≠ slotOf array (ticket + queue.length) →
      after.tag (EMSdataCell i) = buf.tag (EMSdataCell i) ∧
        after.word (EMSdataCell i) = buf.word (EMSdataCell i))
    (full : (after.tag
      (EMSdataCell (slotOf array (ticket + queue.length)))).fe = .full)
    (holds : SlotHolds after
      (slotOf array (ticket + queue.length)) value blocks)
    (heap : ∀ block ∈ live, block.Same buf.heap after.heap)
    (heapShape : ∃ tree, HeapShape level ⟨after.mem, blocks ++ live⟩ tree) :
    QueueShape array level kept after ticket (queue ++ [value]) := by
  have positive : 0 < array.nElem := by omega
  have different : ∀ k, k < queue.length →
      slotOf array (ticket + k) ≠ slotOf array (ticket + queue.length) :=
    fun k inside => slotOf_ne (by omega) (by omega)
  constructor
  · rw [top, List.length_append, List.length_singleton]
    omega
  · rw [bottom, shape.bottom]
  · exact topFree
  · rw [bottomFree, shape.bottomFree]
  · rw [List.length_append, List.length_singleton]
    omega
  · intro k inside
    rw [List.length_append, List.length_singleton, Nat.lt_succ_iff] at inside
    rcases inside.lt_or_eq with earlier | last
    · rw [(others _ (slotOf_nonneg positive _) (different k earlier)).1,
        shape.filled k earlier]
    · rw [last, full]
  · intro i inside below apart
    simp only [List.length_append, List.length_singleton,
      Nat.lt_succ_iff] at apart
    have notLast : i ≠ slotOf array (ticket + queue.length) :=
      (apart _ le_rfl).symm
    rw [(others i inside notLast).1]
    exact shape.vacant i inside below fun k earlier => apart k earlier.le
  · exact mutex
  · obtain ⟨tree, heapShape⟩ := heapShape
    have kept := entries.same
      (fun k inside => others _ (slotOf_nonneg positive _) (different k inside))
        heap
    obtain ⟨live', same, queued⟩ := kept.add holds
    exact ⟨live', ⟨tree, heapShape.perm same⟩, queued⟩

/-- The queue without its oldest value. -/
theorem QueueShape.take
    (shape : QueueShape array level kept buf ticket (value :: queue))
    (entries : Queued array buf kept (ticket + 1) queue live)
    (top : after.word stackTop = buf.word stackTop)
    (bottom : after.word queueBottom = ticket + 1)
    (topFree : after.tag stackTop = buf.tag stackTop)
    (bottomFree : (after.tag queueBottom).fe = .full)
    (mutex : after.memMutex = .empty)
    (others : ∀ i : Int, 0 ≤ i → i ≠ slotOf array ticket →
      after.tag (EMSdataCell i) = buf.tag (EMSdataCell i) ∧
        after.word (EMSdataCell i) = buf.word (EMSdataCell i))
    (empty : (after.tag (EMSdataCell (slotOf array ticket))).fe = .empty)
    (heap : after.heap = buf.heap)
    (heapShape : ∃ tree, HeapShape level ⟨after.mem, live⟩ tree) :
    QueueShape array level kept after (ticket + 1) queue := by
  have room := shape.room
  rw [List.length_cons] at room
  have positive : 0 < array.nElem := by omega
  have shifted : ∀ k, ticket + 1 + k = ticket + (k + 1) := fun k => by omega
  have different : ∀ k, k < queue.length →
      slotOf array (ticket + 1 + k) ≠ slotOf array ticket :=
    fun k inside => (slotOf_ne (by omega) (by omega)).symm
  constructor
  · rw [top, shape.top, List.length_cons]
    omega
  · rw [bottom, Nat.cast_add, Nat.cast_one]
  · rw [topFree, shape.topFree]
  · exact bottomFree
  · omega
  · intro k inside
    rw [(others _ (slotOf_nonneg positive _) (different k inside)).1, shifted]
    exact shape.filled (k + 1) (by simpa using inside)
  · intro i inside below apart
    by_cases same : i = slotOf array ticket
    · rw [same, empty]
    · rw [(others i inside same).1]
      refine shape.vacant i inside below fun k earlier => ?_
      cases k with
      | zero => exact Ne.symm same
      | succ k =>
          rw [← shifted]
          exact apart k (by simpa using earlier)
  · exact mutex
  · refine ⟨live, heapShape, entries.same (fun k inside => ?_) ?_⟩
    · exact others _ (slotOf_nonneg positive _) (different k inside)
    · exact fun block _ a _ _ => by rw [heap]

end Shape

/-! ## One call -/

section Calls

variable {array : EmsArray} {level : Nat} {kept : List Block} {buf : EmsBuf}
  {taken : Nat}
  {queue : List EMSvalueType} {patience : Nat} {spins : Prop}
    {value : EMSvalueType}

/-- A value of one of the types, for a slot whose number has 32 bits. -/
def QueueOp.Admitted (array : EmsArray) : QueueOp → EmsBuf → Prop
  | .enqueue value, buf =>
    value.Fits ∧ (buf.word stackTop).tmod array.nElem < 2 ^ 31
  | .dequeue, _ => True

/-- An enqueue finds the queue not full, and the heap can hold its string. -/
def QueueOp.HasRoom (array : EmsArray) : QueueOp → EmsBuf → Prop
  | .enqueue value, buf =>
      buf.word stackTop - buf.word queueBottom < array.nElem ∧
        CanHold buf.mem value
  | .dequeue, _ => True

/-- A call that is admitted and has room. -/
def QueueOp.Within (array : EmsArray) (op : QueueOp) (buf : EmsBuf) : Prop :=
  op.Admitted array buf ∧ op.HasRoom array buf

instance QueueOp.decidableAdmitted (array : EmsArray) :
    (op : QueueOp) → (buf : EmsBuf) → Decidable (op.Admitted array buf)
  | .enqueue _, _ => inferInstanceAs (Decidable (_ ∧ _))
  | .dequeue, _ => isTrue trivial

instance QueueOp.decidableHasRoom (array : EmsArray) :
    (op : QueueOp) → (buf : EmsBuf) → Decidable (op.HasRoom array buf)
  | .enqueue _, _ => inferInstanceAs (Decidable (_ ∧ _))
  | .dequeue, _ => isTrue trivial

instance (array : EmsArray) (op : QueueOp) (buf : EmsBuf) :
    Decidable (op.Within array buf) :=
  inferInstanceAs (Decidable (_ ∧ _))

/-- `STACKTOP`, `Q_BOTTOM`, their tags, the elements and the heap are as they
were. -/
structure QueueUnchanged (array : EmsArray) (buf after : EmsBuf) : Prop
    extends StackUnchanged array buf after where
  bottom : after.word queueBottom = buf.word queueBottom
  bottomTag : after.tag queueBottom = buf.tag queueBottom

/-- A queue of values.  An enqueue fails only if as many values are queued as
there are elements, or if the heap cannot hold its string, and it then changes
nothing. -/
inductive QueueLaw (array : EmsArray) :
    List EMSvalueType × EmsBuf → QueueOp × EntryRes →
      List EMSvalueType × EmsBuf → Prop where
  | enqueued {queue : List EMSvalueType} {buf after : EmsBuf}
      {value : EMSvalueType} {idx : Int} :
      QueueLaw array (queue, buf) (.enqueue value, .index (.ok idx))
        (queue ++ [value], after)
  | refused {queue : List EMSvalueType} {buf after : EmsBuf}
      {value : EMSvalueType}
      {error : EMSError} :
      array.nElem ≤ queue.length ∨ ¬ CanHold buf.mem value →
        QueueUnchanged array buf after →
      QueueLaw array (queue, buf) (.enqueue value, .index (.error error))
        (queue, after)
  | dequeued {queue : List EMSvalueType} {buf after : EmsBuf}
      {value : EMSvalueType} :
      QueueLaw array (value :: queue, buf) (.dequeue, .value (.ok value.back))
        (queue, after)
  | nothing {buf after : EmsBuf} :
      QueueLaw array ([], buf) (.dequeue, .value (.ok nothingThere)) ([], after)

/-- The memory holds the queue, whatever the number of the next ticket. -/
def QueueInOrder (array : EmsArray) (level : Nat) (kept : List Block)
    (queue : List EMSvalueType) (buf : EmsBuf) : Prop :=
  ∃ taken, QueueShape array level kept buf taken queue

/-- How an enqueue or a dequeue ends on a queue in order. -/
abbrev QueueEnds (array : EmsArray) (level : Nat) (kept : List Block) :
    List EMSvalueType → QueueOp → EmsBuf → EntryRes → EmsBuf → Prop :=
  CallEnds (QueueOp.HasRoom array) (QueueInOrder array level kept)
    (QueueLaw array)

private theorem alone_storeRW {α : Type} {post : α → EmsBuf → Prop}
    {cell : Cell} {rw : Fin 8}
    {rest : Unit → EmsProg α}
    (ends : (aloneSolo spins).Ends post (rest ())
      (buf.setTag cell { buf.tag cell with rw := rw })) :
    (aloneSolo spins).Ends post (storeRW cell rw >>= rest) buf :=
  alone_loadTag (alone_storeTag ends)

private theorem alone_storeType {α : Type} {post : α → EmsBuf → Prop}
    {cell : Cell} {type : EMSType}
    {rest : Unit → EmsProg α}
    (ends : (aloneSolo spins).Ends post (rest ())
      (buf.setTag cell { buf.tag cell with type := type })) :
    (aloneSolo spins).Ends post (storeType cell type >>= rest) buf :=
  alone_loadTag (alone_storeTag ends)

theorem EMSenqueue_ends (fits : value.Fits)
    (shape : QueueShape array level kept buf taken queue)
    (positive : 0 < array.nElem)
    (bounded : ((taken + queue.length : Nat) : Int) % array.nElem < 2 ^ 31)
    (patient : patience = 0 → spins) :
    (aloneSolo spins).Ends
      (fun res => QueueEnds array level kept queue (.enqueue value) buf
        (.index res))
      (EMSenqueue patience array value) buf := by
  have top : buf.word stackTop = (taken + queue.length : Nat) := by
    rw [shape.top, Nat.cast_add]
  have index := toInt32_slot positive bounded
  generalize isSlot : slotOf array (taken + queue.length) = slot at index
  have inside : 0 ≤ slot := isSlot ▸ slotOf_nonneg positive _
  have notTop : EMSdataCell slot ≠ stackTop := EMSdataCell_ne_stackTop inside
  have notBottom : EMSdataCell slot ≠ queueBottom :=
    EMSdataCell_ne_queueBottom inside
  obtain ⟨live, ⟨tree, heapShape⟩, entries⟩ := shape.entries
  rw [EMSenqueue]
  apply alone_transition shape.topFree patient
  apply alone_load
  apply alone_load
  apply alone_store
  apply alone_load
  apply alone_load
  simp only [EmsBuf.setTag_word, EmsBuf.setWord_word, top, index,
    Function.update_self,
    Function.update_of_ne (Ne.symm stackTop_ne_queueBottom), shape.bottom]
  by_cases full : array.nElem < ((taken + queue.length : Nat) : Int) + 1 - taken
  · rw [if_pos full]
    have noRoom : ¬ (QueueOp.enqueue value).HasRoom array buf := by
      rintro ⟨room, -⟩
      rw [top, shape.bottom] at room
      omega
    exact .of_overflow noRoom (by simp) (by simp [top])
  · rw [if_neg full]
    have room : (queue.length : Int) < array.nElem := by omega
    apply alone_storeRW
    apply alone_storeType
    apply alone_loadTag
    simp only [EmsBuf.setTag_tag, Function.update_self]
    -- what the memory is while the slot is filled
    generalize isHeld : EmsBuf.setTag _ (EMSdataCell _) _ = held
    have mem : held.mem = buf.mem := by simp [← isHeld]
    have mutex : held.memMutex = .empty := by simpa [← isHeld] using shape.mutex
    rw [← mem] at heapShape
    by_cases canHold : CanHold held.mem value
    · have hasRoom : (QueueOp.enqueue value).HasRoom array buf :=
        ⟨by rw [top, shape.bottom]; omega, mem ▸ canHold⟩
      apply Solo.Ends.bind
      apply (alone_storeEntry fits heapShape mutex patient canHold).mono
      rintro _ after ⟨rfl, blocks, stored⟩
      apply alone_storeFE
      apply alone_storeFE
      refine .of_room hasRoom .enqueued
        ⟨taken, shape.add entries room ?_ ?_ ?_ ?_ ?_ ?_ ?_ ⟨?_, ?_⟩ ?_
          stored.shape⟩
      · simp [stored.word _ (Ne.symm notTop), ← isHeld, Ne.symm notTop]
      · simp [stored.word _ (Ne.symm notBottom), ← isHeld,
          Ne.symm stackTop_ne_queueBottom]
      · simp
      · simp [stored.tag, ← isHeld, Ne.symm notBottom,
          Ne.symm stackTop_ne_queueBottom]
      · simpa [stored.mutex] using mutex
      · intro i insideI other
        rw [isSlot] at other
        have apart : EMSdataCell i ≠ stackTop := EMSdataCell_ne_stackTop insideI
        have notSlot : EMSdataCell i ≠ EMSdataCell slot := by simpa using other
        simp [stored.word _ notSlot, stored.tag, apart, other, ← isHeld]
      · simp [isSlot, notTop]
      · simp [isSlot, notTop, stored.tag, ← isHeld]
      · simpa [isSlot] using stored.contents
      · simpa [← isHeld] using stored.heap
    · have noRoom : ¬ (QueueOp.enqueue value).HasRoom array buf := by
        rintro ⟨-, holds⟩
        exact canHold (mem ▸ holds)
      apply (alone_storeEntry_refused fits heapShape mutex patient canHold).bind
      apply CallEnds.of_overflow noRoom
      · simp [← isHeld, Ne.symm notTop]
      · simp [← isHeld, top]

/-- The end of a dequeue: the slot is empty, and `Q_BOTTOM` is released. -/
theorem alone_dequeued {before : EmsBuf} {live : List Block} {tree : BuddyTree}
    {tag bottomTag : Tag} {result : EMSvalueType}
    (shape : QueueShape array level kept buf taken (value :: queue))
    (entries : Queued array buf kept (taken + 1) queue live)
    (word : before.word = (buf.setWord queueBottom (taken + 1)).word)
    (tags : before.tag = ((buf.setTag queueBottom bottomTag).setTag
      (EMSdataCell (slotOf array taken)) tag).tag)
    (mutex : before.memMutex = .empty) (heap : before.heap = buf.heap)
    {mem : EmsMem}
    (heapShape : HeapShape level ⟨mem, live⟩ tree) (empty : tag.fe = .empty)
    (full : bottomTag.fe = .full) (isBack : result = value.back) :
    QueueEnds array level kept (value :: queue) .dequeue buf
      (.value (.ok result))
      (before.setMem mem) := by
  subst isBack
  have room := shape.room
  rw [List.length_cons] at room
  have positive : 0 < array.nElem := by omega
  have inside := slotOf_nonneg positive taken
  have notTop : EMSdataCell (slotOf array taken) ≠ stackTop :=
    EMSdataCell_ne_stackTop inside
  have notBottom : EMSdataCell (slotOf array taken) ≠ queueBottom :=
    EMSdataCell_ne_queueBottom inside
  refine .of_room (show QueueOp.dequeue.HasRoom array buf
    from trivial) .dequeued
    ⟨taken + 1, shape.take entries ?_ ?_ ?_ ?_ mutex ?_ ?_ heap
      ⟨tree, heapShape⟩⟩
  · simp [word, stackTop_ne_queueBottom]
  · simp [word]
  · simp [tags, Ne.symm notTop, stackTop_ne_queueBottom]
  · simpa [tags, Ne.symm notBottom] using full
  · intro i insideI other
    have apart : EMSdataCell i ≠ queueBottom :=
      EMSdataCell_ne_queueBottom insideI
    simp [word, tags, apart, other]
  · simpa [tags] using empty

theorem EMSdequeue_ends (small : EMS_MEM_BLOCKSZ * 2 ^ level < 2 ^ 63)
    (shape : QueueShape array level kept buf taken queue)
    (positive : 0 < array.nElem)
    (patient : patience = 0 → spins)
    (reaches : ∀ value ∈ queue, patience ≤ value.text.bytes.length → spins) :
    (aloneSolo spins).Ends
      (fun res => QueueEnds array level kept queue .dequeue buf (.value res))
      (EMSdequeue patience array) buf := by
  have bottom := shape.bottom
  have top := shape.top
  rw [EMSdequeue]
  apply alone_transition shape.bottomFree patient
  apply alone_load
  apply alone_load
  apply alone_load
  simp only [EmsBuf.setTag_word, bottom, top]
  cases queue with
  | nil =>
      rw [if_pos (by simp)]
      apply alone_load
      apply alone_store
      apply alone_storeFE
      obtain ⟨live, heapShape, entries⟩ := shape.entries
      refine .of_room (show QueueOp.dequeue.HasRoom array buf from trivial)
        .nothing ⟨taken, ?_⟩
      refine ⟨?_, ?_,
        ?_, by simp, shape.room, ?_, ?_, shape.mutex, live, heapShape, entries⟩
      · simp [stackTop_ne_queueBottom, top]
      · simp [top]
      · simpa [stackTop_ne_queueBottom] using shape.topFree
      · exact fun k inside => absurd inside (by simp)
      · intro i inside below apart
        simpa [EMSdataCell_ne_queueBottom inside] using shape.vacant i
          inside below apart
  | cons value later =>
      obtain ⟨live, ⟨tree, heapShape⟩, entries⟩ := shape.entries
      obtain ⟨blocks, rest, rfl, ⟨type, contents⟩, entries⟩ := entries
      have inside := slotOf_nonneg positive taken
      have notBottom : EMSdataCell (slotOf array taken) ≠ queueBottom :=
        EMSdataCell_ne_queueBottom inside
      have full : (buf.tag (EMSdataCell (slotOf array taken))).fe = .full := by
        simpa using shape.filled 0 (by simp)
      have index : (taken : Int).tmod array.nElem = slotOf array taken :=
        Int.tmod_eq_emod_of_nonneg (by omega)
      rw [List.length_cons, if_neg (by omega), index]
      apply alone_load
      apply alone_store
      refine alone_transition ?_ patient ?_
      · simpa [notBottom] using full
      simp only [EmsBuf.setWord_tag, EmsBuf.setTag_tag,
        Function.update_of_ne notBottom, type]
      -- what the memory is while the slot is busy
      generalize isHeld : EmsBuf.setTag _ (EMSdataCell _) _ = held
      have sameWord : held.word (EMSdataCell (slotOf array taken)) =
          buf.word (EMSdataCell (slotOf array taken)) := by
            simp [← isHeld, notBottom]
      have mutex : held.memMutex = .empty := by
        simpa [← isHeld] using shape.mutex
      have heap : held.heap = buf.heap := by simp [← isHeld]
      have mem : held.mem = buf.mem := by simp [← isHeld]
      have leaves : ∀ (before : EmsBuf) (result : EMSvalueType) (mem : EmsMem)
          (tag bottomTag : Tag),
            (held.setTag (EMSdataCell (slotOf array taken)) tag).setTag
            queueBottom bottomTag = before →
          (∃ tree, HeapShape level ⟨mem, rest⟩ tree) → tag.fe = .empty →
            bottomTag.fe = .full →
          result = value.back →
          QueueEnds array level kept (value :: later) .dequeue buf
            (.value (.ok result))
            (before.setMem mem) := by
        intro before result mem tag bottomTag isBefore shaped empty full isBack
        obtain ⟨tree, heapShape⟩ := shaped
        subst isBefore
        refine alone_dequeued shape entries ?_ ?_ ?_ ?_ heapShape
          empty full isBack
        · simp [← isHeld, bottom]
        · ext1 cell
          by_cases isBottom : cell = queueBottom
          · simp [isBottom, Ne.symm notBottom]
          · by_cases isSlot : cell = EMSdataCell (slotOf array taken)
            · simp [isSlot, notBottom]
            · simp [isBottom, isSlot, ← isHeld]
        · exact mutex
        · exact heap
      rw [← mem] at heapShape
      have reachesFirst := reaches value (by simp)
      obtain ⟨valueType, word, text, length⟩ := value
      cases valueType with
      | invalid | unassigned => exact contents.elim
      | boolean | integer | float =>
          obtain ⟨rfl, rfl⟩ := contents
          apply alone_load
          apply alone_storeTag
          apply alone_storeFE
          exact leaves _ _ held.mem _ _ rfl ⟨tree, heapShape⟩ rfl rfl
            (by rw [sameWord]; rfl)
      | undefined =>
          obtain rfl : blocks = [] := contents
          apply alone_storeTag
          apply alone_storeFE
          exact leaves _ _ held.mem _ _ rfl ⟨tree, heapShape⟩ rfl rfl rfl
      | json | string =>
          obtain ⟨address, isAddress, rfl, holds⟩ := contents
          have member : text.block address ∈ [text.block address] ++ rest := by
            simp
          obtain ⟨mem', given, success, heapShape'⟩ := heapShape.free member
          rw [List.singleton_append, List.erase_cons_head] at heapShape'
          have bound := (heapShape.safe small).addressable _ member
          simp only [CString.block] at bound
          have unwrapped : ((address : Int) % 2 ^ 64).toNat = address := by
            omega
          apply alone_storeTag
          apply alone_storeFE
          -- the slot is given up before the string is copied
          generalize isBefore : EmsBuf.setTag _ queueBottom _ = before
          have word : before.word (EMSdataCell (slotOf array taken)) =
              address := by
            rw [← isAddress, ← sameWord, ← isBefore]
            rfl
          have mutex' : before.memMutex = .empty := isBefore ▸ mutex
          have holds' : HeapHolds before.heap address text.bytes := by
            rw [← isBefore]
            exact heap ▸ holds
          have success' : emsMem_free before.mem
              ((address : Int) % 2 ^ 64).toNat = .ok mem' := by
            rw [unwrapped, ← isBefore]
            exact success
          apply alone_load
          rw [word]
          apply (heapStrlen_yields holds' (fun _ _ _ => trivial)
            reachesFirst).bind
          apply alone_load
          rw [word]
          apply (copyFromHeap_yields holds' (fun _ _ _ => trivial)
            reachesFirst).bind
          apply alone_load
          rw [word]
          apply (emsMutexMem_free_yields mutex' (fun _ _ => trivial)
            (fun _ => trivial) patient
            trivial success').bind
          exact leaves _ _ mem' _ _ isBefore ⟨given, heapShape'⟩ rfl rfl rfl

theorem QueueOp.code_ends {op : QueueOp}
    (small : EMS_MEM_BLOCKSZ * 2 ^ level < 2 ^ 63)
    (positive : 0 < array.nElem)
    (ordered : QueueInOrder array level kept queue buf)
    (admitted : op.Admitted array buf)
    (patient : ¬ Patient patience queue → spins) :
    (aloneSolo spins).Ends (QueueEnds array level kept queue op buf)
    (op.code array patience)
      buf := by
  obtain ⟨taken, shape⟩ := ordered
  have some : patience = 0 → spins := by
    rintro rfl
    exact patient fun both => absurd both.1 (lt_irrefl 0)
  cases op with
  | enqueue value =>
      obtain ⟨fits, bounded⟩ := admitted
      rw [shape.top, ← Nat.cast_add,
        Int.tmod_eq_emod_of_nonneg (by omega)] at bounded
      rw [QueueOp.code, ← bind_pure_comp]
      apply Solo.Ends.bind
      exact EMSenqueue_ends fits shape positive bounded some
  | dequeue =>
      rw [QueueOp.code, ← bind_pure_comp]
      apply Solo.Ends.bind
      refine EMSdequeue_ends small shape positive some fun value member
        short => patient ?_
      intro both
      exact absurd (both.2 value member) (by omega)

theorem queueFollows (small : EMS_MEM_BLOCKSZ * 2 ^ level < 2 ^ 63)
    (positive : 0 < array.nElem) :
    Follows (QueueOp.code array) (QueueOp.Admitted array)
      (QueueOp.HasRoom array)
      (QueueInOrder array level kept) (QueueLaw array) where
  ends := fun ordered admitted patient =>
    QueueOp.code_ends small positive ordered admitted patient
  lawless := by
    intro op queue next buf after error overflowed noRoom lawful
    cases lawful with
    | refused _ unchanged =>
        have counted := overflowed.counted
        rw [unchanged.top] at counted
        omega

/-- In every run of calls that have room, enqueues and dequeues follow the law,
and every call that is admitted next returns. -/
theorem queue_capacity (small : EMS_MEM_BLOCKSZ * 2 ^ level < 2 ^ 63)
    (positive : 0 < array.nElem)
    {after : EmsBuf} {history : List (QueueOp × EntryRes)}
    (initially : EmptyQueue array level kept buf)
    (mutex : buf.memMutex = .empty)
    (calls : Run ((aloneSolo True).Call (QueueOp.code array)
      (QueueOp.Within array)) buf history
      after) :
    ∃ queue, Run (LawfulCall (QueueOp.code array) (QueueOp.Within array)
      (QueueLaw array))
        ([], buf) history (queue, after) ∧
          QueueInOrder array level kept queue after ∧
      ∀ op : QueueOp, op.Admitted array after →
        NextCall (QueueOp.code array) (QueueOp.HasRoom array) (QueueLaw array)
          queue after op :=
  (queueFollows small positive).run ⟨0, initially.shape mutex positive⟩ calls

end Calls

/-- A string in a queue of one slot, twice around it. -/
theorem queue_capacity_string :
    ∃ history after queue,
      Run (LawfulCall (QueueOp.code shortQueue) (QueueOp.Within shortQueue)
        (QueueLaw shortQueue)) ([], emptyQueueBuf) history (queue, after) ∧
      (history.any fun label => match label with
        | (_, .value (.ok value)) => value = shortString
        | _ => false) = true := by
  obtain ⟨history, after, calls, dequeued⟩ := (aloneSolo True).exists_calls
    (QueueOp.code shortQueue) (QueueOp.Within shortQueue) 8 emptyQueueBuf
    [.enqueue shortString, .dequeue, .enqueue shortString, .dequeue, .dequeue]
    (fun played => played.1.any fun label => match label with
      | (_, .value (.ok value)) => value = shortString
      | _ => false) (by decide +kernel)
  obtain ⟨queue, run, -⟩ :=
    queue_capacity (by decide) (by decide) emptyQueueBuf_empty rfl calls
  exact ⟨history, after, queue, run, dequeued⟩

/-- There has been one call, an enqueue that has failed. -/
def onlyEnqueueFailed : List (QueueOp × EntryRes) → Bool
  | [(.enqueue _, .index (.error _))] => true
  | _ => false

/-- An enqueue of a string that the heap cannot hold fails and leaves the queue
busy. -/
theorem not_queue_capacity :
    ¬ ∀ (array : EmsArray) (level : Nat) (kept : List Block)
      (buf after : EmsBuf)
      (history : List (QueueOp × EntryRes)), 0 < array.nElem →
      EMS_MEM_BLOCKSZ * 2 ^ level < 2 ^ 63 → EmptyQueue array level kept buf →
      buf.memMutex = .empty →
      Run ((aloneSolo True).Call (QueueOp.code array) (QueueOp.Admitted array))
        buf history
        after →
      ∃ queue, Run (LawfulCall (QueueOp.code array) (QueueOp.Admitted array)
        (QueueLaw array))
        ([], buf) history (queue, after) := by
  intro claim
  obtain ⟨history, after, calls, failed⟩ := (aloneSolo True).exists_calls
    (QueueOp.code shortQueue) (QueueOp.Admitted shortQueue) 2 emptyQueueBuf
    [.enqueue longString]
    (fun played => onlyEnqueueFailed played.1 ∧ played.2.word stackTop = 1)
      (by decide +kernel)
  obtain ⟨queue, run⟩ :=
    claim shortQueue 0 [] emptyQueueBuf after history (by decide) (by decide)
    emptyQueueBuf_empty rfl calls
  obtain ⟨failed, one⟩ := of_decide_eq_true failed
  unfold onlyEnqueueFailed at failed
  split at failed
  next value error isHistory =>
    obtain rfl : history = _ := isHistory
    cases run.single.lawful with
    | refused _ unchanged =>
        have top : after.word stackTop = 0 := unchanged.top
        rw [top] at one
        cases one
  · cases failed

end EMS
