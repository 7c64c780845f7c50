import EMS.QueueOverflow

/-!
# The order of a queue

A process alone enqueues and dequeues, and never enqueues into a full queue.
`Q_BOTTOM` and `STACKTOP` count the values that have come and gone, and a value
is in the slot of its number, modulo the number of slots.
-/

namespace EMS

open SharedProgram Interleaving

/-- What a first-in-first-out queue does. -/
inductive Fifo :
    List EMSvalueType → QueueOp × EntryRes → List EMSvalueType → Prop where
  | enqueued {queue : List EMSvalueType} {value : EMSvalueType} {idx : Int} :
      Fifo queue (.enqueue value, .index (.ok idx)) (queue ++ [value])
  | dequeued {queue : List EMSvalueType} {value : EMSvalueType} :
      Fifo (value :: queue) (.dequeue, .value (.ok value.back)) queue
  | nothing : Fifo [] (.dequeue, .value (.ok nothingThere)) []

/-- The values are in the slots from `Q_BOTTOM` on, and only these slots are
full. -/
structure FifoMemory (array : EmsArray) (queue : List EMSvalueType)
    (buf : EmsBuf) : Prop where
  counted : buf.word stackTop = buf.word queueBottom + queue.length
  room : (queue.length : Int) ≤ array.nElem
  full_iff : ∀ i : Int, 0 ≤ i → i < array.nElem →
    ((buf.tag (EMSdataCell i)).fe = .full ↔
      ∃ k : Nat, k < queue.length ∧
        (buf.word queueBottom + k) % array.nElem = i)
  holds : ∀ (k : Nat) (value : EMSvalueType), queue[k]? = some value →
    ∃ blocks, SlotHolds buf ((buf.word queueBottom + k) % array.nElem)
      value blocks

/-- A value of one of the types; the queue has a free slot for it, and the heap
can hold its string. -/
def QueueOp.Orderly (array : EmsArray) (op : QueueOp) (buf : EmsBuf) : Prop :=
  op.Fits ∧ op.HasRoom array buf

instance (array : EmsArray) (op : QueueOp) (buf : EmsBuf) :
    Decidable (op.Orderly array buf) :=
  inferInstanceAs (Decidable (_ ∧ _))

section Order

variable {array : EmsArray} {level : Nat} {kept live : List Block}
  {buf after : EmsBuf}
  {ticket : Nat} {queue next : List EMSvalueType} {label : QueueOp × EntryRes}

theorem Queued.holds
    (queued : Queued array buf kept ticket queue live) {k : Nat}
    {value : EMSvalueType} (found : queue[k]? = some value) :
    ∃ blocks, SlotHolds buf (slotOf array (ticket + k)) value blocks := by
  induction queue generalizing ticket live k with
  | nil => simp at found
  | cons oldest later induction =>
      obtain ⟨blocks, rest, -, here, queued⟩ := queued
      cases k with
      | zero =>
          obtain rfl : oldest = value := by simpa using found
          exact ⟨blocks, here⟩
      | succ k =>
          obtain ⟨own, holds⟩ := induction queued (by simpa using found)
          rw [Nat.add_right_comm, Nat.add_assoc] at holds
          exact ⟨own, holds⟩

/-- A queue in order is in the slots from `Q_BOTTOM` on. -/
theorem QueueInOrder.memory
    (ordered : QueueInOrder array level kept queue buf) :
    FifoMemory array queue buf := by
  obtain ⟨taken, shape⟩ := ordered
  have slot : ∀ k : Nat, (buf.word queueBottom + k) % array.nElem =
      slotOf array (taken + k) := by
    intro k
    rw [shape.bottom, slotOf, Nat.cast_add]
  constructor
  · rw [shape.top, shape.bottom]
  · exact shape.room
  · intro i inside below
    constructor
    · intro full
      by_contra nowhere
      have vacant := shape.vacant i inside below fun k earlier here =>
        nowhere ⟨k, earlier, by rw [slot, here]⟩
      rw [full] at vacant
      cases vacant
    · rintro ⟨k, earlier, rfl⟩
      rw [slot]
      exact shape.filled k earlier
  · intro k value found
    obtain ⟨live, -, queued⟩ := shape.entries
    rw [slot]
    exact queued.holds found

theorem QueueLaw.fifo (lawful : QueueLaw array (queue, buf) label (next, after))
    (ordered : QueueInOrder array level kept queue buf)
    (room : label.1.HasRoom array buf) :
    Fifo queue label next := by
  cases lawful with
  | enqueued => exact .enqueued
  | refused overfull =>
      obtain ⟨free, canHold⟩ := room
      have counted := ordered.memory.counted
      rcases overfull with full | refused
      · omega
      · exact absurd canHold refused
  | dequeued => exact .dequeued
  | nothing => exact .nothing

theorem QueueOp.Orderly.within (positive : 0 < array.nElem)
    (bounded : array.nElem < 2 ^ 31)
    {op : QueueOp} (orderly : op.Orderly array buf) : op.Within array buf := by
  obtain ⟨fits, room⟩ := orderly
  refine ⟨?_, room⟩
  cases op with
  | enqueue value =>
      have below := Int.tmod_lt_of_pos (buf.word stackTop) positive
      exact ⟨fits, by omega⟩
  | dequeue => trivial

private theorem queueFollowsFifo (small : EMS_MEM_BLOCKSZ * 2 ^ level < 2 ^ 63)
    (positive : 0 < array.nElem) :
    Follows (QueueOp.code array) (QueueOp.Admitted array)
      (QueueOp.HasRoom array)
      (QueueInOrder array level kept)
      (fun state label next => Fifo state.1 label next.1) where
  ends := by
    intro op queue buf patience spins ordered admitted patient
    apply ((queueFollows small positive).ends ordered admitted patient).mono
    intro res after ends
    refine ⟨fun here => ?_, ends.overflow⟩
    obtain ⟨next, lawful, ordered'⟩ := ends.room here
    exact ⟨next, lawful.fifo ordered here, ordered'⟩
  lawless := by
    intro op queue next buf after error _ _ fifo
    cases fifo

/-- In every run of calls that have room, the values come out in the order in
which they went in, the full slots are those of the queued values, and the next
call returns. -/
theorem queue_fifo (positive : 0 < array.nElem) (bounded : array.nElem < 2 ^ 31)
    (small : EMS_MEM_BLOCKSZ * 2 ^ level < 2 ^ 63)
    {history : List (QueueOp × EntryRes)}
    (initially : EmptyQueue array level kept buf)
    (mutex : buf.memMutex = .empty)
    (calls : Run ((aloneSolo True).Call (QueueOp.code array)
      (QueueOp.Orderly array)) buf history
      after) :
    ∃ queue, Run Fifo [] history queue ∧ FifoMemory array queue after ∧
      ∀ op : QueueOp, op.Fits → ∃ enough, ∀ patience, enough ≤ patience →
        ∃ res next, (aloneSolo True).Returns (op.code array patience) after
          res next := by
  have within := calls.mono fun _ _ _ call => by
    cases call with
    | mk patience orderly returned =>
        exact Solo.Call.mk patience (orderly.within positive bounded) returned
  obtain ⟨queue, run, ordered, returns⟩ := (queueFollowsFifo small positive).run
    ⟨0, initially.shape mutex positive⟩ within
  refine ⟨queue, ?_, ordered.memory, fun op fits => (returns op ?_).completes⟩
  · exact run.map Prod.fst fun _ _ _ call => call.lawful
  · cases op with
    | enqueue value =>
        have below := Int.tmod_lt_of_pos (after.word stackTop) positive
        exact ⟨fits, by omega⟩
    | dequeue => trivial

end Order

/-- A string and an integer in a queue of one slot, one lap each. -/
theorem queue_fifo_laps :
    ∃ history after queue, Run Fifo [] history queue ∧
      FifoMemory shortQueue queue after ∧
      history.length = 5 := by
  obtain ⟨history, after, calls, counted⟩ := (aloneSolo True).exists_calls
    (QueueOp.code shortQueue) (QueueOp.Orderly shortQueue) 8 emptyQueueBuf
    [.enqueue shortString, .dequeue, .enqueue (scalar .integer 7),
      .dequeue, .dequeue]
    (fun played => played.1.length = 5 ∧
      (played.2.tag (EMSdataCell 0)).fe = .empty)
    (by decide +kernel)
  obtain ⟨queue, run, memory, -⟩ :=
    queue_fifo (by decide) (by decide) (by decide)
    emptyQueueBuf_empty rfl calls
  exact ⟨history, after, queue, run, memory, (of_decide_eq_true counted).1⟩

end EMS
