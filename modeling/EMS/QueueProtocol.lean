import EMS.AtomicObject
import EMS.Slots
import Mathlib.Data.Fintype.Basic
import Mathlib.Data.Int.ModEq

/-!
# The protocol of the shared queue

Enqueues and dequeues take tickets from `STACKTOP` and `Q_BOTTOM`.  The slot of
a ticket goes from the enqueue that fills it to the dequeue with the same
ticket, and back.  An enqueue does not wait for its slot to come back, so the
protocol is only kept while no enqueue overtakes the dequeue that has the slot.
-/

namespace EMS

open SharedProgram Interleaving

inductive QueueOp where
  | enqueue (value : EMSvalueType)
  | dequeue
  deriving DecidableEq

/-! ## The sequential specification -/

/-- The values in the order of their tickets, and how many have been taken. -/
@[ext] structure Tickets where
  enqueued : List EMSvalueType
  taken : Nat

def Tickets.add (queue : Tickets) (value : EMSvalueType) : Tickets :=
  { queue with enqueued := queue.enqueued ++ [value] }

def Tickets.take (queue : Tickets) : Tickets :=
  { queue with taken := queue.taken + 1 }

/-- The slot of a ticket. -/
def slotOf (array : EmsArray) (ticket : Nat) : Int :=
  (ticket : Int) % array.nElem

/-- An enqueue adds a ticket.  A dequeue returns the value of the next ticket,
or it finds nothing. -/
def QueueOp.effect (array : EmsArray) (op : QueueOp) (queue next : Tickets)
    (res : EntryRes) :
    Prop :=
  match op with
  | .enqueue value =>
      next = queue.add value ∧
        res = .index (.ok (slotOf array queue.enqueued.length))
  | .dequeue =>
      (∃ value, queue.enqueued[queue.taken]? = some value ∧ next = queue.take ∧
        res = .value (.ok value.back)) ∨
      (next = queue ∧ res = .value (.ok nothingThere))

/-! ## The machine -/

def QueueOp.code (array : EmsArray) (op : QueueOp) (patience : Nat) :
    EmsProg EntryRes :=
  match op with
  | .enqueue value => EntryRes.index <$> EMSenqueue patience array value
  | .dequeue => EntryRes.value <$> EMSdequeue patience array

def QueueOp.Fits : QueueOp → Prop
  | .enqueue value => value.Fits
  | .dequeue => True

instance QueueOp.decidableFits : (op : QueueOp) → Decidable op.Fits
  | .enqueue value => inferInstanceAs (Decidable value.Fits)
  | .dequeue => isTrue trivial

def EMSType.isText : EMSType → Bool
  | .string | .json => true
  | _ => false

/-- What is remembered of a run to say which steps are careful: who has made the
tag of `STACKTOP` busy, the tickets that dequeues are at work on, and the word
that a process loaded last. -/
structure QueueLog (ι : Type) where
  enqueuer : Option ι
  taking : ι → Option Int
  loaded : ι → Option Cell

/-- The memory of a queue with the log of the run.  No program reads the log. -/
structure QueueMem (ι : Type) where
  buf : EmsBuf
  log : QueueLog ι

section Machine

variable {ι : Type} [DecidableEq ι]

/-- An access is noted.  A dequeue is at work on its ticket until it has emptied
the slot, or released the string that was in it. -/
def QueueLog.note (log : QueueLog ι) (p : ι) (buf : EmsBuf) :
    (act : Access) → Reply act → QueueLog ι
  | .load cell, _ =>
    { log with loaded := Function.update log.loaded p (some cell) }
  | .store cell _, _ =>
      if cell = queueBottom ∧ log.loaded p = some queueBottom then
        { log with taking :=
          Function.update log.taking p (some (buf.word queueBottom)) }
      else log
  | .casTag cell old _, found =>
      if cell = stackTop ∧ found = old then
        { log with enqueuer := some p } else log
  | .storeTag cell tag, _ =>
      if cell = stackTop then { log with enqueuer := none }
      else if log.enqueuer ≠ some p ∧ tag.fe = .empty ∧ ¬ tag.type.isText then
        { log with taking := Function.update log.taking p none }
      else log
  | .memFree _, _ => { log with taking := Function.update log.taking p none }
  | _, _ => log

def queuePerform (p : ι) (act : Access) (mem : QueueMem ι) :
    Reply act × QueueMem ι :=
  ((act.perform mem.buf).1,
    ⟨(act.perform mem.buf).2,
      mem.log.note p mem.buf act (act.perform mem.buf).1⟩)

/-- No enqueue finds the queue full, and no allocation fails. -/
def QueueGiven (array : EmsArray) (p : ι) : Access → QueueMem ι → Prop
  | .load cell, mem => cell = queueBottom → mem.log.enqueuer = some p →
      mem.buf.word stackTop - mem.buf.word queueBottom ≤ array.nElem
  | .memAlloc bytes, mem => Serves mem.buf.mem bytes
  | _, _ => True

/-- An enqueue looks at its slot when no dequeue is at work on an earlier ticket
of the slot, and the index of the slot is a number of 32 bits; a dequeue that
found nothing finds nothing when it looks again. -/
def QueueCareful (array : EmsArray) (p : ι) : Access → QueueMem ι → Prop
  | .loadTag cell, mem => mem.log.enqueuer = some p → cell ≠ stackTop →
      ∀ q, mem.log.taking q ≠ some (mem.buf.word stackTop - 1 - array.nElem)
  | .store cell word, mem =>
      (cell = stackTop → mem.buf.word stackTop % array.nElem < 2 ^ 31) ∧
        (cell = queueBottom → mem.log.loaded p = some stackTop →
          word = mem.buf.word queueBottom)
  | _, _ => True

/-- Any number of processes that enqueue and dequeue. -/
def queueMachine (ι : Type) [DecidableEq ι] (array : EmsArray)
    (careful : Bool) :
    Machine ι (QueueMem ι) Access Reply QueueOp EntryRes where
  perform := queuePerform
  code := fun _ op patience => op.code array patience
  admits := fun _ op _ => op.Fits
  permits := fun p act mem => QueueGiven array p act mem ∧
    (careful = true → QueueCareful array p act mem)

instance QueueGiven.decidable (array : EmsArray) (p : ι) :
    (act : Access) → (mem : QueueMem ι) →
    Decidable (QueueGiven array p act mem)
  | .load cell, mem => inferInstanceAs (Decidable (cell = queueBottom →
      mem.log.enqueuer = some p →
      mem.buf.word stackTop - mem.buf.word queueBottom ≤ array.nElem))
  | .memAlloc bytes, mem =>
      inferInstanceAs (Decidable (Serves mem.buf.mem bytes))
  | .store _ _, _ | .loadTag _, _ | .storeTag _ _, _ | .casTag _ _ _,
        _ | .casMutex _ _, _
  | .storeMutex _, _ | .memFree _, _ | .loadByte _, _ | .storeByte _ _, _ =>
      isTrue trivial

instance QueueCareful.decidable [Fintype ι] (array : EmsArray) (p : ι) :
    (act : Access) → (mem : QueueMem ι) → Decidable
    (QueueCareful array p act mem)
  | .loadTag cell, mem =>
    inferInstanceAs (Decidable (mem.log.enqueuer = some p →
      cell ≠ stackTop →
      ∀ q, mem.log.taking q ≠ some (mem.buf.word stackTop - 1 - array.nElem)))
  | .store cell word, mem => inferInstanceAs (Decidable
      ((cell = stackTop → mem.buf.word stackTop % array.nElem < 2 ^ 31) ∧
        (cell = queueBottom → mem.log.loaded p = some stackTop →
          word = mem.buf.word queueBottom)))
  | .load _, _ | .memAlloc _, _ | .storeTag _ _, _ | .casTag _ _ _,
        _ | .casMutex _ _, _
  | .storeMutex _, _ | .memFree _, _ | .loadByte _, _ | .storeByte _ _, _ =>
      isTrue trivial

instance queueMachine.decidableAdmits (array : EmsArray) (careful : Bool)
    (p : ι) (op : QueueOp)
    (mem : QueueMem ι) :
    Decidable ((queueMachine ι array careful).admits p op mem) :=
  inferInstanceAs (Decidable op.Fits)

instance queueMachine.decidablePermits [Fintype ι] (array : EmsArray)
    (careful : Bool) (p : ι)
    (act : Access) (mem : QueueMem ι) :
    Decidable ((queueMachine ι array careful).permits p act mem) :=
  inferInstanceAs (Decidable (QueueGiven array p act mem ∧
    (careful = true → QueueCareful array p act mem)))

end Machine

abbrev QueueLabel := Label Access Reply QueueOp EntryRes

abbrev QueueEvent := AtomicObject.Event QueueOp EntryRes

abbrev QueueState (ι : Type) := AtomicObject.State ι Tickets QueueOp EntryRes

/-- The stores of `STACKTOP` and `Q_BOTTOM`, by which tickets are taken. -/
def takesTicket : Access → Bool
  | .store cell _ => cell = stackTop ∨ cell = queueBottom
  | _ => false

/-- What is visible of a step: calls, returns, and the stores of `STACKTOP` and
`Q_BOTTOM`. -/
def queueEvent {ι : Type} (label : ι × QueueLabel) : Option (ι × QueueEvent) :=
  match label with
  | (p, .call op) => some (p, .call op)
  | (p, .access act _) => if takesTicket act then some (p, .commit) else none
  | (p, .ret op res) => some (p, .ret op res)

/-! ## Who has a slot -/

/-- The use of a slot: an enqueue fills it, it is full for a ticket, a dequeue
has its tag busy, or a dequeue is still reading the string it has taken. -/
inductive SlotUse (ι : Type) where
  | free
  | filling (p : ι)
  | full (ticket : Nat)
  | taking (p : ι) (ticket : Nat)
  | draining (p : ι) (ticket : Nat)

def SlotUse.user {ι : Type} : SlotUse ι → Option ι
  | .filling p | .taking p _ | .draining p _ => some p
  | _ => none

/-- Who has `Q_BOTTOM`, for how many tickets an enqueue has begun to fill the
slot and for how many a dequeue has acquired it, the uses and the blocks of the
slots, and the live blocks of the heap. -/
structure QueueGhost (ι : Type) where
  dequeuer : Option ι
  begun : Nat
  drawn : Nat
  use : Int → SlotUse ι
  blocks : Int → List Block
  live : List Block
  spec : QueueState ι

/-- The slot has the value of the ticket. -/
structure SlotKeeps {ι : Type} (ghost : QueueGhost ι) (buf : EmsBuf)
    (i : Int) (fe : FE)
    (ticket : Nat) : Prop where
  fe_eq : (buf.tag (EMSdataCell i)).fe = fe
  holds : ∃ value, ghost.spec.object.enqueued[ticket]? = some value ∧
    SlotHolds buf i value (ghost.blocks i)

/-- The slot is as its use says. -/
def SlotInv {ι : Type} (array : EmsArray) (ghost : QueueGhost ι)
    (mem : QueueMem ι) (i : Int) :
    Prop :=
  match ghost.use i with
  | .free => (mem.buf.tag (EMSdataCell i)).fe = .empty ∧ ghost.blocks i = []
  | .filling p =>
      (mem.buf.tag (EMSdataCell i)).fe = .empty ∧ mem.log.enqueuer = some p ∧
      ghost.begun = ghost.spec.object.enqueued.length ∧
        ghost.drawn < ghost.begun ∧
      slotOf array (ghost.begun - 1) = i
  | .full k => ghost.drawn ≤ k ∧ k < ghost.begun ∧ slotOf array k = i ∧
      SlotKeeps ghost mem.buf i .full k
  | .taking p k => k < ghost.drawn ∧ (ghost.begun : Int) ≤ k + array.nElem ∧
      slotOf array k = i ∧ ghost.dequeuer = some p ∧ mem.log.taking p =
        some (k : Int) ∧
      SlotKeeps ghost mem.buf i .busy k
  | .draining p k => k < ghost.drawn ∧ (ghost.begun : Int) ≤ k + array.nElem ∧
      slotOf array k = i ∧ mem.log.taking p = some (k : Int) ∧
      SlotKeeps ghost mem.buf i .empty k

/-- The state of a lock that is a tag of the control block. -/
def lockedFE {ι : Type} : Option ι → FE
  | some _ => .busy
  | none => .full

structure QueueInv {ι : Type} (array : EmsArray) (level : Nat)
    (ghost : QueueGhost ι)
    (mem : QueueMem ι) : Prop where
  positive : 0 < array.nElem
  small : EMS_MEM_BLOCKSZ * 2 ^ level < 2 ^ 63
  top : mem.buf.word stackTop = ghost.spec.object.enqueued.length
  bottom : mem.buf.word queueBottom = ghost.spec.object.taken
  topLock : (mem.buf.tag stackTop).fe = lockedFE mem.log.enqueuer
  bottomLock : (mem.buf.tag queueBottom).fe = lockedFE ghost.dequeuer
  begun_le : ghost.begun ≤ ghost.spec.object.enqueued.length
  announced : ghost.spec.object.enqueued.length ≤ ghost.begun + 1
  allBegun : mem.log.enqueuer = none →
    ghost.begun = ghost.spec.object.enqueued.length
  drawn_le : ghost.drawn ≤ ghost.spec.object.taken
  waits : ghost.spec.object.taken ≤ ghost.drawn + 1
  allDrawn : ghost.dequeuer = none → ghost.drawn = ghost.spec.object.taken
  taken_le : ghost.spec.object.taken ≤ ghost.spec.object.enqueued.length
  drawn_begun : ghost.drawn ≤ ghost.begun
  room : (ghost.begun : Int) ≤ ghost.drawn + array.nElem
  waiting : ∀ p, ghost.dequeuer = some p → ghost.spec.object.taken =
    ghost.drawn + 1 →
    mem.log.taking p = some (ghost.drawn : Int)
  tickets : ∀ k, ghost.drawn ≤ k → k < ghost.begun →
    ghost.use (slotOf array k) = .full k ∨
      k + 1 = ghost.begun ∧ ∃ p, ghost.use (slotOf array k) = .filling p
  inside : ∀ i, ghost.use i ≠ .free → 0 ≤ i ∧ i < array.nElem
  slots : ∀ i, 0 ≤ i → i < array.nElem → SlotInv array ghost mem i
  heap : ∃ tree, HeapShape level ⟨mem.buf.mem, ghost.live⟩ tree
  owned : ∀ i, ∀ block ∈ ghost.blocks i, block ∈ ghost.live
  distinct : ∀ i j, i ≠ j → ∀ block ∈ ghost.blocks i, block ∉ ghost.blocks j

/-! ## The moves -/

section Moves

variable {ι : Type} [DecidableEq ι] {array : EmsArray} {level : Nat}

/-- An access that changes nothing but the mutex of the allocator. -/
def Harmless (buf : EmsBuf) : Access → Prop
  | .load _ | .loadTag _ | .casMutex _ _ | .storeMutex _ | .loadByte _ => True
  | .casTag cell old _ => buf.tag cell ≠ old
  | _ => False

/-- What the enqueue that fills a slot may do to the memory. -/
structure Fills (level : Nat) (i : Int) (buf after : EmsBuf)
    (blocks live blocks' live' : List Block) : Prop where
  cells : ∀ cell, cell ≠ EMSdataCell i →
    after.tag cell = buf.tag cell ∧ after.word cell = buf.word cell
  empty : (after.tag (EMSdataCell i)).fe = .empty
  heap : ∀ block ∈ live, block ∉ blocks → block.Same buf.heap after.heap
  shape : ∃ tree, HeapShape level ⟨after.mem, live'⟩ tree
  kept : ∀ block ∈ live, block ∈ live'
  owned : ∀ block ∈ blocks', block ∈ live'
  fresh : ∀ block ∈ blocks', block ∈ blocks ∨ block ∉ live

/-- An operation of a process takes effect. -/
def QueueGhost.commit (ghost : QueueGhost ι) (p : ι) (next : Tickets)
    (op : QueueOp)
    (res : EntryRes) : QueueGhost ι :=
  { ghost with spec :=
    { ghost.spec with object := next }.setPhase p (.done op res) }

/-- What an access of a process changes of who has which slot. -/
inductive QueueChange (array : EmsArray) (level : Nat) (p : ι)
    (mem : QueueMem ι)
    (ghost : QueueGhost ι) : Access → QueueGhost ι → Prop where
  | quiet {act : Access} : Harmless mem.buf act →
      QueueChange array level p mem ghost act ghost
  | lockTop {tag : Tag} : mem.buf.tag stackTop = tag → tag.fe = .full →
      QueueChange array level p mem ghost
        (.casTag stackTop tag { tag with fe := .busy }) ghost
  | announce {value : EMSvalueType} : mem.log.enqueuer = some p →
      ghost.begun = ghost.spec.object.enqueued.length →
        (∀ i, ghost.use i ≠ .filling p) →
      ghost.spec.phase p = .pending (.enqueue value) →
      QueueChange array level p mem ghost
        (.store stackTop (ghost.spec.object.enqueued.length + 1))
        (ghost.commit p (ghost.spec.object.add value) (.enqueue value)
          (.index (.ok (slotOf array ghost.spec.object.enqueued.length))))
  | begin : mem.log.enqueuer = some p →
      ghost.spec.object.enqueued.length = ghost.begun + 1 →
      ghost.use (slotOf array ghost.begun) = .free →
      (ghost.spec.object.enqueued.length : Int) ≤ ghost.drawn + array.nElem →
      QueueChange array level p mem ghost
        (.loadTag (EMSdataCell (slotOf array ghost.begun)))
        { ghost with
          use :=
            Function.update ghost.use (slotOf array ghost.begun) (.filling p)
          begun := ghost.begun + 1 }
  | fill {act : Access} {i : Int} {blocks live : List Block} : ghost.use i =
      .filling p →
      takesTicket act = false →
      Fills level i mem.buf (act.perform mem.buf).2 (ghost.blocks i) ghost.live
        blocks live →
      (mem.log.note p mem.buf act (act.perform mem.buf).1).enqueuer =
      mem.log.enqueuer →
      (mem.log.note p mem.buf act (act.perform mem.buf).1).taking =
      mem.log.taking →
      QueueChange array level p mem ghost act
        { ghost
          with blocks := Function.update ghost.blocks i blocks, live := live }
  | finish {i : Int} {tag : Tag} {value : EMSvalueType} : ghost.use i =
      .filling p →
      tag.fe = .full → ghost.spec.object.enqueued[ghost.begun - 1]? =
        some value →
      tag.type = value.type →
      Contents (mem.buf.word (EMSdataCell i)) mem.buf.heap value
        (ghost.blocks i) →
      QueueChange array level p mem ghost (.storeTag (EMSdataCell i) tag)
        { ghost with use :=
          Function.update ghost.use i (.full (ghost.begun - 1)) }
  | unlockTop {tag : Tag} : mem.log.enqueuer = some p →
      ghost.begun = ghost.spec.object.enqueued.length →
        (∀ i, ghost.use i ≠ .filling p) →
      tag.fe = .full → QueueChange array level p mem ghost
        (.storeTag stackTop tag) ghost
  | lockBottom {tag : Tag} : mem.buf.tag queueBottom = tag → tag.fe = .full →
      QueueChange array level p mem ghost
        (.casTag queueBottom tag { tag with fe := .busy })
        { ghost with dequeuer := some p }
  | take {value : EMSvalueType} : ghost.dequeuer = some p →
      ghost.drawn = ghost.spec.object.taken → mem.log.loaded p =
        some queueBottom →
      (∀ i, (ghost.use i).user ≠ some p) →
      ghost.spec.object.enqueued[ghost.spec.object.taken]? = some value →
      ghost.spec.phase p = .pending .dequeue →
      QueueChange array level p mem ghost
        (.store queueBottom (ghost.spec.object.taken + 1))
        (ghost.commit p ghost.spec.object.take .dequeue
          (.value (.ok value.back)))
  | nothing : ghost.dequeuer = some p → ghost.drawn = ghost.spec.object.taken →
      mem.log.loaded p ≠ some queueBottom → ghost.spec.phase p =
        .pending .dequeue →
      QueueChange array level p mem ghost
        (.store queueBottom ghost.spec.object.taken)
        (ghost.commit p ghost.spec.object .dequeue (.value (.ok nothingThere)))
  | draw {tag : Tag} : ghost.dequeuer = some p →
      ghost.spec.object.taken = ghost.drawn + 1 →
      mem.buf.tag (EMSdataCell (slotOf array ghost.drawn)) = tag →
        tag.fe = .full →
      QueueChange array level p mem ghost
        (.casTag (EMSdataCell (slotOf array ghost.drawn)) tag
          { tag with fe := .busy })
        { ghost with
          use :=
            Function.update ghost.use (slotOf array ghost.drawn)
              (.taking p ghost.drawn)
          drawn := ghost.drawn + 1 }
  | empty {i : Int} {k : Nat} {tag : Tag} : ghost.use i = .taking p k →
      tag.fe = .empty → tag.type = (mem.buf.tag (EMSdataCell i)).type →
        tag.type.isText = false →
      QueueChange array level p mem ghost (.storeTag (EMSdataCell i) tag)
        { ghost with use := Function.update ghost.use i .free }
  | drain {i : Int} {k : Nat} {tag : Tag} : ghost.use i = .taking p k →
      tag.fe = .empty → tag.type = (mem.buf.tag (EMSdataCell i)).type →
        tag.type.isText = true →
      QueueChange array level p mem ghost (.storeTag (EMSdataCell i) tag)
        { ghost with use := Function.update ghost.use i (.draining p k) }
  | unlockBottom {tag : Tag} : ghost.dequeuer = some p →
      ghost.drawn = ghost.spec.object.taken →
        (∀ i k, ghost.use i ≠ .taking p k) →
      tag.fe = .full → QueueChange array level p mem ghost
        (.storeTag queueBottom tag)
        { ghost with dequeuer := none }
  | free {i : Int} {k : Nat} {block : Block} : ghost.use i = .draining p k →
      ghost.blocks i = [block] →
      QueueChange array level p mem ghost (.memFree block.address)
        { ghost with
          use := Function.update ghost.use i .free
          blocks := Function.update ghost.blocks i []
          live := ghost.live.erase block }

/-- The moves of a process on the queue. -/
inductive QueueMove (array : EmsArray) (level : Nat) (p : ι) :
    QueueLabel → QueueGhost ι × QueueMem ι →
      QueueGhost ι × QueueMem ι → Prop where
  | call {ghost : QueueGhost ι} {mem : QueueMem ι} (op : QueueOp) :
      ghost.spec.phase p = .idle →
      QueueMove array level p (.call op) (ghost, mem)
        ({ ghost with spec := ghost.spec.setPhase p (.pending op) }, mem)
  | access {ghost ghost' : QueueGhost ι} {mem : QueueMem ι} {act : Access} :
      QueueChange array level p mem ghost act ghost' →
      QueueMove array level p (.access act (queuePerform p act mem).1)
        (ghost, mem)
        (ghost', (queuePerform p act mem).2)
  | ret {ghost : QueueGhost ι} {mem : QueueMem ι} {op : QueueOp}
      {res : EntryRes} :
      ghost.spec.phase p = .done op res →
      QueueMove array level p (.ret op res) (ghost, mem)
        ({ ghost with spec := ghost.spec.setPhase p .idle }, mem)

@[simp] theorem queuePerform_reply (p : ι) (act : Access) (mem : QueueMem ι) :
    (queuePerform p act mem).1 = (act.perform mem.buf).1 := rfl

@[simp] theorem queuePerform_buf (p : ι) (act : Access) (mem : QueueMem ι) :
    (queuePerform p act mem).2.buf = (act.perform mem.buf).2 := rfl

@[simp] theorem queuePerform_log (p : ι) (act : Access) (mem : QueueMem ι) :
    (queuePerform p act mem).2.log = mem.log.note p mem.buf act
    (act.perform mem.buf).1 := rfl

/-! ## The moves keep the invariant -/

section Cells

omit [DecidableEq ι]

theorem slotOf_nonneg (positive : 0 < array.nElem) (k : Nat) :
    0 ≤ slotOf array k :=
  Int.emod_nonneg _ (by omega)

theorem slotOf_lt (positive : 0 < array.nElem) (k : Nat) :
    slotOf array k < array.nElem :=
  Int.emod_lt_of_pos _ positive

theorem slotOf_inj {k k' : Nat} (same : slotOf array k = slotOf array k')
    (le : k ≤ k')
    (lap : (k' : Int) < k + array.nElem) : k = k' := by
  have divides : array.nElem ∣ (k' : Int) - k := Int.modEq_iff_dvd.mp same
  have zero : (k' : Int) - k = 0 :=
    Int.eq_zero_of_dvd_of_nonneg_of_lt (by omega) (by omega) divides
  omega

end Cells

omit [DecidableEq ι] in
theorem Harmless.same {buf : EmsBuf} {act : Access}
    (harmless : Harmless buf act) :
    (act.perform buf).2.word = buf.word ∧ (act.perform buf).2.tag = buf.tag ∧
      (act.perform buf).2.mem = buf.mem ∧ (act.perform buf).2.heap =
        buf.heap := by
  cases act with
  | casTag cell old new =>
      have different : buf.tag cell ≠ old := harmless
      simp [Access.perform, different]
  | casMutex old new =>
      simp only [Access.perform]
      split <;> exact ⟨rfl, rfl, rfl, rfl⟩
  | load cell => exact ⟨rfl, rfl, rfl, rfl⟩
  | loadTag cell => exact ⟨rfl, rfl, rfl, rfl⟩
  | storeMutex fe => exact ⟨rfl, rfl, rfl, rfl⟩
  | loadByte address => exact ⟨rfl, rfl, rfl, rfl⟩
  | _ => exact harmless.elim

theorem Harmless.note {p : ι} {mem : QueueMem ι} {act : Access}
    (harmless : Harmless mem.buf act) :
    (mem.log.note p mem.buf act (act.perform mem.buf).1).enqueuer =
      mem.log.enqueuer ∧
      (mem.log.note p mem.buf act (act.perform mem.buf).1).taking =
        mem.log.taking := by
  cases act with
  | casTag cell old new =>
      have different : mem.buf.tag cell ≠ old := harmless
      simp [QueueLog.note, Access.perform, different]
  | load cell => exact ⟨rfl, rfl⟩
  | loadTag cell => exact ⟨rfl, rfl⟩
  | casMutex old new => exact ⟨rfl, rfl⟩
  | storeMutex fe => exact ⟨rfl, rfl⟩
  | loadByte address => exact ⟨rfl, rfl⟩
  | _ => exact harmless.elim

/-- Nothing about the slot has changed. -/
structure SlotSame (ghost ghost' : QueueGhost ι) (mem mem' : QueueMem ι)
    (i : Int) : Prop where
  use : ghost'.use i = ghost.use i
  blocks : ghost'.blocks i = ghost.blocks i
  tag : mem'.buf.tag (EMSdataCell i) = mem.buf.tag (EMSdataCell i)
  word : mem'.buf.word (EMSdataCell i) = mem.buf.word (EMSdataCell i)
  heap : ∀ block ∈ ghost.blocks i, block.Same mem.buf.heap mem'.buf.heap
  enqueued : ∀ (k : Nat) (value : EMSvalueType),
    ghost.spec.object.enqueued[k]? = some value →
    ghost'.spec.object.enqueued[k]? = some value

section Slots

omit [DecidableEq ι]

variable {ghost ghost' : QueueGhost ι} {mem mem' : QueueMem ι} {i : Int}

theorem SlotKeeps.same {fe : FE} {k : Nat}
    (same : SlotSame ghost ghost' mem mem' i)
    (keeps : SlotKeeps ghost mem.buf i fe k) :
    SlotKeeps ghost' mem'.buf i fe k := by
  obtain ⟨feEq, value, isValue, type, contents⟩ := keeps
  refine
    ⟨by
      rw [same.tag, feEq], value,
      same.enqueued _ _ isValue, by rw [same.tag, type], ?_⟩
  rw [same.word, same.blocks]
  exact contents.same same.heap

/-- A slot keeps its invariant when nothing about it changes, as far as the
counters and the log still suit its use. -/
theorem SlotInv.frame (inv : SlotInv array ghost mem i)
    (same : SlotSame ghost ghost' mem mem' i)
    (suits : match ghost.use i with
      | .free => True
      | .filling p => mem.log.enqueuer = some p →
          ghost.begun = ghost.spec.object.enqueued.length →
            ghost.drawn < ghost.begun →
          slotOf array (ghost.begun - 1) = i →
          mem'.log.enqueuer = some p ∧
            ghost'.begun = ghost'.spec.object.enqueued.length ∧
            ghost'.drawn < ghost'.begun ∧ slotOf array (ghost'.begun - 1) = i
      | .full k => slotOf array k = i → ghost.drawn ≤ k → k < ghost.begun →
          ghost'.drawn ≤ k ∧ k < ghost'.begun
      | .taking p k => slotOf array k = i → k < ghost.drawn →
          (ghost.begun : Int) ≤ k + array.nElem → ghost.dequeuer = some p →
          mem.log.taking p = some (k : Int) →
          k < ghost'.drawn ∧ (ghost'.begun : Int) ≤ k + array.nElem ∧
            ghost'.dequeuer = some p ∧ mem'.log.taking p = some (k : Int)
      | .draining p k => slotOf array k = i → k < ghost.drawn →
          (ghost.begun : Int) ≤ k + array.nElem → mem.log.taking p =
            some (k : Int) →
          k < ghost'.drawn ∧ (ghost'.begun : Int) ≤ k + array.nElem ∧
            mem'.log.taking p = some (k : Int)) :
    SlotInv array ghost' mem' i := by
  unfold SlotInv at inv ⊢
  rw [same.use]
  cases use : ghost.use i with
  | free =>
      simp only [use] at inv
      exact ⟨by rw [same.tag]; exact inv.1, by rw [same.blocks]; exact inv.2⟩
  | filling p =>
      simp only [use] at inv suits
      obtain ⟨empty, enqueuer, begun, drawn, slot⟩ := inv
      exact ⟨by rw [same.tag]; exact empty, suits enqueuer begun drawn slot⟩
  | full k =>
      simp only [use] at inv suits
      obtain ⟨drawn, begun, slot, keeps⟩ := inv
      obtain ⟨drawn', begun'⟩ := suits slot drawn begun
      exact ⟨drawn', begun', slot, keeps.same same⟩
  | taking p k =>
      simp only [use] at inv suits
      obtain ⟨drawn, lap, slot, dequeuer, taking, keeps⟩ := inv
      obtain ⟨drawn', lap', dequeuer', taking'⟩ :=
        suits slot drawn lap dequeuer taking
      exact ⟨drawn', lap', slot, dequeuer', taking', keeps.same same⟩
  | draining p k =>
      simp only [use] at inv suits
      obtain ⟨drawn, lap, slot, taking, keeps⟩ := inv
      obtain ⟨drawn', lap', taking'⟩ := suits slot drawn lap taking
      exact ⟨drawn', lap', slot, taking', keeps.same same⟩

theorem SlotInv.steady (inv : SlotInv array ghost mem i)
    (same : SlotSame ghost ghost' mem mem' i)
    (enqueuer : mem'.log.enqueuer = mem.log.enqueuer)
    (begun : ghost'.begun = ghost.begun)
    (drawn : ghost'.drawn = ghost.drawn)
    (length : ghost'.spec.object.enqueued.length =
      ghost.spec.object.enqueued.length)
    (dequeuer : ghost'.dequeuer = ghost.dequeuer)
    (taking : ∀ q k, ghost.use i = .taking q k ∨ ghost.use i = .draining q k →
      mem.log.taking q = some (k : Int) → mem'.log.taking q = some (k : Int)) :
    SlotInv array ghost' mem' i := by
  apply inv.frame same
  cases use : ghost.use i with
  | free => trivial
  | filling p => simpa only [enqueuer, begun, drawn, length] using
      fun one two three four => ⟨one, two, three, four⟩
  | full k => simpa only [begun, drawn] using fun _ one two => ⟨one, two⟩
  | taking p k =>
      intro _ one two three four
      rw [drawn, begun, dequeuer]
      exact ⟨one, two, three, taking p k (.inl use) four⟩
  | draining p k =>
      intro _ one two three
      rw [drawn, begun]
      exact ⟨one, two, taking p k (.inr use) three⟩

theorem SlotInv.full_of_fe (inv : SlotInv array ghost mem i)
    (full : (mem.buf.tag (EMSdataCell i)).fe = .full) :
    ∃ k, ghost.use i = .full k := by
  unfold SlotInv at inv
  cases use : ghost.use i with
  | full k => exact ⟨k, rfl⟩
  | free =>
      simp only [use, full] at inv
      cases inv.1
  | filling p =>
      simp only [use, full] at inv
      cases inv.1
  | taking p k =>
      simp only [use] at inv
      have busy := inv.2.2.2.2.2.fe_eq
      rw [full] at busy
      cases busy
  | draining p k =>
      simp only [use] at inv
      have empty := inv.2.2.2.2.fe_eq
      rw [full] at empty
      cases empty

end Slots

section Keeps

variable {p : ι} {ghost : QueueGhost ι} {mem : QueueMem ι}

omit [DecidableEq ι] in
/-- The invariant only looks at some of the memory and of the log. -/
theorem QueueInv.of_same (inv : QueueInv array level ghost mem)
    {mem' : QueueMem ι}
    (word : mem'.buf.word = mem.buf.word) (tag : mem'.buf.tag = mem.buf.tag)
    (memEq : mem'.buf.mem = mem.buf.mem) (heap : mem'.buf.heap = mem.buf.heap)
    (enqueuer : mem'.log.enqueuer = mem.log.enqueuer)
    (taking : mem'.log.taking = mem.log.taking) :
    QueueInv array level ghost mem' where
  positive := inv.positive
  small := inv.small
  top := by rw [word]; exact inv.top
  bottom := by rw [word]; exact inv.bottom
  topLock := by rw [tag, enqueuer]; exact inv.topLock
  bottomLock := by rw [tag]; exact inv.bottomLock
  begun_le := inv.begun_le
  announced := inv.announced
  allBegun := by rw [enqueuer]; exact inv.allBegun
  drawn_le := inv.drawn_le
  waits := inv.waits
  allDrawn := inv.allDrawn
  taken_le := inv.taken_le
  drawn_begun := inv.drawn_begun
  room := inv.room
  waiting := by rw [taking]; exact inv.waiting
  tickets := inv.tickets
  inside := inv.inside
  slots := fun i lower upper => (inv.slots i lower upper).steady
    ⟨rfl,
      rfl, by rw [tag], by rw [word], fun _ _ _ _ _ => by rw [heap], fun _ _ same => same⟩
    enqueuer rfl rfl rfl rfl (by rw [taking]; exact fun _ _ _ same => same)
  heap := by rw [memEq]; exact inv.heap
  owned := inv.owned
  distinct := inv.distinct

omit [DecidableEq ι] in
theorem QueueInv.phase (inv : QueueInv array level ghost mem)
    {spec : QueueState ι}
    (object : spec.object = ghost.spec.object) :
    QueueInv array level { ghost with spec := spec } mem := by
  obtain ⟨object', phase⟩ := spec
  obtain rfl : object' = ghost.spec.object := object
  refine { inv with slots := fun i lower upper => ?_ }
  exact (inv.slots i lower upper).steady
    ⟨rfl, rfl, rfl, rfl, fun _ _ _ _ _ => rfl, fun _ _ same => same⟩
    rfl rfl rfl rfl rfl (fun _ _ _ same => same)

theorem QueueInv.quiet (inv : QueueInv array level ghost mem) {act : Access}
    (harmless : Harmless mem.buf act) :
    QueueInv array level ghost (queuePerform p act mem).2 := by
  obtain ⟨word, tag, memEq, heap⟩ := harmless.same
  obtain ⟨enqueuer, taking⟩ := harmless.note (p := p)
  exact inv.of_same word tag memEq heap enqueuer taking

omit [DecidableEq ι] in
/-- A tag of the control block that is full is held by nobody. -/
theorem unlocked {owner : Option ι} (full : FE.full = lockedFE owner) :
    owner = none := by
  cases owner with
  | none => rfl
  | some q => cases full

theorem QueueInv.lockTop (inv : QueueInv array level ghost mem) {tag : Tag}
    (found : mem.buf.tag stackTop = tag) (full : tag.fe = .full) :
    QueueInv array level ghost
      (queuePerform p (.casTag stackTop tag { tag with fe := .busy })
        mem).2 := by
  have free : mem.log.enqueuer = none := by
    apply unlocked
    rw [← inv.topLock, found, full]
  have performed : (queuePerform p
      (.casTag stackTop tag { tag with fe := .busy }) mem).2 =
      ⟨mem.buf.setTag stackTop { tag with fe := .busy },
        { mem.log with enqueuer := some p }⟩ := by
    simp [queuePerform, Access.perform, QueueLog.note, found, EmsBuf.setTag]
  rw [performed]
  refine { inv with
    topLock := by simp [lockedFE]
    bottomLock := by simpa [stackTop_ne_queueBottom.symm] using inv.bottomLock
    allBegun := fun none => by cases none
    slots := ?_ }
  intro i lower upper
  refine (inv.slots i lower upper).frame
    ⟨rfl,
      rfl, by simp [EMSdataCell_ne_stackTop lower], rfl, fun _ _ _ _ _ => rfl,
      fun _ _ same => same⟩ ?_
  cases ghost.use i with
  | filling q => simp [free]
  | free => trivial
  | full k => exact fun _ one two => ⟨one, two⟩
  | taking q k => exact fun _ one two three four => ⟨one, two, three, four⟩
  | draining q k => exact fun _ one two three => ⟨one, two, three⟩

theorem QueueInv.announce (inv : QueueInv array level ghost mem)
    {value : EMSvalueType}
    {op : QueueOp} {res : EntryRes} (enqueuer : mem.log.enqueuer = some p)
    (begun : ghost.begun = ghost.spec.object.enqueued.length)
    (unused : ∀ i, ghost.use i ≠ .filling p) :
    QueueInv array level (ghost.commit p (ghost.spec.object.add value) op res)
      (queuePerform p (.store stackTop (ghost.spec.object.enqueued.length + 1))
        mem).2 := by
  have performed : (queuePerform p
      (.store stackTop (ghost.spec.object.enqueued.length + 1)) mem).2 =
      ⟨mem.buf.setWord stackTop (ghost.spec.object.enqueued.length + 1),
          mem.log⟩ := by
    simp [queuePerform, Access.perform, QueueLog.note, stackTop_ne_queueBottom,
      EmsBuf.setWord]
  have length : (ghost.spec.object.add value).enqueued.length =
      ghost.spec.object.enqueued.length + 1 := by simp [Tickets.add]
  rw [performed]
  refine { inv with
    top := by simp [QueueGhost.commit, length]
    bottom := by
      simpa [stackTop_ne_queueBottom.symm, QueueGhost.commit,
        Tickets.add] using inv.bottom
    begun_le := inv.begun_le.trans (by simp [QueueGhost.commit, length])
    announced := by simp [QueueGhost.commit, length, begun]
    allBegun := by simp [enqueuer]
    taken_le := inv.taken_le.trans (by simp [QueueGhost.commit, length])
    slots := ?_ }
  intro i lower upper
  refine (inv.slots i lower upper).frame
    ⟨rfl, rfl,
      rfl, by simp [EMSdataCell_ne_stackTop lower], fun _ _ _ _ _ => rfl, ?_⟩ ?_
  · intro k value' isValue
    have inside : k < ghost.spec.object.enqueued.length :=
      (List.getElem?_eq_some_iff.mp isValue).1
    exact (List.getElem?_append_left inside).trans isValue
  cases use : ghost.use i with
  | filling q =>
      intro holder
      rw [enqueuer] at holder
      obtain rfl := Option.some.inj holder
      exact absurd use (unused i)
  | free => trivial
  | full k => exact fun _ one two => ⟨one, two⟩
  | taking q k => exact fun _ one two three four => ⟨one, two, three, four⟩
  | draining q k => exact fun _ one two three => ⟨one, two, three⟩

omit [DecidableEq ι] in
theorem QueueInv.none_filling (inv : QueueInv array level ghost mem)
    (announced : ghost.spec.object.enqueued.length = ghost.begun + 1)
    (i : Int) (q : ι) :
    ghost.use i ≠ .filling q := by
  intro filling
  obtain ⟨lower, upper⟩ := inv.inside i (by simp [filling])
  have slot := inv.slots i lower upper
  simp only [SlotInv, filling] at slot
  omega

theorem QueueInv.begin (inv : QueueInv array level ghost mem)
    (enqueuer : mem.log.enqueuer = some p)
    (announced : ghost.spec.object.enqueued.length = ghost.begun + 1)
    (unused : ghost.use (slotOf array ghost.begun) = .free)
    (room : (ghost.spec.object.enqueued.length : Int) ≤
      ghost.drawn + array.nElem) :
    QueueInv array level
      { ghost with
        use := Function.update ghost.use (slotOf array ghost.begun) (.filling p)
        begun := ghost.begun + 1 }
      (queuePerform p (.loadTag (EMSdataCell (slotOf array ghost.begun)))
          mem).2 := by
  have performed : (queuePerform p
      (.loadTag (EMSdataCell (slotOf array ghost.begun))) mem).2 = mem := rfl
  have inside := slotOf_nonneg inv.positive ghost.begun
  have below := slotOf_lt inv.positive ghost.begun
  rw [performed]
  refine { inv with
    begun_le := announced.ge
    announced := announced.le.trans (by simp)
    allBegun := by simp [enqueuer]
    drawn_begun := inv.drawn_begun.trans (by simp)
    room := by push_cast at room ⊢; omega
    tickets := ?_
    inside := ?_
    slots := ?_ }
  · intro k drawn begun
    rcases Nat.lt_succ_iff_lt_or_eq.mp begun with earlier | rfl
    · rcases inv.tickets k drawn earlier with full | ⟨-, q, filling⟩
      · have other : slotOf array k ≠ slotOf array ghost.begun := by
          intro same
          rw [same, unused] at full
          cases full
        exact .inl (by simpa [other] using full)
      · exact absurd filling (inv.none_filling announced _ q)
    · exact .inr ⟨rfl, p, by simp⟩
  · intro i used
    by_cases same : i = slotOf array ghost.begun
    · rw [same]
      exact ⟨inside, below⟩
    · exact inv.inside i (by simpa [same] using used)
  · intro i lower upper
    by_cases same : i = slotOf array ghost.begun
    · subst same
      have slot := inv.slots _ lower upper
      simp only [SlotInv, unused] at slot
      have drawn := inv.drawn_begun
      simp only [SlotInv, Function.update_self]
      exact ⟨slot.1, enqueuer, by omega, by omega, rfl⟩
    · have lap : ∀ k, slotOf array k = i → (ghost.begun : Int) ≤
          k + array.nElem →
          ((ghost.begun + 1 : Nat) : Int) ≤ k + array.nElem := by
        rintro k rfl begun
        by_contra overtakes
        have equal : (ghost.begun : Int) = k + array.nElem := by omega
        refine same ?_
        simp [slotOf, equal]
      refine (inv.slots i lower upper).frame
        ⟨by
          simp [same], rfl, rfl, rfl, fun _ _ _ _ _ => rfl,
          fun _ _ same => same⟩ ?_
      cases use : ghost.use i with
      | free => trivial
      | filling q => exact absurd use (inv.none_filling announced i q)
      | full k => exact fun _ one two => ⟨one, two.trans (by simp)⟩
      | taking q k => exact fun slot one two three four =>
          ⟨one, lap k slot two, three, four⟩
      | draining q k => exact fun slot one two three =>
          ⟨one, lap k slot two, three⟩

theorem QueueInv.fill (inv : QueueInv array level ghost mem)
    {act : Access} {i : Int}
    {blocks live : List Block} (filling : ghost.use i = .filling p)
    (fills : Fills level i mem.buf (act.perform mem.buf).2
      (ghost.blocks i) ghost.live blocks live)
    (enqueuer : (mem.log.note p mem.buf act (act.perform mem.buf).1).enqueuer =
      mem.log.enqueuer)
    (taking : (mem.log.note p mem.buf act (act.perform mem.buf).1).taking =
      mem.log.taking) :
    QueueInv array level
      { ghost
        with blocks := Function.update ghost.blocks i blocks, live := live }
      (queuePerform p act mem).2 := by
  obtain ⟨inside, below⟩ := inv.inside i (by simp [filling])
  have top := fills.cells stackTop (EMSdataCell_ne_stackTop inside).symm
  have bottom :=
    fills.cells queueBottom (EMSdataCell_ne_queueBottom inside).symm
  refine { inv with
    top := by rw [queuePerform_buf, top.2]; exact inv.top
    bottom := by rw [queuePerform_buf, bottom.2]; exact inv.bottom
    topLock := by
      rw [queuePerform_buf, top.1, queuePerform_log,
        enqueuer]; exact inv.topLock
    bottomLock := by rw [queuePerform_buf, bottom.1]; exact inv.bottomLock
    allBegun := by rw [queuePerform_log, enqueuer]; exact inv.allBegun
    waiting := by rw [queuePerform_log, taking]; exact inv.waiting
    heap := fills.shape
    owned := ?_
    distinct := ?_
    slots := ?_ }
  · intro j lower upper
    by_cases same : j = i
    · subst same
      have slot := inv.slots j lower upper
      simp only [SlotInv, filling] at slot ⊢
      exact ⟨fills.empty, enqueuer.trans slot.2.1, slot.2.2⟩
    · obtain ⟨sameTag, sameWord⟩ :=
        fills.cells (EMSdataCell j) (by simpa using same)
      refine (inv.slots j lower upper).steady
        ⟨rfl, by simp [same], sameTag, sameWord, ?_, fun _ _ same => same⟩
        enqueuer rfl rfl rfl rfl ?_
      · intro block member
        exact fills.heap block (inv.owned j block member)
          (inv.distinct j i same block member)
      · rw [queuePerform_log, taking]
        exact fun _ _ _ same => same
  · intro j block member
    by_cases same : j = i
    · subst same
      exact fills.owned block (by simpa using member)
    · exact fills.kept block (inv.owned j block (by simpa [same] using member))
  · have others : ∀ j, j ≠ i → ∀ block ∈ blocks, block ∉ ghost.blocks j := by
      intro j different block member inOther
      rcases fills.fresh block member with old | new
      · exact inv.distinct i j different.symm block old inOther
      · exact new (inv.owned j block inOther)
    intro j j' different block member
    by_cases same : j = i
    · subst same
      have other : j' ≠ j := different.symm
      simpa [other] using others j' other block (by simpa using member)
    · by_cases same' : j' = i
      · subst same'
        intro inBlocks
        exact others j same block (by simpa using inBlocks)
          (by simpa [same] using member)
      · simpa [same'] using inv.distinct j j' different block
          (by simpa [same] using member)

theorem QueueInv.finish (inv : QueueInv array level ghost mem)
    {i : Int} {tag : Tag}
    {value : EMSvalueType} (filling : ghost.use i = .filling p)
    (full : tag.fe = .full)
    (isValue : ghost.spec.object.enqueued[ghost.begun - 1]? = some value)
    (type : tag.type = value.type)
    (contents : Contents (mem.buf.word (EMSdataCell i)) mem.buf.heap value
      (ghost.blocks i)) :
    QueueInv array level
      { ghost with use :=
        Function.update ghost.use i (.full (ghost.begun - 1)) }
      (queuePerform p (.storeTag (EMSdataCell i) tag) mem).2 := by
  obtain ⟨inside, below⟩ := inv.inside i (by simp [filling])
  have notTop := EMSdataCell_ne_stackTop inside
  have notBottom := EMSdataCell_ne_queueBottom inside
  have performed : (queuePerform p (.storeTag (EMSdataCell i) tag) mem).2 =
      ⟨mem.buf.setTag (EMSdataCell i) tag, mem.log⟩ := by
    simp [queuePerform, Access.perform, QueueLog.note, notTop, full,
      EmsBuf.setTag]
  have slot := inv.slots i inside below
  simp only [SlotInv, filling] at slot
  obtain ⟨-, enqueuer, begun, drawn, isSlot⟩ := slot
  rw [performed]
  refine { inv with
    topLock := by simpa [notTop.symm] using inv.topLock
    bottomLock := by simpa [notBottom.symm] using inv.bottomLock
    tickets := ?_
    inside := ?_
    slots := ?_ }
  · intro k lower upper
    rcases inv.tickets k lower upper with isFull | ⟨last, q, isFilling⟩
    · have other : slotOf array k ≠ i := by
        intro same
        rw [same, filling] at isFull
        cases isFull
      exact .inl (by simpa [other] using isFull)
    · by_cases same : slotOf array k = i
      · exact .inl (by simp [same, ← last])
      · exact .inr ⟨last, q, by simpa [same] using isFilling⟩
  · intro j used
    by_cases same : j = i
    · rw [same]
      exact ⟨inside, below⟩
    · exact inv.inside j (by simpa [same] using used)
  · intro j lower upper
    by_cases same : j = i
    · subst same
      simp only [SlotInv, Function.update_self]
      exact ⟨by
        omega, by omega, isSlot, by simp [full], value, isValue, by simp [type],
        by simpa using contents⟩
    · exact (inv.slots j lower upper).steady
        ⟨by
          simp [same],
          rfl, by simp [same], rfl, fun _ _ _ _ _ => rfl, fun _ _ same => same⟩
        rfl rfl rfl rfl rfl (fun _ _ _ same => same)

theorem QueueInv.unlockTop (inv : QueueInv array level ghost mem) {tag : Tag}
    (enqueuer : mem.log.enqueuer = some p)
    (begun : ghost.begun = ghost.spec.object.enqueued.length)
    (unused : ∀ i, ghost.use i ≠ .filling p) (full : tag.fe = .full) :
    QueueInv array level ghost
      (queuePerform p (.storeTag stackTop tag) mem).2 := by
  have performed : (queuePerform p (.storeTag stackTop tag) mem).2 =
      ⟨mem.buf.setTag stackTop tag, { mem.log with enqueuer := none }⟩ := by
    simp [queuePerform, Access.perform, QueueLog.note, EmsBuf.setTag]
  rw [performed]
  refine { inv with
    topLock := by simp [lockedFE, full]
    bottomLock := by simpa [stackTop_ne_queueBottom.symm] using inv.bottomLock
    allBegun := fun _ => begun
    slots := ?_ }
  intro i lower upper
  refine (inv.slots i lower upper).frame
    ⟨rfl,
      rfl, by simp [EMSdataCell_ne_stackTop lower], rfl, fun _ _ _ _ _ => rfl,
      fun _ _ same => same⟩ ?_
  cases use : ghost.use i with
  | filling q =>
      intro holder
      rw [enqueuer] at holder
      obtain rfl := Option.some.inj holder
      exact absurd use (unused i)
  | free => trivial
  | full k => exact fun _ one two => ⟨one, two⟩
  | taking q k => exact fun _ one two three four => ⟨one, two, three, four⟩
  | draining q k => exact fun _ one two three => ⟨one, two, three⟩

theorem QueueInv.lockBottom (inv : QueueInv array level ghost mem) {tag : Tag}
    (found : mem.buf.tag queueBottom = tag) (full : tag.fe = .full) :
    QueueInv array level { ghost with dequeuer := some p }
      (queuePerform p (.casTag queueBottom tag { tag with fe := .busy })
        mem).2 := by
  have free : ghost.dequeuer = none := by
    apply unlocked
    rw [← inv.bottomLock, found, full]
  have performed : (queuePerform p
      (.casTag queueBottom tag { tag with fe := .busy }) mem).2 =
      ⟨mem.buf.setTag queueBottom { tag with fe := .busy }, mem.log⟩ := by
    simp [queuePerform, Access.perform, QueueLog.note, found,
      stackTop_ne_queueBottom.symm,
      EmsBuf.setTag]
  have drawn := inv.allDrawn free
  rw [performed]
  refine { inv with
    topLock := by simpa [stackTop_ne_queueBottom] using inv.topLock
    bottomLock := by simp [lockedFE]
    allDrawn := fun none => by cases none
    waiting := fun q _ waits => by
      have taken : ghost.spec.object.taken = ghost.drawn + 1 := waits
      omega
    slots := ?_ }
  intro i lower upper
  refine (inv.slots i lower upper).frame
    ⟨rfl,
      rfl, by simp [EMSdataCell_ne_queueBottom lower], rfl, fun _ _ _ _ _ => rfl,
      fun _ _ same => same⟩ ?_
  cases ghost.use i with
  | taking q k => simp [free]
  | free => trivial
  | full k => exact fun _ one two => ⟨one, two⟩
  | filling q => exact fun one two three four => ⟨one, two, three, four⟩
  | draining q k => exact fun _ one two three => ⟨one, two, three⟩

theorem QueueInv.take (inv : QueueInv array level ghost mem) {op : QueueOp}
    {res : EntryRes}
    {value : EMSvalueType} (dequeuer : ghost.dequeuer = some p)
    (drawn : ghost.drawn = ghost.spec.object.taken)
    (loaded : mem.log.loaded p = some queueBottom)
    (unused : ∀ i, (ghost.use i).user ≠ some p)
    (isValue : ghost.spec.object.enqueued[ghost.spec.object.taken]? =
      some value) :
    QueueInv array level (ghost.commit p ghost.spec.object.take op res)
      (queuePerform p (.store queueBottom (ghost.spec.object.taken + 1))
        mem).2 := by
  have performed : (queuePerform p
      (.store queueBottom (ghost.spec.object.taken + 1)) mem).2 =
      ⟨mem.buf.setWord queueBottom (ghost.spec.object.taken + 1),
        { mem.log with
          taking :=
            Function.update mem.log.taking p
              (some (ghost.spec.object.taken : Int)) }⟩ := by
    simp [queuePerform, Access.perform, QueueLog.note, loaded, inv.bottom,
      EmsBuf.setWord]
  have inside : ghost.spec.object.taken < ghost.spec.object.enqueued.length :=
    (List.getElem?_eq_some_iff.mp isValue).1
  rw [performed]
  refine { inv with
    top := by
      simpa [stackTop_ne_queueBottom, QueueGhost.commit,
        Tickets.take] using inv.top
    bottom := by simp [QueueGhost.commit, Tickets.take]
    drawn_le := by
      simp only [QueueGhost.commit,
        Tickets.take]; exact inv.drawn_le.trans (by simp)
    waits := by simp [QueueGhost.commit, Tickets.take, drawn]
    allDrawn := by simp [QueueGhost.commit, dequeuer]
    taken_le := inside
    waiting := ?_
    slots := ?_ }
  · intro q holder _
    have holder : ghost.dequeuer = some q := holder
    rw [dequeuer] at holder
    obtain rfl := Option.some.inj holder
    simp [QueueGhost.commit, drawn]
  · intro i lower upper
    refine (inv.slots i lower upper).steady
      ⟨rfl, rfl,
        rfl, by simp [EMSdataCell_ne_queueBottom lower], fun _ _ _ _ _ => rfl,
        fun _ _ same => same⟩ rfl rfl rfl rfl rfl ?_
    intro q k used taking
    have other : q ≠ p := by
      rintro rfl
      exact unused i (by
        rcases used with use | use <;> simp [use, SlotUse.user])
    simpa [other] using taking

theorem QueueInv.nothing (inv : QueueInv array level ghost mem) {op : QueueOp}
    {res : EntryRes}
    (loaded : mem.log.loaded p ≠ some queueBottom) :
    QueueInv array level (ghost.commit p ghost.spec.object op res)
      (queuePerform p (.store queueBottom ghost.spec.object.taken) mem).2 := by
  have performed : (queuePerform p
      (.store queueBottom ghost.spec.object.taken) mem).2 =
      ⟨mem.buf.setWord queueBottom ghost.spec.object.taken, mem.log⟩ := by
    simp [queuePerform, Access.perform, QueueLog.note, loaded, EmsBuf.setWord]
  have unchanged : mem.buf.setWord queueBottom ghost.spec.object.taken =
      mem.buf := by
    simp [EmsBuf.setWord, ← inv.bottom]
  rw [performed, unchanged]
  exact inv.phase rfl

theorem QueueInv.draw (inv : QueueInv array level ghost mem) {tag : Tag}
    (dequeuer : ghost.dequeuer = some p)
    (taken : ghost.spec.object.taken = ghost.drawn + 1)
    (found : mem.buf.tag (EMSdataCell (slotOf array ghost.drawn)) = tag)
    (isFull : tag.fe = .full) :
    QueueInv array level
      { ghost with
        use :=
          Function.update ghost.use (slotOf array ghost.drawn)
            (.taking p ghost.drawn)
        drawn := ghost.drawn + 1 }
      (queuePerform p (.casTag (EMSdataCell (slotOf array ghost.drawn)) tag
        { tag with fe := .busy }) mem).2 := by
  have inside := slotOf_nonneg inv.positive ghost.drawn
  have below := slotOf_lt inv.positive ghost.drawn
  have notTop := EMSdataCell_ne_stackTop inside
  have notBottom := EMSdataCell_ne_queueBottom inside
  have performed : (queuePerform p
      (.casTag (EMSdataCell (slotOf array ghost.drawn)) tag
      { tag with fe := .busy }) mem).2 =
      ⟨mem.buf.setTag (EMSdataCell (slotOf array ghost.drawn))
        { tag with fe := .busy },
        mem.log⟩ := by
    simp [queuePerform, Access.perform, QueueLog.note, found, notTop,
      EmsBuf.setTag]
  -- the slot is full for this ticket and no other
  have slot := inv.slots _ inside below
  obtain ⟨k, use⟩ := slot.full_of_fe (by rw [found, isFull])
  simp only [SlotInv, use] at slot
  obtain ⟨lower, upper, sameSlot, keeps⟩ := slot
  have room := inv.room
  obtain rfl : ghost.drawn = k := slotOf_inj sameSlot.symm lower (by omega)
  rw [performed]
  refine { inv with
    topLock := by simpa [notTop.symm] using inv.topLock
    bottomLock := by simpa [notBottom.symm] using inv.bottomLock
    drawn_le := taken.ge
    waits := taken.le.trans (by simp)
    allDrawn := by simp [dequeuer]
    drawn_begun := upper
    room := room.trans (by push_cast; omega)
    waiting := fun q _ waits => by
      have waits : ghost.spec.object.taken = ghost.drawn + 1 + 1 := waits
      omega
    tickets := ?_
    inside := ?_
    slots := ?_ }
  · intro k lower upper
    have later : ghost.drawn < k := lower
    have other : slotOf array k ≠ slotOf array ghost.drawn := by
      intro same
      have equal := slotOf_inj same.symm later.le
        (by have upper : k < ghost.begun := upper; omega)
      omega
    simpa [other] using inv.tickets k later.le upper
  · intro i used
    by_cases same : i = slotOf array ghost.drawn
    · rw [same]
      exact ⟨inside, below⟩
    · exact inv.inside i (by simpa [same] using used)
  · intro i lower' upper'
    by_cases same : i = slotOf array ghost.drawn
    · subst same
      obtain ⟨value, isValue, type, contents⟩ := keeps.holds
      simp only [SlotInv, Function.update_self]
      exact ⟨by omega, room, trivial, dequeuer, inv.waiting p dequeuer taken,
        by simp, value, isValue, by simpa [← found] using type, by simpa using contents⟩
    · have later : ∀ k, slotOf array k = i → ghost.drawn ≤ k →
          ghost.drawn + 1 ≤ k := by
        rintro k rfl drawn
        rcases Nat.lt_or_eq_of_le drawn with earlier | rfl
        · exact earlier
        · exact absurd rfl same
      refine (inv.slots i lower' upper').frame
        ⟨by
          simp [same],
          rfl, by simp [same], rfl, fun _ _ _ _ _ => rfl, fun _ _ same => same⟩ ?_
      cases ghost.use i with
      | free => trivial
      | filling q =>
          intro one two three four
          have begun := later _ four (by omega)
          exact ⟨one, two, by simp only; omega, four⟩
      | full k => exact fun slot one two => ⟨later k slot one, two⟩
      | taking q k => exact fun _ one two three four =>
          ⟨by simp only; omega, two, three, four⟩
      | draining q k => exact fun _ one two three =>
          ⟨by simp only; omega, two, three⟩

omit [DecidableEq ι] in
theorem QueueInv.use_unique (inv : QueueInv array level ghost mem) {i j : Int}
    {k k' : Nat}
    (first : ghost.use i = .taking p k ∨ ghost.use i = .draining p k)
    (second : ghost.use j = .taking p k' ∨ ghost.use j = .draining p k') :
    i = j := by
  have taking : ∀ {i k},
      (ghost.use i = .taking p k ∨ ghost.use i = .draining p k) →
      slotOf array k = i ∧ mem.log.taking p = some (k : Int) := by
    intro i k used
    obtain ⟨lower, upper⟩ :=
      inv.inside i (by rcases used with use | use <;> simp [use])
    have slot := inv.slots i lower upper
    rcases used with use | use
    · simp only [SlotInv, use] at slot
      exact ⟨slot.2.2.1, slot.2.2.2.2.1⟩
    · simp only [SlotInv, use] at slot
      exact ⟨slot.2.2.1, slot.2.2.2.1⟩
  obtain ⟨rfl, isFirst⟩ := taking first
  obtain ⟨rfl, isSecond⟩ := taking second
  rw [isFirst] at isSecond
  have same : k = k' := by simpa using isSecond
  rw [same]

omit [DecidableEq ι] in
theorem QueueInv.not_waiting (inv : QueueInv array level ghost mem)
    {i : Int} {k : Nat}
    (used : ghost.use i = .taking p k ∨ ghost.use i = .draining p k)
    (dequeuer : ghost.dequeuer = some p) :
    ghost.spec.object.taken ≠ ghost.drawn + 1 := by
  intro waits
  have waiting := inv.waiting p dequeuer waits
  obtain ⟨lower, upper⟩ :=
    inv.inside i (by rcases used with use | use <;> simp [use])
  have slot := inv.slots i lower upper
  rcases used with use | use
  · simp only [SlotInv, use, waiting, Option.some.injEq] at slot
    omega
  · simp only [SlotInv, use, waiting, Option.some.injEq] at slot
    omega

omit [DecidableEq ι] in
theorem Contents.blocks_nil {word : Int} {heap : Int → UInt8}
    {value : EMSvalueType}
    {blocks : List Block} (contents : Contents word heap value blocks)
    (noText : value.type.isText = false) : blocks = [] := by
  unfold Contents at contents
  split at contents
  case h_4 type => simp [type, EMSType.isText] at noText
  case h_5 type => simp [type, EMSType.isText] at noText
  case h_6 => exact contents
  case h_7 => exact contents.elim
  all_goals exact contents.2

/-- A dequeue gives up what it has of its slot. -/
theorem QueueInv.leave (inv : QueueInv array level ghost mem)
    {i : Int} {k : Nat}
    (use : SlotUse ι) (blocks live : List Block) (mem' : QueueMem ι)
    (used : ghost.use i = .taking p k ∨ ghost.use i = .draining p k)
    (noTicket : use = .free ∨ use = .draining p k)
    (cells : ∀ cell, cell ≠ EMSdataCell i →
      mem'.buf.tag cell = mem.buf.tag cell ∧ mem'.buf.word cell =
        mem.buf.word cell)
    (heap : mem'.buf.heap = mem.buf.heap)
    (enqueuer : mem'.log.enqueuer = mem.log.enqueuer)
    (taking : ∀ q, q ≠ p → mem'.log.taking q = mem.log.taking q)
    (shape : ∃ tree, HeapShape level ⟨mem'.buf.mem, live⟩ tree)
    (isLive : ∀ block ∈ ghost.live, block ∈ live ∨ block ∈ ghost.blocks i ∧
      block ∉ blocks)
    (fewer : ∀ block ∈ blocks, block ∈ ghost.blocks i)
    (slot : SlotInv array
      { ghost with
        use := Function.update ghost.use i use
        blocks := Function.update ghost.blocks i blocks
        live := live } mem' i) :
    QueueInv array level
      { ghost with
        use := Function.update ghost.use i use
        blocks := Function.update ghost.blocks i blocks
        live := live } mem' := by
  obtain ⟨inside, below⟩ :=
    inv.inside i (by rcases used with use | use <;> simp [use])
  have top := cells stackTop (EMSdataCell_ne_stackTop inside).symm
  have bottom := cells queueBottom (EMSdataCell_ne_queueBottom inside).symm
  have sub : ∀ j, ∀ block ∈ Function.update ghost.blocks i blocks j,
      block ∈ ghost.blocks j := by
    intro j block member
    by_cases same : j = i
    · subst same
      exact fewer block (by simpa using member)
    · simpa [same] using member
  refine { inv with
    top := by rw [top.2]; exact inv.top
    bottom := by rw [bottom.2]; exact inv.bottom
    topLock := by rw [top.1, enqueuer]; exact inv.topLock
    bottomLock := by rw [bottom.1]; exact inv.bottomLock
    allBegun := by rw [enqueuer]; exact inv.allBegun
    heap := shape
    waiting := ?_
    tickets := ?_
    inside := ?_
    owned := ?_
    distinct := ?_
    slots := ?_ }
  · intro q dequeuer waits
    by_cases same : q = p
    · subst same
      exact absurd waits (inv.not_waiting used dequeuer)
    · rw [taking q same]
      exact inv.waiting q dequeuer waits
  · intro k' lower upper
    have other : slotOf array k' ≠ i := by
      intro same
      rcases inv.tickets k' lower upper with full | ⟨-, q, filling⟩
      · rw [same] at full
        rcases used with use | use <;> simp [use] at full
      · rw [same] at filling
        rcases used with use | use <;> simp [use] at filling
    simpa [other] using inv.tickets k' lower upper
  · intro j usedThere
    by_cases same : j = i
    · rw [same]
      exact ⟨inside, below⟩
    · exact inv.inside j (by simpa [same] using usedThere)
  · intro j lower upper
    by_cases same : j = i
    · rw [same]
      exact slot
    · obtain ⟨sameTag, sameWord⟩ := cells (EMSdataCell j) (by simpa using same)
      refine (inv.slots j lower upper).steady
        ⟨by
          simp
          [same], by simp [same], sameTag, sameWord, fun _ _ _ _ _ => by rw [heap],
          fun _ _ same => same⟩ enqueuer rfl rfl rfl rfl ?_
      intro q k' usedThere isTaking
      have other : q ≠ p := by
        rintro rfl
        exact same (inv.use_unique usedThere used)
      rw [taking q other]
      exact isTaking
  · intro j block member
    have old := sub j block member
    rcases isLive block (inv.owned j block old) with still | ⟨here, gone⟩
    · exact still
    · by_cases same : j = i
      · subst same
        exact absurd (by simpa using member) gone
      · exact absurd here (inv.distinct j i same block old)
  · intro j j' different block member member'
    exact inv.distinct j j' different block (sub j block member)
      (sub j' block member')

theorem QueueInv.empty (inv : QueueInv array level ghost mem) {i : Int}
    {k : Nat} {tag : Tag}
    (use : ghost.use i = .taking p k) (empty : tag.fe = .empty)
    (type : tag.type = (mem.buf.tag (EMSdataCell i)).type)
    (noText : tag.type.isText = false) :
    QueueInv array level { ghost with use := Function.update ghost.use i .free }
      (queuePerform p (.storeTag (EMSdataCell i) tag) mem).2 := by
  obtain ⟨inside, below⟩ := inv.inside i (by simp [use])
  have notTop := EMSdataCell_ne_stackTop inside
  have slot := inv.slots i inside below
  simp only [SlotInv, use] at slot
  obtain ⟨value, -, sameType, contents⟩ := slot.2.2.2.2.2.holds
  have left := inv.leave .free (ghost.blocks i) ghost.live
    (queuePerform p (.storeTag (EMSdataCell i) tag) mem).2 (.inl use) (.inl rfl)
    (fun cell different => by simp [Access.perform, different]) rfl
    (by
      simp only [queuePerform_log, QueueLog.note, if_neg notTop]; split <;> rfl)
    (fun q other => by
      simp only [queuePerform_log, QueueLog.note, if_neg notTop]
      split
      · simp [other]
      · rfl)
    inv.heap (fun _ member => .inl member) (fun _ member => member) (by
      simp only [SlotInv, Function.update_self, queuePerform_buf,
        Access.perform]
      exact ⟨empty, contents.blocks_nil
        (by rw [← sameType, ← type]; exact noText)⟩)
  simpa only [Function.update_eq_self] using left

theorem QueueInv.drain (inv : QueueInv array level ghost mem) {i : Int}
    {k : Nat} {tag : Tag}
    (use : ghost.use i = .taking p k) (empty : tag.fe = .empty)
    (type : tag.type = (mem.buf.tag (EMSdataCell i)).type)
    (isText : tag.type.isText = true) :
    QueueInv array level
      { ghost with use := Function.update ghost.use i (.draining p k) }
      (queuePerform p (.storeTag (EMSdataCell i) tag) mem).2 := by
  obtain ⟨inside, below⟩ := inv.inside i (by simp [use])
  have notTop := EMSdataCell_ne_stackTop inside
  have performed : (queuePerform p (.storeTag (EMSdataCell i) tag) mem).2 =
      ⟨mem.buf.setTag (EMSdataCell i) tag, mem.log⟩ := by
    simp [queuePerform, Access.perform, QueueLog.note, notTop, isText,
      EmsBuf.setTag]
  have slot := inv.slots i inside below
  simp only [SlotInv, use] at slot
  obtain ⟨drawn, lap, isSlot, -, taking, keeps⟩ := slot
  obtain ⟨value, isValue, sameType, contents⟩ := keeps.holds
  rw [performed]
  have left := inv.leave (.draining p k) (ghost.blocks i) ghost.live
    ⟨mem.buf.setTag (EMSdataCell i) tag, mem.log⟩ (.inl use) (.inr rfl)
    (fun cell different => by simp [different]) rfl rfl
      (fun _ _ => rfl) inv.heap
    (fun _ member => .inl member) (fun _ member => member) (by
      simp only [SlotInv, Function.update_self]
      exact ⟨drawn, lap, isSlot, taking, by simp [empty], value, isValue,
        by simp [type, sameType], by simpa using contents⟩)
  simpa only [Function.update_eq_self] using left

theorem QueueInv.unlockBottom (inv : QueueInv array level ghost mem) {tag : Tag}
    (dequeuer : ghost.dequeuer = some p)
    (drawn : ghost.drawn = ghost.spec.object.taken)
    (unused : ∀ i k, ghost.use i ≠ .taking p k) (full : tag.fe = .full) :
    QueueInv array level { ghost with dequeuer := none }
      (queuePerform p (.storeTag queueBottom tag) mem).2 := by
  have performed : (queuePerform p (.storeTag queueBottom tag) mem).2 =
      ⟨mem.buf.setTag queueBottom tag, mem.log⟩ := by
    simp [queuePerform, Access.perform, QueueLog.note,
      stackTop_ne_queueBottom.symm, full,
      EmsBuf.setTag]
  rw [performed]
  refine { inv with
    topLock := by simpa [stackTop_ne_queueBottom] using inv.topLock
    bottomLock := by simp [lockedFE, full]
    allDrawn := fun _ => drawn
    waiting := fun _ none => by cases none
    slots := ?_ }
  intro i lower upper
  refine (inv.slots i lower upper).frame
    ⟨rfl,
      rfl, by simp [EMSdataCell_ne_queueBottom lower], rfl, fun _ _ _ _ _ => rfl,
      fun _ _ same => same⟩ ?_
  cases use : ghost.use i with
  | taking q k =>
      intro _ _ _ holder
      rw [dequeuer] at holder
      obtain rfl := Option.some.inj holder
      exact absurd use (unused i k)
  | free => trivial
  | full k => exact fun _ one two => ⟨one, two⟩
  | filling q => exact fun one two three four => ⟨one, two, three, four⟩
  | draining q k => exact fun _ one two three => ⟨one, two, three⟩

theorem QueueInv.free (inv : QueueInv array level ghost mem) {i : Int} {k : Nat}
    {block : Block}
    (use : ghost.use i = .draining p k) (owned : ghost.blocks i = [block]) :
    QueueInv array level
      { ghost with
        use := Function.update ghost.use i .free
        blocks := Function.update ghost.blocks i []
        live := ghost.live.erase block }
      (queuePerform p (.memFree block.address) mem).2 := by
  obtain ⟨inside, below⟩ := inv.inside i (by simp [use])
  obtain ⟨tree, shape⟩ := inv.heap
  have member : block ∈ ghost.live := inv.owned i block (by simp [owned])
  obtain ⟨mem', given, success, shape'⟩ := shape.free member
  have success : emsMem_free mem.buf.mem block.address = .ok mem' := success
  have bound := (shape.safe inv.small).addressable block member
  have unwrapped : ((block.address : Int) % 2 ^ 64).toNat = block.address := by
    omega
  have performed : (queuePerform p (.memFree block.address) mem).2 =
      ⟨mem.buf.setMem mem',
        { mem.log with taking := Function.update mem.log.taking p none }⟩ := by
    simp only [queuePerform, Access.perform, QueueLog.note, unwrapped, success]
    rfl
  have slot := inv.slots i inside below
  simp only [SlotInv, use] at slot
  rw [performed]
  refine inv.leave .free [] _ _ (.inr use) (.inl rfl)
    (fun _ _ => ⟨rfl, rfl⟩) rfl rfl
    (fun q other => by simp [other]) ⟨given, shape'⟩ ?_ (by simp) ?_
  · intro other isLive
    by_cases same : other = block
    · exact .inr ⟨by simp [owned, same], by simp⟩
    · exact .inl ((List.mem_erase_of_ne same).mpr isLive)
  · simp only [SlotInv, Function.update_self]
    exact ⟨slot.2.2.2.2.fe_eq, trivial⟩

/-- Every move keeps the invariant. -/
theorem QueueInv.move {label : QueueLabel}
    {state next : QueueGhost ι × QueueMem ι}
    (inv : QueueInv array level state.1 state.2)
    (move : QueueMove array level p label state next) :
    QueueInv array level next.1 next.2 := by
  cases move with
  | call op idle => exact inv.phase rfl
  | ret done => exact inv.phase rfl
  | access change =>
      cases change with
      | quiet harmless => exact inv.quiet harmless
      | lockTop found full => exact inv.lockTop found full
      | announce enqueuer begun unused pending =>
          exact inv.announce enqueuer begun unused
      | begin enqueuer announced unused room =>
          exact inv.begin enqueuer announced unused room
      | fill filling hidden fills enqueuer taking =>
          exact inv.fill filling fills enqueuer taking
      | finish filling full isValue type contents =>
          exact inv.finish filling full isValue type contents
      | unlockTop enqueuer begun unused full =>
          exact inv.unlockTop enqueuer begun unused full
      | lockBottom found full => exact inv.lockBottom found full
      | take dequeuer drawn loaded unused isValue pending =>
          exact inv.take dequeuer drawn loaded unused isValue
      | nothing dequeuer drawn loaded pending => exact inv.nothing loaded
      | draw dequeuer taken found full =>
          exact inv.draw dequeuer taken found full
      | empty use empty type noText => exact inv.empty use empty type noText
      | drain use empty type isText => exact inv.drain use empty type isText
      | unlockBottom dequeuer drawn unused full =>
          exact inv.unlockBottom dequeuer drawn unused full
      | free use owned => exact inv.free use owned

end Keeps

variable (ι array level) in
def queueProtocol :
    Protocol ι (QueueMem ι) Access Reply QueueOp EntryRes (QueueGhost ι) where
  move := QueueMove array level
  inv := fun state => QueueInv array level state.1 state.2
  keeps := QueueInv.move

end Moves

end EMS
