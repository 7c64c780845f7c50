import EMS.BarrierRounds
import EMS.Primitives
import Mathlib.Algebra.BigOperators.Group.Finset.Piecewise

/-!
# Parallel loops

`EMSparForEach` with the schedules "guided" and "dynamic".  Every process
stores the bounds of the loop, waits in a barrier, claims one chunk of
iterations after the other until there are none, and waits in a barrier again.
The chunk size is read and written without synchronisation; the index of the
next iteration is only changed by a fetch-and-add.  A process whose call of the
barrier runs out of its timeout leaves its loops with an exception.
-/

namespace EMS

open Interleaving

def EMS_LOOP_IDX : Int := 6
def EMS_LOOP_START : Int := 7
def EMS_LOOP_END : Int := 8
def EMS_LOOP_CHUNKSZ : Int := 9
def EMS_LOOP_MINCHUNK : Int := 10
def EMS_LOOP_SCHED : Int := 11

inductive Schedule where
  | guided
  | dynamic
  deriving DecidableEq

/-- `EMS_SCHED_GUIDED` and `EMS_SCHED_DYNAMIC`. -/
def Schedule.code : Schedule → Int
  | .guided => 1200
  | .dynamic => 1201

/-- The arguments of a parallel loop. -/
structure ParLoop where
  start : Int
  last : Int
  minChunk : Int
  sched : Schedule

/-- The bounds are of type `int32_t` and in order, and so is their
difference. -/
structure ParLoop.Valid (loop : ParLoop) : Prop where
  ordered : loop.start ≤ loop.last
  lower : -2 ^ 31 ≤ loop.start
  upper : loop.last < 2 ^ 31
  range : loop.last - loop.start < 2 ^ 31
  chunk : 1 ≤ loop.minChunk ∧ loop.minChunk < 2 ^ 31

/-- What is stored as the smallest size of a chunk. -/
def ParLoop.leastChunk (loop : ParLoop) : Int :=
  match loop.sched with
  | .guided => loop.minChunk
  | .dynamic => 1

/-! ## The two functions -/

/-- Control points of `EMSloopInit`. -/
inductive InitPc where
  | storeIdx
  | storeStart
  | storeEnd
  | loadThreads
  | storeChunk (nThreads : Int)
  | checkChunk
  | raiseChunk
  | storeOne
  | storeMin
  | storeSched
  deriving DecidableEq

/-- One atomic access of `EMSloopInit`, and where it goes on if it does not
return. -/
def EMSloopInit (loop : ParLoop) (bufInt32 : ControlBlock) :
    InitPc → ControlBlock × Option InitPc
  | .storeIdx =>
    (Function.update bufInt32 EMS_LOOP_IDX loop.start, some .storeStart)
  | .storeStart =>
      (Function.update bufInt32 EMS_LOOP_START loop.start, some .storeEnd)
  | .storeEnd =>
      (Function.update bufInt32 EMS_LOOP_END loop.last,
        match loop.sched with
        | .guided => some .loadThreads
        | .dynamic => some .storeOne)
  | .loadThreads => (bufInt32, some (.storeChunk (bufInt32 EMS_CB_NTHREADS)))
  | .storeChunk nThreads =>
      (Function.update bufInt32 EMS_LOOP_CHUNKSZ
        (((loop.last - loop.start).tdiv 2).tdiv nThreads), some .checkChunk)
  | .checkChunk =>
      (bufInt32,
        if bufInt32 EMS_LOOP_CHUNKSZ < loop.minChunk then some .raiseChunk
          else some .storeMin)
  | .raiseChunk =>
      (Function.update bufInt32 EMS_LOOP_CHUNKSZ loop.minChunk, some .storeMin)
  | .storeOne => (Function.update bufInt32 EMS_LOOP_CHUNKSZ 1, some .storeMin)
  | .storeMin =>
      (Function.update bufInt32 EMS_LOOP_MINCHUNK loop.leastChunk,
        some .storeSched)
  | .storeSched =>
      (Function.update bufInt32 EMS_LOOP_SCHED loop.sched.code, none)

/-- Control points of `EMSloopChunk`, with what `*start`, `*end` and the other
locals hold. -/
inductive ChunkPc where
  | loadChunk
  | fetchAdd (chunkSize : Int)
  | checkStart (start last : Int)
  | checkEnd (start last : Int)
  | clipEnd (start : Int)
  | loadSched (start last : Int)
  | loadEnd (start last : Int)
  | loadThreads (start last left : Int)
  | checkMin (start last newSz : Int)
  | raiseSize (start last : Int)
  | storeChunk (start last newSz : Int)
  deriving DecidableEq

/-- One atomic access of `EMSloopChunk`, and where it goes on, or the extents
with which it returns. -/
def EMSloopChunk (bufInt32 : ControlBlock) :
    ChunkPc → ControlBlock × (ChunkPc ⊕ Int × Int)
  | .loadChunk => (bufInt32, .inl (.fetchAdd (bufInt32 EMS_LOOP_CHUNKSZ)))
  | .fetchAdd chunkSize =>
      (Function.update bufInt32 EMS_LOOP_IDX
        (toInt32 (bufInt32 EMS_LOOP_IDX + chunkSize)),
        .inl (.checkStart (bufInt32 EMS_LOOP_IDX)
          (toInt32 (bufInt32 EMS_LOOP_IDX + chunkSize))))
  | .checkStart start last =>
      (bufInt32, .inl (.checkEnd start
        (if bufInt32 EMS_LOOP_END < start then 0 else last)))
  | .checkEnd start last =>
      (bufInt32,
        .inl (if bufInt32 EMS_LOOP_END < last then .clipEnd start
          else .loadSched start last))
  | .clipEnd start =>
      (bufInt32, .inl (.loadSched start (bufInt32 EMS_LOOP_END)))
  | .loadSched start last =>
      (bufInt32,
        if bufInt32 EMS_LOOP_SCHED = Schedule.guided.code then
          .inl (.loadEnd start last)
        else .inr (start, last))
  | .loadEnd start last =>
      (bufInt32, .inl (.loadThreads start last
        (toInt32 (bufInt32 EMS_LOOP_END - start))))
  | .loadThreads start last left =>
      (bufInt32, .inl (.checkMin start last
        ((left.tdiv 2).tdiv (bufInt32 EMS_CB_NTHREADS))))
  | .checkMin start last newSz =>
      (bufInt32,
        .inl (if newSz < bufInt32 EMS_LOOP_MINCHUNK then .raiseSize start last
          else .storeChunk start last newSz))
  | .raiseSize start last =>
      (bufInt32, .inl (.storeChunk start last (bufInt32 EMS_LOOP_MINCHUNK)))
  | .storeChunk start last newSz =>
      (Function.update bufInt32 EMS_LOOP_CHUNKSZ newSz, .inr (start, last))

/-! ## Processes -/

/-- Control points of `EMSparForEach`.  A process that has thrown an exception
did so in the barrier after the loop that asks for chunks, or in the one
before. -/
inductive LoopPc where
  | outside
  | init (pc : InitPc)
  | opening
  | chunk (pc : ChunkPc)
  | body (start last idx : Int)
  | closing
  | thrown (ended : Bool)
  deriving DecidableEq

/-- A process that runs one loop after the other: where it is in a loop, how
many loops it has left, and its calls of the barrier. -/
structure LoopProcess where
  pc : LoopPc
  loop : Nat
  barrier : BarrierProcess

/-- The memory of the barrier, which is also that of the loops, and how often
the body of each loop has been invoked for each index. -/
structure LoopMemory (N : Nat) where
  barrier : BarrierMemory N
  invoked : Nat → Int → Nat

namespace LoopMemory

variable {N : Nat} (memory : LoopMemory N)

def setWords (bufInt32 : ControlBlock) : LoopMemory N :=
  { memory with barrier := { memory.barrier with bufInt32 := bufInt32 } }

def invoke (loop : Nat) (idx : Int) : LoopMemory N :=
  { memory with
    invoked := fun j i =>
      if j = loop ∧ i = idx then memory.invoked j i + 1
        else memory.invoked j i }

end LoopMemory

inductive LoopAct where
  | call
  | access
  | body (idx : Int)
  | test
  | barrier (act : BarrierAct)

/-- Where `EMSparForEach` goes on after an access of `EMSloopInit`. -/
def LoopPc.afterInit : Option InitPc → LoopPc
  | some pc => .init pc
  | none => .opening

/-- Where it goes on after an access of `EMSloopChunk`. -/
def LoopPc.afterChunk : ChunkPc ⊕ Int × Int → LoopPc
  | .inl pc => .chunk pc
  | .inr (start, last) => .body start last start

section Programs

variable (loops : Nat → ParLoop) (timeout : Int) {N : Nat}

/-- The steps of one process.  All processes run the same loops. -/
inductive LoopProgram (p : Fin N) :
    LoopMemory N → LoopProcess → LoopAct → LoopMemory N → LoopProcess → Prop
  | call {memory : LoopMemory N} {loop : Nat} {barrier : BarrierProcess} :
      LoopProgram p memory ⟨.outside, loop, barrier⟩ .call memory
        ⟨.init .storeIdx, loop, barrier⟩
  | init {memory : LoopMemory N} {loop : Nat} {barrier : BarrierProcess}
      {pc : InitPc} :
      LoopProgram p memory ⟨.init pc, loop, barrier⟩ .access
        (memory.setWords (EMSloopInit (loops loop)
          memory.barrier.bufInt32 pc).1)
        ⟨.afterInit (EMSloopInit (loops loop) memory.barrier.bufInt32 pc).2,
          loop, barrier⟩
  | chunk {memory : LoopMemory N} {loop : Nat} {barrier : BarrierProcess}
      {pc : ChunkPc} :
      LoopProgram p memory ⟨.chunk pc, loop, barrier⟩ .access
        (memory.setWords (EMSloopChunk memory.barrier.bufInt32 pc).1)
        ⟨.afterChunk (EMSloopChunk memory.barrier.bufInt32 pc).2, loop, barrier⟩
  | body {memory : LoopMemory N} {loop : Nat} {barrier : BarrierProcess}
      {start last idx : Int} : idx < last →
      LoopProgram p memory ⟨.body start last idx, loop, barrier⟩ (.body idx)
        (memory.invoke loop idx) ⟨.body start last (idx + 1), loop, barrier⟩
  | test {memory : LoopMemory N} {loop : Nat} {barrier : BarrierProcess}
      {start last idx : Int} : last ≤ idx →
      LoopProgram p memory ⟨.body start last idx, loop, barrier⟩ .test memory
        ⟨if 0 < last - start then .chunk .loadChunk else .closing,
          loop, barrier⟩
  | wait {memory : LoopMemory N} {loop : Nat}
      {barrier barrier' : BarrierProcess} {pc : LoopPc}
      {act : BarrierAct} {memory' : BarrierMemory N} : pc = .opening ∨
      pc = .closing →
      act = .call timeout ∨ act = .access →
      BarrierProgram p memory.barrier barrier act memory' barrier' →
      LoopProgram p memory ⟨pc, loop, barrier⟩ (.barrier act)
        { memory with barrier := memory' }
        ⟨pc, loop, barrier'⟩
  | opened {memory : LoopMemory N} {loop : Nat}
      {barrier barrier' : BarrierProcess} {retval : Int}
      {memory' : BarrierMemory N} :
      BarrierProgram p memory.barrier barrier (.ret retval) memory' barrier' →
        0 < retval →
      LoopProgram p memory ⟨.opening, loop, barrier⟩ (.barrier (.ret retval))
        { memory with barrier := memory' } ⟨.chunk .loadChunk, loop, barrier'⟩
  | closed {memory : LoopMemory N} {loop : Nat}
      {barrier barrier' : BarrierProcess} {retval : Int}
      {memory' : BarrierMemory N} :
      BarrierProgram p memory.barrier barrier (.ret retval) memory' barrier' →
        0 < retval →
      LoopProgram p memory ⟨.closing, loop, barrier⟩ (.barrier (.ret retval))
        { memory with barrier := memory' } ⟨.outside, loop + 1, barrier'⟩
  -- "Failed to sync at barrier"
  | threw {memory : LoopMemory N} {loop : Nat}
      {barrier barrier' : BarrierProcess} {retval : Int}
      {memory' : BarrierMemory N} (ended : Bool) :
      BarrierProgram p memory.barrier barrier (.ret retval) memory' barrier' →
        retval ≤ 0 →
      LoopProgram p memory ⟨if ended then .closing else .opening, loop, barrier⟩
        (.barrier (.ret retval)) { memory with barrier := memory' }
          ⟨.thrown ended, loop, barrier'⟩

abbrev LoopConfig (N : Nat) : Type := Config (Fin N) (LoopMemory N) LoopProcess

/-- The index of the next iteration stays in the range of `int32_t`. -/
def InRange (config : LoopConfig N) (label : Fin N × LoopAct) : Prop :=
  ∀ chunkSize, (config.control label.1).pc = .chunk (.fetchAdd chunkSize) →
    config.shared.barrier.bufInt32 EMS_LOOP_IDX + chunkSize < 2 ^ 31

/-- Any process takes any of its steps. -/
def LoopStep (config : LoopConfig N) (label : Fin N × LoopAct)
    (next : LoopConfig N) : Prop :=
  InRange config label ∧ Step (LoopProgram loops timeout) config label next

/-- The barrier as a system of its own. -/
def barrierOf (config : LoopConfig N) :
    Config (Fin N) (BarrierMemory N) BarrierProcess :=
  ⟨config.shared.barrier, fun p => (config.control p).barrier⟩

/-- A step with which no call of the barrier runs out of its timeout. -/
def TimelyStep (config : LoopConfig N) (label : Fin N × LoopAct)
    (next : LoopConfig N) : Prop :=
  (∀ timeout barPhase, (config.control label.1).barrier.pc =
    .spin timeout barPhase →
    0 < timeout) ∧
  (∀ retval, label.2 = .barrier (.ret retval) → 0 < retval) ∧
  LoopStep loops timeout config label next

/-- Nobody has called a loop yet. -/
def initialLoops (N : Nat) : LoopConfig N :=
  ⟨⟨⟨initialControlBlock N, []⟩, fun _ _ => 0⟩,
    fun _ => ⟨.outside, 0, ⟨.outside, 0, 0⟩⟩⟩

end Programs

/-! ## What the accesses leave alone -/

section Words

variable {loop : ParLoop} {bufInt32 : ControlBlock} {word : Int}

private theorem EMSloopInit_words (control : word ≤ 3) (pc : InitPc) :
    (EMSloopInit loop bufInt32 pc).1 word = bufInt32 word := by
  have other : ∀ {changed : Int} (value : Int), 6 ≤ changed →
      Function.update bufInt32 changed value word = bufInt32 word := by
    intro changed value above
    exact Function.update_of_ne (by omega) _ _
  cases pc with
  | loadThreads | checkChunk => rfl
  | _ => exact other _ (by decide)

private theorem EMSloopChunk_words (control : word ≤ 3) (pc : ChunkPc) :
    (EMSloopChunk bufInt32 pc).1 word = bufInt32 word := by
  have other : ∀ {changed : Int} (value : Int), 6 ≤ changed →
      Function.update bufInt32 changed value word = bufInt32 word := by
    intro changed value above
    exact Function.update_of_ne (by omega) _ _
  cases pc with
  | fetchAdd | storeChunk => exact other _ (by decide)
  | _ => rfl

end Words

/-! ## The rounds of a loop -/

/-- What a process has returned from when it is somewhere in a loop. -/
def LoopProcess.Placed (process : LoopProcess) : Prop :=
  match process.pc with
  | .outside | .init _ =>
      process.barrier.pc = .outside ∧ process.barrier.returned =
        2 * process.loop
  | .opening => process.barrier.returned = 2 * process.loop
  | .chunk _ | .body _ _ _ =>
      process.barrier.pc = .outside ∧ process.barrier.returned =
        2 * process.loop + 1
  | .closing => process.barrier.returned = 2 * process.loop + 1
  | .thrown _ => False

/-- How many of the stores of `EMSloopInit` have been made. -/
def InitPc.rank : InitPc → Nat
  | .storeIdx => 0
  | .storeStart => 1
  | .storeEnd => 2
  | .loadThreads | .storeOne => 3
  | .storeChunk _ => 4
  | .checkChunk => 5
  | .raiseChunk => 6
  | .storeMin => 7
  | .storeSched => 8

def LoopPc.rank : LoopPc → Nat
  | .init pc => pc.rank
  | .opening => 9
  | _ => 0

/-- The size of a chunk has been stored, and may have to be raised. -/
def LoopPc.Unsettled (pc : LoopPc) : Prop :=
  pc = .init .checkChunk ∨ pc = .init .raiseChunk

variable {N : Nat}

/-- While the processes store the bounds of a loop, what has been stored is
there.  A size that is too small is raised by a process that has stored it. -/
structure Setup (loop : ParLoop) (bufInt32 : ControlBlock)
    (pcs : Fin N → LoopPc) : Prop where
  idx : ∀ p, 1 ≤ (pcs p).rank → bufInt32 EMS_LOOP_IDX = loop.start
  last : ∀ p, 3 ≤ (pcs p).rank → bufInt32 EMS_LOOP_END = loop.last
  chunk : ∀ p, 5 ≤ (pcs p).rank →
    1 ≤ bufInt32 EMS_LOOP_CHUNKSZ ∨ ∃ q, (pcs q).Unsettled
  least : ∀ p, 8 ≤ (pcs p).rank → 1 ≤ bufInt32 EMS_LOOP_MINCHUNK

/-- The iterations that the process is still going to run. -/
def LoopPc.extent (loop : ParLoop) : LoopPc → Int × Int
  | .chunk (.checkStart start last) | .chunk (.checkEnd start last) =>
      (start, min last loop.last)
  | .chunk (.clipEnd start) => (start, loop.last)
  | .chunk (.loadSched start last) | .chunk (.loadEnd start last)
  | .chunk (.loadThreads start last _) | .chunk (.checkMin start last _)
  | .chunk (.raiseSize start last) | .chunk (.storeChunk start last _) =>
      (start, last)
  | .body _ last idx => (idx, last)
  | _ => (0, 0)

/-- 1 if the process is still going to run the iteration. -/
def LoopPc.claims (loop : ParLoop) (i : Int) (pc : LoopPc) : Nat :=
  if (pc.extent loop).1 ≤ i ∧ i < (pc.extent loop).2 then 1 else 0

theorem LoopPc.claims_empty {loop : ParLoop} {pc : LoopPc}
    (empty : (pc.extent loop).2 ≤ (pc.extent loop).1) (i : Int) :
    pc.claims loop i = 0 := by
  apply if_neg
  omega

theorem LoopPc.claims_congr {loop : ParLoop} {pc pc' : LoopPc}
    (same : pc.extent loop = pc'.extent loop) (i : Int) :
    pc.claims loop i = pc'.claims loop i := by
  rw [LoopPc.claims, LoopPc.claims, same]

/-- A chunk that has been claimed, after its end has been clipped. -/
structure Clipped (loop : ParLoop) (next start last : Int) : Prop where
  claimed : start < next
  inside : loop.start ≤ start
  below : last ≤ loop.last
  nonempty : start < loop.last → start < last

/-- Where a process can be while the iterations are shared, when `next` is the
index of the next one. -/
def LoopPc.Shares (loop : ParLoop) (next : Int) : LoopPc → Prop
  | .chunk (.fetchAdd chunkSize) => 1 ≤ chunkSize
  | .chunk (.checkStart start last) =>
      start < next ∧ loop.start ≤ start ∧ start < last
  | .chunk (.checkEnd start last) =>
      start < next ∧ loop.start ≤ start ∧ (start < loop.last → start < last)
  | .chunk (.clipEnd start) => start < next ∧ loop.start ≤ start
  | .chunk (.loadSched start last) | .chunk (.loadEnd start last)
  | .chunk (.loadThreads start last _) | .chunk (.checkMin start last _)
  | .chunk (.raiseSize start last) => Clipped loop next start last
  | .chunk (.storeChunk start last newSz) =>
      Clipped loop next start last ∧ 1 ≤ newSz
  | .body start last idx => Clipped loop next start last ∧ start ≤ idx
  | .closing => loop.last ≤ next
  | _ => True

/-- While the processes share the iterations, each one below the next has been
run or is going to be, once, and no others. -/
structure Sharing (loop : ParLoop) (invoked : Int → Nat)
    (bufInt32 : ControlBlock)
    (pcs : Fin N → LoopPc) : Prop where
  last : bufInt32 EMS_LOOP_END = loop.last
  least : 1 ≤ bufInt32 EMS_LOOP_MINCHUNK
  size : 1 ≤ bufInt32 EMS_LOOP_CHUNKSZ
  next : loop.start ≤ bufInt32 EMS_LOOP_IDX
  shares : ∀ p, (pcs p).Shares loop (bufInt32 EMS_LOOP_IDX)
  once : ∀ i, invoked i + ∑ p, (pcs p).claims loop i =
    if loop.start ≤ i ∧ i < bufInt32 EMS_LOOP_IDX ∧ i < loop.last then 1 else 0

private theorem claims_update (loop : ParLoop) (i : Int) (pcs : Fin N → LoopPc)
    (p : Fin N) (pc : LoopPc) :
    ∑ q, (Function.update pcs p pc q).claims loop i + (pcs p).claims loop i =
      ∑ q, (pcs q).claims loop i + pc.claims loop i :=
  BulkSynchronous.tally_update (LoopPc.claims loop i) pcs p pc

theorem LoopPc.Shares.mono {loop : ParLoop} {next next' : Int} {pc : LoopPc}
    (le : next ≤ next')
    (shares : pc.Shares loop next) : pc.Shares loop next' := by
  have clipped : ∀ {start last : Int}, Clipped loop next start last →
      Clipped loop next' start last := by
    intro start last before
    exact { before with claimed := before.claimed.trans_le le }
  cases pc with
  | chunk pc =>
      cases pc with
      | loadChunk => trivial
      | fetchAdd => exact shares
      | checkStart | checkEnd => exact ⟨shares.1.trans_le le, shares.2⟩
      | clipEnd => exact ⟨shares.1.trans_le le, shares.2⟩
      | storeChunk => exact ⟨clipped shares.1, shares.2⟩
      | _ => exact clipped shares
  | body => exact ⟨clipped shares.1, shares.2⟩
  | closing => exact shares.trans le
  | _ => trivial

section Shared

variable {loop : ParLoop} {invoked invoked' : Int → Nat}
  {bufInt32 bufInt32' : ControlBlock}
  {pcs : Fin N → LoopPc} {p : Fin N} {pc : LoopPc}

/-- A process moves while the iterations are shared. -/
theorem Sharing.moves (sharing : Sharing loop invoked bufInt32 pcs)
    (last : bufInt32' EMS_LOOP_END = bufInt32 EMS_LOOP_END)
    (least : bufInt32' EMS_LOOP_MINCHUNK = bufInt32 EMS_LOOP_MINCHUNK)
    (size : 1 ≤ bufInt32' EMS_LOOP_CHUNKSZ)
    (next : bufInt32 EMS_LOOP_IDX ≤ bufInt32' EMS_LOOP_IDX)
    (shares : pc.Shares loop (bufInt32' EMS_LOOP_IDX))
    (once : ∀ i, invoked' i + pc.claims loop i =
      invoked i + (pcs p).claims loop i +
        if bufInt32 EMS_LOOP_IDX ≤ i ∧ i < bufInt32' EMS_LOOP_IDX ∧
          i < loop.last then 1 else 0) :
    Sharing loop invoked' bufInt32' (Function.update pcs p pc) := by
  refine ⟨last.trans sharing.last, least ▸ sharing.least, size,
    sharing.next.trans next, ?_, ?_⟩
  · intro q
    by_cases same : q = p
    · subst same
      simpa using shares
    · rw [Function.update_of_ne same]
      exact (sharing.shares q).mono next
  · intro i
    have before := sharing.once i
    have moved := claims_update loop i pcs p pc
    have claimed := once i
    have start := sharing.next
    split_ifs at before claimed ⊢ <;> omega

theorem Sharing.looks (sharing : Sharing loop invoked bufInt32 pcs)
    (shares : pc.Shares loop (bufInt32 EMS_LOOP_IDX))
    (claims : ∀ i, pc.claims loop i = (pcs p).claims loop i) :
    Sharing loop invoked bufInt32 (Function.update pcs p pc) := by
  apply sharing.moves rfl rfl sharing.size (Int.le_refl _) shares
  intro i
  rw [claims i, if_neg (by omega), Nat.add_zero]

/-- A process takes a step of `EMSloopChunk`. -/
theorem Sharing.chunk (sharing : Sharing loop invoked bufInt32 pcs)
    {access : ChunkPc}
    (here : pcs p = .chunk access) (lower : -2 ^ 31 ≤ loop.start)
    (range : ∀ chunkSize, access = .fetchAdd chunkSize →
      bufInt32 EMS_LOOP_IDX + chunkSize < 2 ^ 31) :
    Sharing loop invoked (EMSloopChunk bufInt32 access).1
      (Function.update pcs p
        (.afterChunk (EMSloopChunk bufInt32 access).2)) := by
  have shares := sharing.shares p
  have endHere := sharing.last
  have least := sharing.least
  rw [here] at shares
  cases access with
  | loadChunk =>
      apply sharing.looks
      · exact sharing.size
      · intro i
        rw [here]
        rfl
  | fetchAdd chunkSize =>
      have upper := range chunkSize rfl
      have start := sharing.next
      simp only [LoopPc.Shares] at shares
      have advance : toInt32 (bufInt32 EMS_LOOP_IDX + chunkSize) =
          bufInt32 EMS_LOOP_IDX + chunkSize := toInt32_eq (by omega) upper
      have idx : (EMSloopChunk bufInt32 (.fetchAdd chunkSize)).1 EMS_LOOP_IDX =
          bufInt32 EMS_LOOP_IDX + chunkSize := by
        simp only [EMSloopChunk, advance, Function.update_self]
      apply sharing.moves
      · rfl
      · rfl
      · exact sharing.size
      · omega
      · rw [idx]
        simp only [EMSloopChunk, LoopPc.afterChunk, LoopPc.Shares, advance]
        omega
      · intro i
        have nothing : (LoopPc.chunk (.fetchAdd chunkSize)).claims loop i = 0 :=
          LoopPc.claims_empty (Int.le_refl _) i
        rw [idx, here, nothing]
        simp only [EMSloopChunk, LoopPc.afterChunk, LoopPc.claims,
          LoopPc.extent, advance,
          lt_min_iff]
        split_ifs <;> omega
  | checkStart start last =>
      simp only [LoopPc.Shares] at shares
      apply sharing.looks
      · simp only [EMSloopChunk, LoopPc.afterChunk, LoopPc.Shares, endHere]
        split_ifs <;> omega
      · intro i
        rw [here]
        simp only [EMSloopChunk, LoopPc.afterChunk, LoopPc.claims,
          LoopPc.extent, endHere,
          lt_min_iff]
        split_ifs <;> omega
  | checkEnd start last =>
      simp only [LoopPc.Shares] at shares
      by_cases clip : loop.last < last
      · apply sharing.looks
        · simp only [EMSloopChunk, LoopPc.afterChunk, endHere, if_pos clip]
          exact ⟨shares.1, shares.2.1⟩
        · intro i
          rw [here]
          apply LoopPc.claims_congr
          simp only [EMSloopChunk, LoopPc.afterChunk, LoopPc.extent, endHere,
            if_pos clip, Int.min_eq_right clip.le]
      · apply sharing.looks
        · simp only [EMSloopChunk, LoopPc.afterChunk, endHere, if_neg clip]
          exact ⟨shares.1, shares.2.1, by omega, shares.2.2⟩
        · intro i
          rw [here]
          apply LoopPc.claims_congr
          simp only [EMSloopChunk, LoopPc.afterChunk, LoopPc.extent, endHere,
            if_neg clip, Int.min_eq_left (not_lt.mp clip)]
  | clipEnd start =>
      apply sharing.looks
      · simp only [EMSloopChunk, LoopPc.afterChunk, endHere]
        exact ⟨shares.1, shares.2, Int.le_refl _, id⟩
      · intro i
        rw [here]
        apply LoopPc.claims_congr
        simp only [EMSloopChunk, LoopPc.afterChunk, LoopPc.extent, endHere]
  | loadSched start last =>
      by_cases guided : bufInt32 EMS_LOOP_SCHED = Schedule.guided.code
      · apply sharing.looks
        · simp only [EMSloopChunk, LoopPc.afterChunk, if_pos guided]
          exact shares
        · intro i
          rw [here]
          apply LoopPc.claims_congr
          simp only [EMSloopChunk, LoopPc.afterChunk, LoopPc.extent,
            if_pos guided]
      · apply sharing.looks
        · simp only [EMSloopChunk, LoopPc.afterChunk, if_neg guided]
          exact ⟨shares, Int.le_refl _⟩
        · intro i
          rw [here]
          apply LoopPc.claims_congr
          simp only [EMSloopChunk, LoopPc.afterChunk, LoopPc.extent,
            if_neg guided]
  | checkMin start last newSz =>
      by_cases small : newSz < bufInt32 EMS_LOOP_MINCHUNK
      · apply sharing.looks
        · simp only [EMSloopChunk, LoopPc.afterChunk, if_pos small]
          exact shares
        · intro i
          rw [here]
          apply LoopPc.claims_congr
          simp only [EMSloopChunk, LoopPc.afterChunk, LoopPc.extent,
            if_pos small]
      · apply sharing.looks
        · simp only [EMSloopChunk, LoopPc.afterChunk, if_neg small]
          exact ⟨shares, by omega⟩
        · intro i
          rw [here]
          apply LoopPc.claims_congr
          simp only [EMSloopChunk, LoopPc.afterChunk, LoopPc.extent,
            if_neg small]
  | raiseSize start last =>
      apply sharing.looks
      · exact ⟨shares, least⟩
      · intro i
        rw [here]
        rfl
  | storeChunk start last newSz =>
      apply sharing.moves
      · rfl
      · rfl
      · exact shares.2
      · exact Int.le_refl _
      · exact ⟨shares.1, Int.le_refl _⟩
      · intro i
        rw [here]
        have still : (EMSloopChunk bufInt32 (.storeChunk start last newSz)).1
            EMS_LOOP_IDX =
            bufInt32 EMS_LOOP_IDX := rfl
        rw [still, if_neg (by omega)]
        rfl
  | loadEnd | loadThreads =>
      apply sharing.looks
      · exact shares
      · intro i
        rw [here]
        rfl

/-- A process runs the body of the loop once. -/
theorem Sharing.body (sharing : Sharing loop invoked bufInt32 pcs)
    {start last idx : Int}
    (here : pcs p = .body start last idx) (before : idx < last) :
    Sharing loop (fun i => if i = idx then invoked i + 1
      else invoked i) bufInt32
      (Function.update pcs p (.body start last (idx + 1))) := by
  have shares := sharing.shares p
  rw [here] at shares
  apply sharing.moves rfl rfl sharing.size (Int.le_refl _)
  · exact ⟨shares.1, by have := shares.2; omega⟩
  · intro i
    have nothing : ¬ (bufInt32 EMS_LOOP_IDX ≤ i ∧ i < bufInt32 EMS_LOOP_IDX ∧
        i < loop.last) := by
      omega
    rw [here, if_neg nothing, Nat.add_zero]
    simp only [LoopPc.claims, LoopPc.extent]
    grind

/-- A process leaves the body of the loop. -/
theorem Sharing.test (sharing : Sharing loop invoked bufInt32 pcs)
    {start last idx : Int}
    (here : pcs p = .body start last idx) (after : last ≤ idx) :
    Sharing loop invoked bufInt32
      (Function.update pcs p
        (if 0 < last - start then .chunk .loadChunk else .closing)) := by
  have shares := sharing.shares p
  rw [here] at shares
  obtain ⟨⟨claimed, -, -, nonempty⟩, -⟩ := shares
  have done : ∀ i, (pcs p).claims loop i = 0 := by
    apply LoopPc.claims_empty
    rwa [here]
  by_cases more : 0 < last - start
  · rw [if_pos more]
    apply sharing.looks
    · trivial
    · intro i
      rw [done]
      exact LoopPc.claims_empty (Int.le_refl _) i
  · rw [if_neg more]
    apply sharing.looks
    · simp only [LoopPc.Shares]
      omega
    · intro i
      rw [done]
      exact LoopPc.claims_empty (Int.le_refl _) i

theorem Sharing.congr (sharing : Sharing loop invoked bufInt32 pcs)
    (same : ∀ word, 3 < word → bufInt32' word = bufInt32 word) :
    Sharing loop invoked bufInt32' pcs := by
  obtain ⟨last, least, size, next, shares, once⟩ := sharing
  rw [← same EMS_LOOP_END (by decide)] at last
  rw [← same EMS_LOOP_MINCHUNK (by decide)] at least
  rw [← same EMS_LOOP_CHUNKSZ (by decide)] at size
  rw [← same EMS_LOOP_IDX (by decide)] at next
  simp only [← same EMS_LOOP_IDX (by decide)] at shares once
  exact ⟨last, least, size, next, shares, once⟩

theorem Setup.congr (setup : Setup loop bufInt32 pcs)
    (same : ∀ word, 3 < word → bufInt32' word = bufInt32 word) :
    Setup loop bufInt32' pcs := by
  obtain ⟨idx, last, chunk, least⟩ := setup
  simp only [← same EMS_LOOP_IDX (by decide)] at idx
  simp only [← same EMS_LOOP_END (by decide)] at last
  simp only [← same EMS_LOOP_CHUNKSZ (by decide)] at chunk
  simp only [← same EMS_LOOP_MINCHUNK (by decide)] at least
  exact ⟨idx, last, chunk, least⟩

/-- A process that has made `before` of the stores moves on and has made
`after` of them. -/
theorem Setup.moves (setup : Setup loop bufInt32 pcs) (before after : Nat)
    (rankBefore : (pcs p).rank = before) (rankAfter : pc.rank = after)
    (idx : bufInt32' EMS_LOOP_IDX = loop.start ∨
      bufInt32' EMS_LOOP_IDX = bufInt32 EMS_LOOP_IDX ∧ (1 ≤ after → 1 ≤ before))
    (last : bufInt32' EMS_LOOP_END = loop.last ∨
      bufInt32' EMS_LOOP_END = bufInt32 EMS_LOOP_END ∧ (3 ≤ after → 3 ≤ before))
    (chunk : 1 ≤ bufInt32' EMS_LOOP_CHUNKSZ ∨ pc.Unsettled ∨
      bufInt32' EMS_LOOP_CHUNKSZ = bufInt32 EMS_LOOP_CHUNKSZ ∧
        ¬ (pcs p).Unsettled ∧
        (5 ≤ after → 5 ≤ before))
    (least : 1 ≤ bufInt32' EMS_LOOP_MINCHUNK ∨
      bufInt32' EMS_LOOP_MINCHUNK = bufInt32 EMS_LOOP_MINCHUNK ∧
        (8 ≤ after → 8 ≤ before)) :
    Setup loop bufInt32' (Function.update pcs p pc) := by
  -- whoever has made a store now had made it before, or `p` has just made it
  have earlier : ∀ {bound : Nat} (q : Fin N), (bound ≤ after → bound ≤ before) →
      bound ≤ (Function.update pcs p pc q).rank → bound ≤ (pcs q).rank := by
    intro bound q own above
    by_cases same : q = p
    · subst same
      rw [Function.update_self, rankAfter] at above
      exact rankBefore ▸ own above
    · rwa [Function.update_of_ne same] at above
  constructor
  · intro q above
    obtain stored | ⟨same, own⟩ := idx
    · exact stored
    · exact same.trans (setup.idx q (earlier q own above))
  · intro q above
    obtain stored | ⟨same, own⟩ := last
    · exact stored
    · exact same.trans (setup.last q (earlier q own above))
  · intro q above
    obtain stored | unsettled | ⟨same, settled, own⟩ := chunk
    · exact .inl stored
    · exact .inr ⟨p, by rwa [Function.update_self]⟩
    · rw [same]
      obtain stored | ⟨r, unsettled⟩ := setup.chunk q (earlier q own above)
      · exact .inl stored
      · refine .inr ⟨r, ?_⟩
        have different : r ≠ p := by
          intro equal
          exact settled (equal ▸ unsettled)
        rwa [Function.update_of_ne different]
  · intro q above
    obtain stored | ⟨same, own⟩ := least
    · exact stored
    · exact same ▸ setup.least q (earlier q own above)

theorem ParLoop.Valid.leastChunk (valid : loop.Valid) :
    1 ≤ loop.leastChunk := by
  unfold ParLoop.leastChunk
  split
  · exact valid.chunk.1
  · exact Int.le_refl _

/-- A process takes a step of `EMSloopInit`. -/
theorem Setup.init (setup : Setup loop bufInt32 pcs) (valid : loop.Valid)
    {access : InitPc}
    (here : pcs p = .init access) :
    Setup loop (EMSloopInit loop bufInt32 access).1
      (Function.update pcs p
        (.afterInit (EMSloopInit loop bufInt32 access).2)) := by
  have rank : (pcs p).rank = access.rank := by
    rw [here]
    rfl
  have settled : access ≠ .checkChunk → access ≠ .raiseChunk →
      ¬ (pcs p).Unsettled := by
    intro notCheck notRaise unsettled
    simp only [LoopPc.Unsettled, here, LoopPc.init.injEq, notCheck,
      notRaise, or_self]
      at unsettled
  cases access with
  | storeIdx =>
      exact setup.moves 0 1 rank rfl (.inl rfl) (.inr ⟨rfl, by decide⟩)
        (.inr (.inr ⟨rfl, settled nofun nofun, by decide⟩))
          (.inr ⟨rfl, by decide⟩)
  | storeStart =>
      exact setup.moves 1 2 rank rfl (.inr ⟨rfl, by decide⟩)
        (.inr ⟨rfl, by decide⟩)
        (.inr (.inr ⟨rfl, settled nofun nofun, by decide⟩))
          (.inr ⟨rfl, by decide⟩)
  | storeEnd =>
      have after : (LoopPc.afterInit
          (EMSloopInit loop bufInt32 .storeEnd).2).rank = 3 := by
        simp only [EMSloopInit]
        split <;> rfl
      exact setup.moves 2 3 rank after (.inr ⟨rfl, by decide⟩) (.inl rfl)
        (.inr (.inr ⟨rfl, settled nofun nofun, by decide⟩))
          (.inr ⟨rfl, by decide⟩)
  | loadThreads =>
      exact setup.moves 3 4 rank rfl (.inr ⟨rfl, by decide⟩)
        (.inr ⟨rfl, by decide⟩)
        (.inr (.inr ⟨rfl, settled nofun nofun, by decide⟩))
          (.inr ⟨rfl, by decide⟩)
  | storeChunk =>
      exact setup.moves 4 5 rank rfl (.inr ⟨rfl, by decide⟩)
        (.inr ⟨rfl, by decide⟩)
        (.inr (.inl (.inl rfl))) (.inr ⟨rfl, by decide⟩)
  | checkChunk =>
      by_cases small : bufInt32 EMS_LOOP_CHUNKSZ < loop.minChunk
      · simp only [EMSloopInit, if_pos small, LoopPc.afterInit]
        exact setup.moves 5 6 rank rfl (.inr ⟨rfl, by decide⟩)
          (.inr ⟨rfl, by decide⟩)
          (.inr (.inl (.inr rfl))) (.inr ⟨rfl, by decide⟩)
      · have enough : 1 ≤ bufInt32 EMS_LOOP_CHUNKSZ :=
          valid.chunk.1.trans (not_lt.mp small)
        simp only [EMSloopInit, if_neg small, LoopPc.afterInit]
        exact setup.moves 5 7 rank rfl (.inr ⟨rfl, by decide⟩)
          (.inr ⟨rfl, by decide⟩)
          (.inl enough) (.inr ⟨rfl, by decide⟩)
  | raiseChunk =>
      exact setup.moves 6 7 rank rfl (.inr ⟨rfl, by decide⟩)
        (.inr ⟨rfl, by decide⟩)
        (.inl valid.chunk.1) (.inr ⟨rfl, by decide⟩)
  | storeOne =>
      exact setup.moves 3 7 rank rfl (.inr ⟨rfl, by decide⟩)
        (.inr ⟨rfl, by decide⟩)
        (.inl (Int.le_refl 1)) (.inr ⟨rfl, by decide⟩)
  | storeMin =>
      exact setup.moves 7 8 rank rfl (.inr ⟨rfl, by decide⟩)
        (.inr ⟨rfl, by decide⟩)
        (.inr (.inr ⟨rfl, settled nofun nofun, by decide⟩))
          (.inl valid.leastChunk)
  | storeSched =>
      exact setup.moves 8 9 rank rfl (.inr ⟨rfl, by decide⟩)
        (.inr ⟨rfl, by decide⟩)
        (.inr (.inr ⟨rfl, settled nofun nofun, by decide⟩))
          (.inr ⟨rfl, by decide⟩)

theorem Setup.stays (setup : Setup loop bufInt32 pcs)
    (before : (pcs p).rank = 0)
    (after : pc.rank = 0) : Setup loop bufInt32 (Function.update pcs p pc) := by
  have settled : ¬ (pcs p).Unsettled := by
    intro unsettled
    obtain here | here := unsettled
    all_goals
      rw [here] at before
      cases before
  exact setup.moves 0 0 before after (.inr ⟨rfl, id⟩) (.inr ⟨rfl, id⟩)
    (.inr (.inr ⟨rfl, settled, id⟩))
    (.inr ⟨rfl, id⟩)

/-- When everybody has stored the bounds, the iterations can be shared. -/
theorem Setup.opens (setup : Setup loop bufInt32 pcs) (p : Fin N)
    (opening : ∀ q, pcs q = .opening) (fresh : ∀ i, invoked i = 0) :
    Sharing loop invoked bufInt32 pcs := by
  have rank : (pcs p).rank = 9 := by
    rw [opening]
    rfl
  have idx := setup.idx p (by omega)
  have size : 1 ≤ bufInt32 EMS_LOOP_CHUNKSZ := by
    obtain stored | ⟨q, unsettled⟩ := setup.chunk p (by omega)
    · exact stored
    · simp only [LoopPc.Unsettled, opening q, reduceCtorEq,
        or_self] at unsettled
  refine ⟨setup.last p (by omega), setup.least p (by omega), size,
    idx.ge, ?_, ?_⟩
  · intro q
    rw [opening]
    trivial
  · intro i
    have nobody : ∑ q, (pcs q).claims loop i = 0 := by
      apply Finset.sum_eq_zero
      intro q _
      rw [opening]
      exact LoopPc.claims_empty (Int.le_refl _) i
    rw [fresh, nobody, idx, if_neg (by omega)]

/-- When everybody has run out of chunks, every iteration has been run. -/
theorem Sharing.closes (sharing : Sharing loop invoked bufInt32 pcs) (p : Fin N)
    (closing : ∀ q, pcs q = .closing) (i : Int) :
    invoked i = if loop.start ≤ i ∧ i < loop.last then 1 else 0 := by
  have finished := sharing.shares p
  have once := sharing.once i
  have nobody : ∑ q, (pcs q).claims loop i = 0 := by
    apply Finset.sum_eq_zero
    intro q _
    rw [closing]
    exact LoopPc.claims_empty (Int.le_refl _) i
  rw [closing] at finished
  simp only [LoopPc.Shares] at finished
  rw [nobody, Nat.add_zero] at once
  rw [once]
  split_ifs <;> omega

end Shared

/-! ## The invariant of all loops -/

/-- Where everybody is in `EMSparForEach`. -/
def loopPcs (control : Fin N → LoopProcess) : Fin N → LoopPc :=
  fun p => (control p).pc

theorem loopPcs_update (control : Fin N → LoopProcess) (p : Fin N)
    (process : LoopProcess) :
    loopPcs (Function.update control p process) =
      Function.update (loopPcs control) p process.pc := by
  funext q
  by_cases same : q = p
  · subst same
    simp [loopPcs]
  · simp [loopPcs, same]

/-- The even rounds of the barrier are those in which the bounds of a loop are
stored, the odd ones those in which its iterations are shared. -/
structure LoopInvariant (loops : Nat → ParLoop) (round : Nat)
    (config : LoopConfig N) : Prop where
  barrier : BarrierInvariant round (barrierOf config)
  placed : ∀ p, (config.control p).Placed
  setup : ∀ k, round = 2 * k →
    Setup (loops k) config.shared.barrier.bufInt32 (loopPcs config.control)
  sharing : ∀ k, round = 2 * k + 1 →
    Sharing (loops k) (config.shared.invoked k) config.shared.barrier.bufInt32
      (loopPcs config.control)
  finished : ∀ k, 2 * k + 2 ≤ round → ∀ i, config.shared.invoked k i =
    if (loops k).start ≤ i ∧ i < (loops k).last then 1 else 0
  pending : ∀ k, round ≤ 2 * k → ∀ i, config.shared.invoked k i = 0

private theorem initialLoops_invariant (positive : 0 < N)
    (loops : Nat → ParLoop) :
    LoopInvariant loops 0 (initialLoops N) := by
  refine ⟨initialBarrier_invariant positive, fun _ => ⟨rfl, rfl⟩, ?_,
    nofun, nofun,
    fun _ _ _ => rfl⟩
  intro k _
  constructor
  all_goals
    intro p above
    cases above

section Steps

variable {loops : Nat → ParLoop} {timeout : Int} {round : Nat}
  {memory : LoopMemory N}
  {control : Fin N → LoopProcess} {p : Fin N}

theorem LoopInvariant.fits
    (invariant : LoopInvariant loops round ⟨memory, control⟩)
    {process : LoopProcess} (here : control p = process) :
    process.Placed ∧ process.barrier.Fits round := by
  subst here
  exact ⟨invariant.placed p, invariant.barrier.fits p⟩

theorem LoopInvariant.placed_update
    (invariant : LoopInvariant loops round ⟨memory, control⟩)
    {process : LoopProcess} (placed : process.Placed) (q : Fin N) :
    (Function.update control p process q).Placed := by
  by_cases same : q = p
  · subst same
    rwa [Function.update_self]
  · rw [Function.update_of_ne same]
    exact invariant.placed q

theorem LoopInvariant.barrier_congr
    (invariant : LoopInvariant loops round ⟨memory, control⟩)
    {process : LoopProcess} (barrier : process.barrier = (control p).barrier)
    {bufInt32 : ControlBlock} (same : ∀ word, word ≤ 3 →
      bufInt32 word = memory.barrier.bufInt32 word)
        (invoked : Nat → Int → Nat) :
    BarrierInvariant round
      (barrierOf ⟨⟨{ memory.barrier with bufInt32 := bufInt32 }, invoked⟩,
      Function.update control p process⟩) := by
  have still : (fun q => (Function.update control p process q).barrier) =
      fun q => (control q).barrier := by
    funext q
    by_cases equal : q = p
    · subst equal
      rw [Function.update_self, barrier]
    · rw [Function.update_of_ne equal]
  have invariantHere := invariant.barrier.congr same
  simp only [barrierOf, still]
  exact invariantHere

/-- A process takes a step while the bounds are stored. -/
theorem LoopInvariant.stores {k : Nat}
    (invariant : LoopInvariant loops (2 * k) ⟨memory, control⟩)
    (process : LoopProcess) (bufInt32 : ControlBlock)
    (barrier : process.barrier = (control p).barrier) (placed : process.Placed)
    (same : ∀ word, word ≤ 3 → bufInt32 word = memory.barrier.bufInt32 word)
    (setup : Setup (loops k) bufInt32
      (Function.update (loopPcs control) p process.pc)) :
    LoopInvariant loops (2 * k)
      ⟨memory.setWords bufInt32, Function.update control p process⟩ := by
  refine ⟨invariant.barrier_congr barrier same _,
    invariant.placed_update placed, ?_, ?_,
    invariant.finished, invariant.pending⟩
  · intro j round
    obtain rfl : k = j := by omega
    rw [loopPcs_update]
    exact setup
  · intro j round
    omega

/-- A process takes a step while the iterations are shared. -/
theorem LoopInvariant.shared {k : Nat}
    (invariant : LoopInvariant loops (2 * k + 1) ⟨memory, control⟩)
    (process : LoopProcess) (bufInt32 : ControlBlock)
    (invoked : Nat → Int → Nat)
    (barrier : process.barrier = (control p).barrier) (placed : process.Placed)
    (same : ∀ word, word ≤ 3 → bufInt32 word = memory.barrier.bufInt32 word)
    (others : ∀ j, j ≠ k → invoked j = memory.invoked j)
    (sharing : Sharing (loops k) (invoked k) bufInt32
      (Function.update (loopPcs control) p process.pc)) :
    LoopInvariant loops (2 * k + 1)
      ⟨⟨{ memory.barrier with bufInt32 := bufInt32 }, invoked⟩,
        Function.update control p process⟩ := by
  refine ⟨invariant.barrier_congr barrier same _,
    invariant.placed_update placed, ?_, ?_, ?_, ?_⟩
  · intro j round
    omega
  · intro j round
    obtain rfl : k = j := by omega
    rw [loopPcs_update]
    exact sharing
  · intro j passed i
    exact (congrFun (others j (by omega)) i).trans
      (invariant.finished j passed i)
  · intro j early i
    exact (congrFun (others j (by omega)) i).trans (invariant.pending j early i)

/-- When a process is about to end the round, everybody waits in the barrier. -/
theorem LoopInvariant.together
    (invariant : LoopInvariant loops round ⟨memory, control⟩)
    (closing : (control p).barrier.pc.isClosing = true) (q : Fin N) :
    ((control q).pc = .opening ∧ round = 2 * (control q).loop) ∨
      ((control q).pc = .closing ∧ round = 2 * (control q).loop + 1) := by
  have waits : (control q).barrier.pc ≠ .outside ∧
      (control q).barrier.returned = round := by
    have fits := invariant.barrier.fits q
    simp only [barrierOf] at fits
    by_cases same : q = p
    · subst same
      cases pcEq : (control q).barrier.pc <;>
        simp_all [BarrierPc.isClosing, BarrierProcess.Fits]
    · have waiting := invariant.barrier.closing p closing q same
      cases pcEq : (control q).barrier.pc with
      | spin timeout barPhase =>
          simp only [barrierOf, BarrierProcess.isWaiting, pcEq] at waiting
          have entered := of_decide_eq_true waiting
          simp only [BarrierProcess.Fits, pcEq] at fits
          refine ⟨by simp, ?_⟩
          omega
      | _ => simp [barrierOf, BarrierProcess.isWaiting, pcEq] at waiting
  have placed := invariant.placed q
  simp only [LoopProcess.Placed] at placed
  cases pcEq : (control q).pc with
  | opening =>
      simp only [pcEq] at placed
      exact .inl ⟨rfl, by omega⟩
  | closing =>
      simp only [pcEq] at placed
      exact .inr ⟨rfl, by omega⟩
  | thrown => simp [pcEq] at placed
  | _ =>
      simp only [pcEq] at placed
      exact absurd placed.1 waits.1

private theorem barrier_update (control : Fin N → LoopProcess) (p : Fin N)
    (process : LoopProcess) :
    (fun q => (Function.update control p process q).barrier) =
      Function.update (fun q => (control q).barrier) p process.barrier := by
  funext q
  by_cases same : q = p
  · subst same
    simp
  · simp [same]

theorem LoopInvariant.other_words
    (invariant : LoopInvariant loops round ⟨memory, control⟩)
    {act : BarrierAct} {memory' : BarrierMemory N} {barrier : BarrierProcess}
    (moved : BarrierProgram p memory.barrier
      (control p).barrier act memory' barrier)
    (word : Int) (loopWord : 3 < word) :
    memory'.bufInt32 word = memory.barrier.bufInt32 word := by
  have fits := invariant.barrier.fits p
  simp only [barrierOf] at fits
  generalize (control p).barrier = process at moved fits
  cases moved with
  | call => rfl
  | ret => rfl
  | access notOutside notDone =>
      apply EMSbarrier_words fits
      simp only [BarrierWord, EMS_CB_NBAR0, EMS_CB_NBAR1, EMS_CB_BARPHASE]
      omega

theorem LoopInvariant.barrier_step
    (invariant : LoopInvariant loops round ⟨memory, control⟩)
    {act : BarrierAct} {memory' : BarrierMemory N} {process : LoopProcess}
    (inTime : ∀ timeout barPhase,
      (control p).barrier.pc = .spin timeout barPhase → 0 < timeout)
    (moved : BarrierProgram p memory.barrier
      (control p).barrier act memory' process.barrier) :
    BarrierInvariant memory'.flips.length
      (barrierOf ⟨{ memory with barrier := memory' },
        Function.update control p process⟩) := by
  have step : BarrierStep (barrierOf ⟨memory, control⟩) (p, act)
      ⟨memory', Function.update (fun q => (control q).barrier) p
          process.barrier⟩ :=
    ⟨inTime, .mk moved⟩
  obtain ⟨round', next⟩ := invariant.barrier.step step
  have roundEq := next.round_eq
  simp only [flipCount] at roundEq
  subst roundEq
  rwa [barrierOf, barrier_update]

/-- A step in the barrier that does not end its round. -/
theorem LoopInvariant.waits
    (invariant : LoopInvariant loops round ⟨memory, control⟩)
    {act : BarrierAct} {memory' : BarrierMemory N} {process : LoopProcess}
    (inTime : ∀ timeout barPhase,
      (control p).barrier.pc = .spin timeout barPhase → 0 < timeout)
    (moved : BarrierProgram p memory.barrier
      (control p).barrier act memory' process.barrier)
    (sameRound : memory'.flips = memory.barrier.flips) (placed : process.Placed)
    (setup : ∀ k, round = 2 * k → Setup (loops k) memory.barrier.bufInt32
      (Function.update (loopPcs control) p process.pc))
    (sharing : ∀ k, round = 2 * k + 1 → Sharing (loops k) (memory.invoked k)
      memory.barrier.bufInt32
        (Function.update (loopPcs control) p process.pc)) :
    LoopInvariant loops round
      ⟨{ memory with barrier := memory' },
        Function.update control p process⟩ := by
  have words := invariant.other_words moved
  have roundEq : memory'.flips.length = round :=
    sameRound ▸ invariant.barrier.round_eq
  refine ⟨roundEq ▸ invariant.barrier_step inTime moved,
    invariant.placed_update placed, ?_, ?_,
    invariant.finished, invariant.pending⟩
  · intro k even
    rw [loopPcs_update]
    exact (setup k even).congr words
  · intro k odd
    rw [loopPcs_update]
    exact (sharing k odd).congr words

/-- The step that ends a round of the barrier. -/
theorem LoopInvariant.flips
    (invariant : LoopInvariant loops round ⟨memory, control⟩)
    {memory' : BarrierMemory N} {process : LoopProcess}
    (moved : BarrierProgram p memory.barrier
      (control p).barrier .access memory' process.barrier)
    (isFlip : (control p).barrier.pc.isFlip = true)
    (nextRound : memory'.flips.length = round + 1) (placed : process.Placed)
    (still : process.pc = (control p).pc) :
    LoopInvariant loops (round + 1)
      ⟨{ memory with barrier := memory' },
        Function.update control p process⟩ := by
  have words := invariant.other_words moved
  have inTime : ∀ timeout barPhase,
      (control p).barrier.pc = .spin timeout barPhase →
      0 < timeout := by
    intro timeout barPhase spins
    simp [spins, BarrierPc.isFlip] at isFlip
  have closing : (control p).barrier.pc.isClosing = true := by
    by_contra open_
    simp [BarrierPc.isFlip_of_not_closing
      (Bool.not_eq_true _ ▸ open_)] at isFlip
  have together := invariant.together closing
  have pcs : loopPcs (Function.update control p process) = loopPcs control := by
    rw [loopPcs_update, still]
    exact Function.update_eq_self p (loopPcs control)
  refine ⟨nextRound ▸ invariant.barrier_step inTime moved,
    invariant.placed_update placed,
    ?_, ?_, ?_, ?_⟩
  · intro k even
    have waiting : ∀ q, loopPcs control q = .closing := by
      intro q
      obtain ⟨-, round⟩ | ⟨pc, -⟩ := together q
      · omega
      · exact pc
    rw [pcs]
    constructor
    all_goals
      intro q above
      rw [waiting] at above
      cases above
  · intro k odd
    have waiting : ∀ q, loopPcs control q = .opening := by
      intro q
      obtain ⟨pc, -⟩ | ⟨-, round⟩ := together q
      · exact pc
      · omega
    rw [pcs]
    have setup := invariant.setup k (by omega)
    have fresh := invariant.pending k (by omega)
    exact (setup.opens p waiting fresh).congr words
  · intro k passed i
    by_cases before : 2 * k + 2 ≤ round
    · exact invariant.finished k before i
    · have waiting : ∀ q, loopPcs control q = .closing := by
        intro q
        obtain ⟨-, round⟩ | ⟨pc, -⟩ := together q
        · omega
        · exact pc
      have sharing := invariant.sharing k (by omega)
      exact sharing.closes p waiting i
  · intro k early i
    exact invariant.pending k (by omega) i

theorem LoopProcess.round_eq {process : LoopProcess}
    (fits : process.barrier.Fits round)
    (outside : process.barrier.pc = .outside) :
    process.barrier.returned = round := by
  simp only [BarrierProcess.Fits, outside] at fits
  exact fits.2

/-- A process calls the barrier of a loop, or goes on in it. -/
private theorem LoopInvariant.waited {loop : Nat}
    {barrier barrier' : BarrierProcess} {pc : LoopPc}
    {act : BarrierAct} {memory' : BarrierMemory N}
    (invariant : LoopInvariant loops round ⟨memory, control⟩)
    (inTime : ∀ timeout barPhase,
      (control p).barrier.pc = .spin timeout barPhase → 0 < timeout)
    (before : control p = ⟨pc, loop, barrier⟩)
    (waiting : pc = .opening ∨ pc = .closing)
    (kind : act = .call timeout ∨ act = .access)
    (moved : BarrierProgram p memory.barrier barrier act memory' barrier') :
    ∃ round', LoopInvariant loops round'
      ⟨{ memory with barrier := memory' },
        Function.update control p ⟨pc, loop, barrier'⟩⟩ := by
  obtain ⟨placed, fits⟩ := invariant.fits before
  have pcBefore : loopPcs control p = pc := by
    rw [loopPcs, before]
  have barrierBefore : (control p).barrier = barrier := by
    rw [before]
  have placedAfter : LoopProcess.Placed ⟨pc, loop, barrier'⟩ := by
    have sameReturned : barrier'.returned = barrier.returned := by
      cases moved with
      | call => rfl
      | access => rfl
      | ret => simp at kind
    obtain rfl | rfl := waiting
    · exact sameReturned.trans placed
    · exact sameReturned.trans placed
  have still : Function.update (loopPcs control) p pc =
      loopPcs control := by
    rw [← pcBefore]
    exact Function.update_eq_self p (loopPcs control)
  have movedHere : BarrierProgram p memory.barrier
      (control p).barrier act memory'
      barrier' := by
    rwa [barrierBefore]
  obtain sameRound | ⟨rfl, isFlip, nextRound⟩ := movedHere.flips_eq
  · refine ⟨round, invariant.waits inTime movedHere sameRound
      placedAfter ?_ ?_⟩
    · intro k even
      simp only [still]
      exact invariant.setup k even
    · intro k odd
      simp only [still]
      exact invariant.sharing k odd
  · have roundEq : memory.barrier.flips.length = round :=
      invariant.barrier.round_eq
    exact ⟨round + 1, invariant.flips movedHere isFlip
      (by omega) placedAfter
      pcBefore.symm⟩

/-- A process leaves the barrier that opens a loop. -/
private theorem LoopInvariant.opened {loop : Nat}
    {barrier barrier' : BarrierProcess} {retval : Int}
    {memory' : BarrierMemory N}
    (invariant : LoopInvariant loops round ⟨memory, control⟩)
    (inTime : ∀ timeout barPhase,
      (control p).barrier.pc = .spin timeout barPhase → 0 < timeout)
    (before : control p = ⟨.opening, loop, barrier⟩)
    (moved : BarrierProgram p memory.barrier barrier (.ret retval)
      memory' barrier') :
    LoopInvariant loops round
      ⟨{ memory with barrier := memory' },
        Function.update control p ⟨.chunk .loadChunk, loop, barrier'⟩⟩ := by
  obtain ⟨placed, fits⟩ := invariant.fits before
  have pcBefore : loopPcs control p = .opening := by
    rw [loopPcs, before]
  have barrierBefore : (control p).barrier = barrier := by
    rw [before]
  have movedHere : BarrierProgram p memory.barrier (control p).barrier
      (.ret retval) memory'
      barrier' := by
    rwa [barrierBefore]
  cases moved with
  | @ret entered returned =>
  have odd : round = 2 * loop + 1 := by
    simp only [BarrierProcess.Fits] at fits
    simp only [LoopProcess.Placed] at placed
    omega
  refine invariant.waits inTime movedHere rfl ⟨rfl, ?_⟩ ?_ ?_
  · simpa [LoopProcess.Placed] using placed
  · intro k even
    omega
  · intro k _
    obtain rfl : loop = k := by omega
    apply (invariant.sharing loop odd).looks
    · trivial
    · intro i
      rw [pcBefore]
      rfl

/-- A process leaves the barrier that closes a loop. -/
private theorem LoopInvariant.closed {loop : Nat}
    {barrier barrier' : BarrierProcess} {retval : Int}
    {memory' : BarrierMemory N}
    (invariant : LoopInvariant loops round ⟨memory, control⟩)
    (inTime : ∀ timeout barPhase,
      (control p).barrier.pc = .spin timeout barPhase → 0 < timeout)
    (before : control p = ⟨.closing, loop, barrier⟩)
    (moved : BarrierProgram p memory.barrier barrier (.ret retval)
      memory' barrier') :
    LoopInvariant loops round
      ⟨{ memory with barrier := memory' },
        Function.update control p ⟨.outside, loop + 1, barrier'⟩⟩ := by
  obtain ⟨placed, fits⟩ := invariant.fits before
  have pcBefore : loopPcs control p = .closing := by
    rw [loopPcs, before]
  have barrierBefore : (control p).barrier = barrier := by
    rw [before]
  have movedHere : BarrierProgram p memory.barrier (control p).barrier
      (.ret retval) memory'
      barrier' := by
    rwa [barrierBefore]
  cases moved with
  | @ret entered returned =>
  have even : round = 2 * (loop + 1) := by
    simp only [BarrierProcess.Fits] at fits
    simp only [LoopProcess.Placed] at placed
    omega
  refine invariant.waits inTime movedHere rfl ⟨rfl, ?_⟩ ?_ ?_
  · simp only [LoopProcess.Placed] at placed
    simp only
    omega
  · intro k even
    obtain rfl : loop + 1 = k := by omega
    apply (invariant.setup (loop + 1) even).stays
    · rw [pcBefore]
      rfl
    · rfl
  · intro k odd
    omega

theorem LoopInvariant.step {config next : LoopConfig N}
    {label : Fin N × LoopAct}
    (valid : ∀ k, (loops k).Valid)
    (invariant : LoopInvariant loops round config)
    (step : TimelyStep loops timeout config label next) :
    ∃ round', LoopInvariant loops round' next := by
  obtain ⟨inTime, success, inRange, step⟩ := step
  obtain ⟨memory, control⟩ := config
  cases step with
  | @mk p act memory' process moved =>
      simp only at moved inTime inRange success
      generalize before : control p = processBefore at moved
      have pcBefore : loopPcs control p = processBefore.pc := by
        rw [loopPcs, before]
      have barrierBefore : (control p).barrier = processBefore.barrier := by
        rw [before]
      obtain ⟨placed, fits⟩ := invariant.fits before
      cases moved with
      | @call loop barrier =>
          obtain ⟨outside, returned⟩ := placed
          obtain rfl : round = 2 * loop :=
            (LoopProcess.round_eq fits outside).symm.trans returned
          refine ⟨_, invariant.stores _ memory.barrier.bufInt32
            barrierBefore.symm
            ⟨outside, returned⟩ (fun _ _ => rfl) ?_⟩
          apply (invariant.setup loop rfl).stays
          · rw [pcBefore]
            rfl
          · rfl
      | @init loop barrier pc =>
          obtain ⟨outside, returned⟩ := placed
          obtain rfl : round = 2 * loop :=
            (LoopProcess.round_eq fits outside).symm.trans returned
          refine ⟨_, invariant.stores _ _ barrierBefore.symm ?_
            (fun word control => EMSloopInit_words control pc)
            ((invariant.setup loop rfl).init (valid loop) pcBefore)⟩
          cases (EMSloopInit (loops loop) memory.barrier.bufInt32 pc).2 with
          | none => exact returned
          | some pc => exact ⟨outside, returned⟩
      | @chunk loop barrier pc =>
          obtain ⟨outside, returned⟩ := placed
          obtain rfl : round = 2 * loop + 1 :=
            (LoopProcess.round_eq fits outside).symm.trans returned
          refine ⟨_, invariant.shared _ _ _ barrierBefore.symm ?_
            (fun word control => EMSloopChunk_words control pc) (fun _ _ => rfl)
            ((invariant.sharing loop rfl).chunk pcBefore (valid loop).lower ?_)⟩
          · cases (EMSloopChunk memory.barrier.bufInt32 pc).2 with
            | inl pc => exact ⟨outside, returned⟩
            | inr extents => exact ⟨outside, returned⟩
          · intro chunkSize atFetch
            apply inRange
            exact pcBefore.trans (congrArg LoopPc.chunk atFetch)
      | @body loop barrier start last idx inside =>
          obtain ⟨outside, returned⟩ := placed
          obtain rfl : round = 2 * loop + 1 :=
            (LoopProcess.round_eq fits outside).symm.trans returned
          refine ⟨_, invariant.shared _ memory.barrier.bufInt32 _
            barrierBefore.symm
            ⟨outside, returned⟩ (fun _ _ => rfl) ?_ ?_⟩
          · intro j different
            funext i
            simp [different]
          · have ran := (invariant.sharing loop rfl).body pcBefore inside
            simpa using ran
      | @test loop barrier start last idx after =>
          obtain ⟨outside, returned⟩ := placed
          obtain rfl : round = 2 * loop + 1 :=
            (LoopProcess.round_eq fits outside).symm.trans returned
          refine ⟨_, invariant.shared _ memory.barrier.bufInt32 _
            barrierBefore.symm ?_
            (fun _ _ => rfl) (fun _ _ => rfl)
            ((invariant.sharing loop rfl).test pcBefore after)⟩
          split
          · exact ⟨outside, returned⟩
          · exact returned
      | wait waiting kind moved =>
          exact invariant.waited inTime before waiting kind moved
      | opened moved positive =>
          exact ⟨round, invariant.opened inTime before moved⟩
      | closed moved positive =>
          exact ⟨round, invariant.closed inTime before moved⟩
      | @threw loop barrier barrier' retval memory' ended moved failed =>
          exact absurd failed (not_le.mpr (success retval rfl))

end Steps

/-! ## Barriers that are given up

A process that has given up a barrier has been counted in it and does nothing
more.  To the others it looks like one that goes on waiting. -/

/-- The process with time left to wait, if it has none. -/
def BarrierProcess.patient (process : BarrierProcess) : BarrierProcess :=
  match process.pc with
  | .spin timeout barPhase =>
      { process with pc := .spin (max timeout 1) barPhase }
  | .done retval =>
      if retval ≤ 0 then
        { process with pc := .spin 1 (phaseOf (process.entered - 1)) }
      else process
  | _ => process

def LoopProcess.patient (process : LoopProcess) : LoopProcess :=
  match process.pc with
  | .thrown ended =>
      ⟨if ended then .closing else .opening, process.loop,
        ⟨.spin 1 (phaseOf (process.barrier.entered - 1)),
          process.barrier.entered,
          process.barrier.entered - 1⟩⟩
  | pc => ⟨pc, process.loop, process.barrier.patient⟩

def patientLoops (config : LoopConfig N) : LoopConfig N :=
  ⟨config.shared, fun p => (config.control p).patient⟩

/-- A call that has not waited yet has time left, and one that waits does so on
the phase in which it was counted. -/
def BarrierProcess.HasTime (process : BarrierProcess) : Prop :=
  match process.pc with
  | .readPhase timeout | .fetchAdd timeout _ | .resetCount timeout _ |
        .flipPhase timeout _ =>
      0 < timeout
  | .spin timeout barPhase =>
      0 ≤ timeout ∧ barPhase = phaseOf (process.entered - 1)
  | _ => True

structure PatientInvariant (loops : Nat → ParLoop) (round : Nat)
    (config : LoopConfig N) :
    Prop where
  patient : LoopInvariant loops round (patientLoops config)
  hasTime : ∀ p, (config.control p).barrier.HasTime

section Patience

variable {loops : Nat → ParLoop} {timeout : Int} {round : Nat}
  {memory memory' : LoopMemory N}
  {control : Fin N → LoopProcess} {p : Fin N} {process process' : LoopProcess}
    {act : LoopAct}

theorem patient_update (control : Fin N → LoopProcess) (p : Fin N)
    (process : LoopProcess) :
    (fun q => (Function.update control p process q).patient) =
      Function.update (fun q => (control q).patient) p process.patient := by
  funext q
  by_cases same : q = p
  · subst same
    simp
  · simp [same]

theorem LoopProcess.patient_loop (process : LoopProcess) :
    process.patient.loop = process.loop := by
  unfold LoopProcess.patient
  split <;> rfl

theorem LoopProcess.patient_chunk {pc : ChunkPc}
    (here : process.patient.pc = .chunk pc) :
    process.pc = .chunk pc := by
  unfold LoopProcess.patient at here
  split at here
  · next ended _ => cases ended <;> simp at here
  · exact here

theorem LoopProcess.patient_inTime {barPhase : Int}
    (spins : process.patient.barrier.pc = .spin timeout barPhase) :
    0 < timeout := by
  unfold LoopProcess.patient at spins
  split at spins
  · cases spins
    exact Int.one_pos
  · unfold BarrierProcess.patient at spins
    split at spins
    · next spin =>
        have same := (BarrierPc.spin.inj spins).1
        omega
    · split at spins
      · cases spins
        exact Int.one_pos
      · next done _ =>
          rw [done] at spins
          cases spins
    · next notSpin _ => exact absurd spins (notSpin _ _)

theorem PatientInvariant.hasTime_update
    (invariant : PatientInvariant loops round ⟨memory, control⟩)
    (hasTime : process.barrier.HasTime) (q : Fin N) :
    (Function.update control p process q).barrier.HasTime := by
  by_cases same : q = p
  · subst same
    rwa [Function.update_self]
  · rw [Function.update_of_ne same]
    exact invariant.hasTime q

theorem PatientInvariant.stays
    (invariant : PatientInvariant loops round ⟨memory, control⟩)
    (same : process'.patient = (control p).patient)
    (hasTime : process'.barrier.HasTime) :
    PatientInvariant loops round
      ⟨memory, Function.update control p process'⟩ := by
  refine ⟨?_, invariant.hasTime_update hasTime⟩
  rw [patientLoops, patient_update, same, Function.update_eq_self]
  exact invariant.patient

/-- A step that is also one of a patient process. -/
theorem PatientInvariant.moves
    (invariant : PatientInvariant loops round ⟨memory, control⟩)
    (valid : ∀ k, (loops k).Valid)
    (inRange : InRange ⟨memory, control⟩ (p, act))
    (success : ∀ retval, act = .barrier (.ret retval) → 0 < retval)
    (moved : LoopProgram loops timeout p memory
      (control p).patient act memory' process'.patient)
    (hasTime : process'.barrier.HasTime) :
    ∃ round', PatientInvariant loops round'
      ⟨memory', Function.update control p process'⟩ := by
  have step : TimelyStep loops timeout (patientLoops ⟨memory, control⟩) (p, act)
      ⟨memory', Function.update (fun q => (control q).patient) p
          process'.patient⟩ := by
    refine ⟨fun _ _ => LoopProcess.patient_inTime, success, ?_, .mk moved⟩
    intro chunkSize fetches
    exact inRange chunkSize (LoopProcess.patient_chunk fetches)
  obtain ⟨round', next⟩ := invariant.patient.step valid step
  refine ⟨round', ?_, invariant.hasTime_update hasTime⟩
  rwa [patientLoops, patient_update]

/-- A step in the barrier is one of a patient process, or none. -/
theorem BarrierProgram.patient {memory memory' : BarrierMemory N}
    {process process' : BarrierProcess} {act : BarrierAct}
    (moved : BarrierProgram p memory process act memory' process')
    (kind : act = .call timeout ∨ act = .access) (patience : 0 < timeout)
    (fits : process.patient.Fits round) (hasTime : process.HasTime) :
    process'.HasTime ∧
      (BarrierProgram p memory process.patient act memory' process'.patient ∨
        memory' = memory ∧ process'.patient = process.patient) := by
  cases moved with
  | call t =>
      obtain rfl : t = timeout := by simpa using kind
      exact ⟨patience, .inl (.call t)⟩
  | ret retval => simp at kind
  | @access pc entered returned notOutside notDone =>
      cases pc with
      | outside => exact absurd rfl notOutside
      | done retval => exact absurd rfl (notDone retval)
      | race => exact fits.elim
      | readPhase t => exact ⟨hasTime, .inl (.access notOutside notDone)⟩
      | resetCount t barPhase =>
          exact ⟨hasTime, .inl (.access notOutside notDone)⟩
      | flipPhase t barPhase =>
          have positive : ¬ t ≤ 0 := not_le.mpr hasTime
          have last : BarrierProcess.patient ⟨.done t, entered, returned⟩ =
              ⟨.done t, entered, returned⟩ := if_neg positive
          refine ⟨trivial, .inl ?_⟩
          simp only [EMSbarrier, last]
          exact .access notOutside notDone
      | fetchAdd t barPhase =>
          have positive : max t 1 = t := max_eq_left hasTime
          have waits : BarrierProcess.patient
              ⟨.spin t barPhase, entered, returned⟩ =
              ⟨.spin t barPhase, entered, returned⟩ := by
            simp only [BarrierProcess.patient, positive]
          have step :=
            @BarrierProgram.access _ p memory (.fetchAdd t barPhase)
              entered returned
            notOutside notDone
          by_cases raced : memory.bufInt32 (EMS_CB_NBAR0 + barPhase) < 0
          · simp only [EMSbarrier, if_pos raced] at step ⊢
            exact ⟨trivial, .inl step⟩
          by_cases last : memory.bufInt32 (EMS_CB_NBAR0 + barPhase) = 1
          · simp only [EMSbarrier, if_neg raced, if_pos last] at step ⊢
            exact ⟨hasTime, .inl step⟩
          · obtain ⟨enters, -, phase⟩ : entered = round + 1 ∧ returned = round ∧
                barPhase = phaseOf round := fits
            simp only [EMSbarrier, if_neg raced, if_neg last, waits] at step ⊢
            refine ⟨⟨le_of_lt hasTime, ?_⟩, .inl step⟩
            rw [phase, enters, Nat.add_sub_cancel]
      | spin t barPhase =>
          obtain ⟨nonneg, phase⟩ : 0 ≤ t ∧ barPhase = phaseOf (entered - 1) :=
            hasTime
          have step : BarrierProgram p memory ⟨.spin (max t 1) barPhase,
              entered, returned⟩ .access
              memory ⟨(EMSbarrier memory.bufInt32 (.spin (max t 1) barPhase)).2,
                  entered, returned⟩ :=
            .access (by simp) (by simp)
          have still : (⟨memory.bufInt32,
              if (BarrierPc.spin t barPhase).isFlip then
              memory.flips ++ [(p, entered)] else memory.flips⟩ :
                BarrierMemory N) = memory := rfl
          simp only [EMSbarrier, still] at step ⊢
          obtain rfl | positive := eq_or_lt_of_le nonneg
          · -- the call gives up
            have late : ¬ ((0 : Int) < 0 ∧
              barPhase = memory.bufInt32 EMS_CB_BARPHASE) := by omega
            rw [if_neg late]
            exact ⟨trivial, .inr ⟨trivial, by
              simp [BarrierProcess.patient, phase]⟩⟩
          by_cases same : barPhase = memory.bufInt32 EMS_CB_BARPHASE
          · rw [if_pos ⟨positive, same⟩]
            rw [if_pos ⟨by omega, same⟩] at step
            refine ⟨⟨by omega, phase⟩, ?_⟩
            obtain rfl | more := eq_or_lt_of_le (show 1 ≤ t from positive)
            · exact .inr ⟨trivial, rfl⟩
            · left
              have less : max t 1 - 1 = max (t - 1) 1 := by omega
              rw [less] at step
              exact step
          · rw [if_neg (fun looks => same looks.2)]
            rw [if_neg (fun looks => same looks.2)] at step
            refine ⟨trivial, .inl ?_⟩
            have returns : BarrierProcess.patient ⟨.done t, entered, returned⟩ =
                ⟨.done (max t 1), entered, returned⟩ := by
              have kept : max t 1 = t := max_eq_left positive
              rw [kept]
              exact if_neg (not_le.mpr positive)
            rw [returns]
            exact step

theorem BarrierProcess.patient_done {retval : Int} {entered returned : Nat}
    (positive : 0 < retval) :
    BarrierProcess.patient ⟨.done retval, entered, returned⟩ =
      ⟨.done retval, entered, returned⟩ :=
  if_neg (not_le.mpr positive)

theorem PatientInvariant.step (valid : ∀ k, (loops k).Valid)
    (patience : 0 < timeout)
    {config next : LoopConfig N} {label : Fin N × LoopAct}
    (invariant : PatientInvariant loops round config)
    (step : LoopStep loops timeout config label next) :
    ∃ round', PatientInvariant loops round' next := by
  obtain ⟨inRange, step⟩ := step
  obtain ⟨memory, control⟩ := config
  cases step with
  | @mk p act memory' process moved =>
      simp only at moved
      have fits : (control p).patient.barrier.Fits round :=
        invariant.patient.barrier.fits p
      have hasTime : (control p).barrier.HasTime := invariant.hasTime p
      generalize before : control p = processBefore at moved fits hasTime
      have goes : (∀ retval, act = .barrier (.ret retval) → 0 < retval) →
          LoopProgram loops timeout p memory processBefore.patient act memory'
            process.patient →
          process.barrier.HasTime →
          ∃ round', PatientInvariant loops round'
              ⟨memory', Function.update control p process⟩ := by
        intro success moved hasTime
        rw [← before] at moved
        exact invariant.moves valid inRange success moved hasTime
      cases moved with
      | call => exact goes nofun .call hasTime
      | @init loop barrier pc =>
          refine goes nofun ?_ hasTime
          have moved :=
            @LoopProgram.init loops timeout N p memory loop barrier.patient pc
          cases found : (EMSloopInit (loops loop) memory.barrier.bufInt32 pc).2
              with
          | none =>
              rw [found] at moved
              exact moved
          | some next =>
              rw [found] at moved
              exact moved
      | @chunk loop barrier pc =>
          refine goes nofun ?_ hasTime
          have moved :=
            @LoopProgram.chunk loops timeout N p memory loop barrier.patient pc
          cases found : (EMSloopChunk memory.barrier.bufInt32 pc).2 with
          | inl next =>
              rw [found] at moved
              exact moved
          | inr extents =>
              rw [found] at moved
              exact moved
      | body inside => exact goes nofun (.body inside) hasTime
      | @test loop barrier start last idx after =>
          refine goes nofun ?_ hasTime
          have moved :=
            @LoopProgram.test loops timeout N p memory loop barrier.patient
              start last idx
            after
          by_cases more : 0 < last - start
          · rw [if_pos more] at moved ⊢
            exact moved
          · rw [if_neg more] at moved ⊢
            exact moved
      | @wait loop barrier barrier' pc act memory' waiting kind moved =>
          have running : ∀ barrier, LoopProcess.patient ⟨pc, loop, barrier⟩ =
              ⟨pc, loop, barrier.patient⟩ := by
            obtain rfl | rfl := waiting
            · exact fun _ => rfl
            · exact fun _ => rfl
          rw [running] at fits
          obtain ⟨hasTime', moved | ⟨rfl, same⟩⟩ :=
            moved.patient kind patience fits hasTime
          · refine goes ?_ ?_ hasTime'
            · rintro retval ⟨⟩
              simp at kind
            · rw [running, running]
              exact .wait waiting kind moved
          · refine ⟨round, invariant.stays ?_ hasTime'⟩
            rw [before, running, running, same]
      | @opened loop barrier barrier' retval memory' moved positive =>
          cases moved with
          | @ret entered returned =>
          refine goes ?_ ?_ trivial
          · rintro _ ⟨⟩
            exact positive
          · have moved : LoopProgram loops timeout p memory
                ⟨.opening, loop, BarrierProcess.patient
                  ⟨.done retval, entered, returned⟩⟩
                (.barrier (.ret retval)) memory
                ⟨.chunk .loadChunk, loop,
                    ⟨.outside, entered, returned + 1⟩⟩ := by
              rw [BarrierProcess.patient_done positive]
              exact .opened (.ret retval) positive
            exact moved
      | @closed loop barrier barrier' retval memory' moved positive =>
          cases moved with
          | @ret entered returned =>
          refine goes ?_ ?_ trivial
          · rintro _ ⟨⟩
            exact positive
          · have moved : LoopProgram loops timeout p memory
                ⟨.closing, loop, BarrierProcess.patient
                  ⟨.done retval, entered, returned⟩⟩
                (.barrier (.ret retval)) memory
                ⟨.outside, loop + 1, ⟨.outside, entered, returned + 1⟩⟩ := by
              rw [BarrierProcess.patient_done positive]
              exact .closed (.ret retval) positive
            exact moved
      | @threw loop barrier barrier' retval memory' ended moved failed =>
          cases moved with
          | @ret entered returned =>
          have gaveUp : BarrierProcess.patient
              ⟨.done retval, entered, returned⟩ =
              ⟨.spin 1 (phaseOf (entered - 1)), entered, returned⟩ :=
                if_pos failed
          have running : LoopProcess.patient
              ⟨if ended then .closing else .opening, loop,
              ⟨.done retval, entered, returned⟩⟩ =
              ⟨if ended then .closing else .opening, loop,
                ⟨.spin 1 (phaseOf (entered - 1)), entered, returned⟩⟩ := by
            rw [← gaveUp]
            cases ended
            · rfl
            · rfl
          rw [running] at fits
          refine ⟨round, invariant.stays ?_ trivial⟩
          rw [before, running]
          have counted : returned = entered - 1 := by
            simp only [BarrierProcess.Fits] at fits
            omega
          simp only [LoopProcess.patient, counted]

end Patience

/-! ## Schedules -/

section Schedules

variable (loops : Nat → ParLoop) (timeout : Int)

/-- The next step of a process, when it keeps the index in its range. -/
def loopNext (config : LoopConfig N) (p : Fin N) :
    Option (LoopAct × LoopConfig N) :=
  let ⟨pc, loop, barrier⟩ := config.control p
  let memory := config.shared
  let next (act : LoopAct) (memory : LoopMemory N) (process : LoopProcess) :
      Option (LoopAct × LoopConfig N) :=
    some (act, ⟨memory, Function.update config.control p process⟩)
  let chunk (pc : ChunkPc) : Option (LoopAct × LoopConfig N) :=
    next .access (memory.setWords (EMSloopChunk memory.barrier.bufInt32 pc).1)
      ⟨.afterChunk (EMSloopChunk memory.barrier.bufInt32 pc).2, loop, barrier⟩
  match pc with
  | .outside => next .call memory ⟨.init .storeIdx, loop, barrier⟩
  | .init pc =>
      next .access (memory.setWords
        (EMSloopInit (loops loop) memory.barrier.bufInt32 pc).1)
        ⟨.afterInit (EMSloopInit (loops loop) memory.barrier.bufInt32 pc).2,
          loop, barrier⟩
  | .chunk (.fetchAdd chunkSize) =>
      if memory.barrier.bufInt32 EMS_LOOP_IDX + chunkSize < 2 ^ 31 then
        chunk (.fetchAdd chunkSize)
      else none
  | .chunk pc => chunk pc
  | .body start last idx =>
      if idx < last then
        next (.body idx) (memory.invoke loop idx) ⟨.body start last (idx + 1),
          loop, barrier⟩
      else
        next .test memory
          ⟨if 0 < last - start then .chunk .loadChunk else .closing,
            loop, barrier⟩
  | .thrown _ => none
  | pc =>
      match barrier with
      | ⟨.outside, entered, returned⟩ =>
          next (.barrier (.call timeout)) memory
            ⟨pc, loop, ⟨.readPhase timeout, entered + 1, returned⟩⟩
      | ⟨.done retval, entered, returned⟩ =>
          next (.barrier (.ret retval)) memory
            (match pc, decide (0 < retval) with
            | .opening, true =>
                ⟨.chunk .loadChunk, loop, ⟨.outside, entered, returned + 1⟩⟩
            | _, true => ⟨.outside, loop + 1, ⟨.outside, entered, returned + 1⟩⟩
            | _, false =>
                ⟨.thrown (pc == .closing), loop,
                  ⟨.outside, entered, returned + 1⟩⟩)
      | barrier =>
          next (.barrier .access)
            { memory with
              barrier :=
                ⟨(EMSbarrier memory.barrier.bufInt32 barrier.pc).1,
                  if barrier.pc.isFlip then
                    memory.barrier.flips ++ [(p, barrier.entered)]
                  else memory.barrier.flips⟩ }
            ⟨pc, loop,
              ⟨(EMSbarrier memory.barrier.bufInt32 barrier.pc).2,
                barrier.entered,
                barrier.returned⟩⟩

/-- The processes take their steps in the order of the schedule. -/
def loopSteps (config : LoopConfig N) : List (Fin N) → Option (LoopConfig N)
  | [] => some config
  | p :: schedule => (loopNext loops timeout config p).bind fun next =>
      loopSteps next.2 schedule

variable {loops : Nat → ParLoop} {timeout : Int}

theorem loopNext_step {config next : LoopConfig N} {p : Fin N} {act : LoopAct}
    (taken : loopNext loops timeout config p = some (act, next)) :
    LoopStep loops timeout config (p, act) next := by
  obtain ⟨memory, control⟩ := config
  have takes : ∀ {act memory'} {process : LoopProcess},
      (∀ chunkSize, (control p).pc = .chunk (.fetchAdd chunkSize) →
        memory.barrier.bufInt32 EMS_LOOP_IDX + chunkSize < 2 ^ 31) →
      LoopProgram loops timeout p memory (control p) act memory' process →
      LoopStep loops timeout ⟨memory, control⟩ (p, act)
        ⟨memory', Function.update control p process⟩ :=
    fun range moved => ⟨range, .mk moved⟩
  simp only [loopNext] at taken
  generalize control p = process at taken takes
  obtain ⟨pc, loop, barrier⟩ := process
  have waits : pc = .opening ∨ pc = .closing →
      (∀ retval, barrier.pc ≠ .done retval) →
      barrier.pc ≠ .outside →
      LoopStep loops timeout ⟨memory, control⟩ (p, .barrier .access)
        ⟨{ memory with
            barrier :=
              ⟨(EMSbarrier memory.barrier.bufInt32 barrier.pc).1,
                if barrier.pc.isFlip then
                  memory.barrier.flips ++ [(p, barrier.entered)]
                else memory.barrier.flips⟩ },
          Function.update control p ⟨pc, loop,
            ⟨(EMSbarrier memory.barrier.bufInt32 barrier.pc).2, barrier.entered,
              barrier.returned⟩⟩⟩ := by
    intro waiting notDone notOutside
    refine takes ?_ (.wait waiting (.inr rfl) (.access notOutside notDone))
    rintro chunkSize rfl
    simp at waiting
  cases pc with
  | outside =>
      cases taken
      exact takes nofun .call
  | init pc =>
      cases taken
      exact takes nofun .init
  | thrown ended => cases taken
  | chunk pc =>
      by_cases fetches : ∃ chunkSize, pc = .fetchAdd chunkSize
      · obtain ⟨chunkSize, rfl⟩ := fetches
        simp only at taken
        split at taken
        case isTrue range =>
          cases taken
          refine takes ?_ .chunk
          intro chunkSize same
          cases same
          exact range
        case isFalse => cases taken
      · have other : some (act, next) = some (.access, ⟨memory.setWords
            (EMSloopChunk memory.barrier.bufInt32 pc).1,
            Function.update control p
              ⟨.afterChunk (EMSloopChunk memory.barrier.bufInt32 pc).2, loop,
                  barrier⟩⟩) := by
          cases pc <;> first | exact taken.symm | exact absurd ⟨_, rfl⟩ fetches
        cases other
        refine takes ?_ .chunk
        intro chunkSize same
        cases same
        exact absurd ⟨_, rfl⟩ fetches
  | body start last idx =>
      simp only at taken
      split at taken
      case isTrue inside =>
        cases taken
        exact takes nofun (.body inside)
      case isFalse outside =>
        cases taken
        exact takes nofun (.test (not_lt.mp outside))
  | opening =>
      obtain ⟨barrierPc, entered, returned⟩ := barrier
      cases barrierPc with
      | outside =>
          cases taken
          exact takes nofun (.wait (.inl rfl) (.inl rfl) (.call timeout))
      | done retval =>
          by_cases positive : 0 < retval
          · simp only [positive, decide_true] at taken
            cases taken
            exact takes nofun (.opened (.ret retval) positive)
          · simp only [positive, decide_false] at taken
            cases taken
            exact takes nofun (.threw false (.ret retval) (not_lt.mp positive))
      | _ =>
          cases taken
          exact waits (.inl rfl) nofun nofun
  | closing =>
      obtain ⟨barrierPc, entered, returned⟩ := barrier
      cases barrierPc with
      | outside =>
          cases taken
          exact takes nofun (.wait (.inr rfl) (.inl rfl) (.call timeout))
      | done retval =>
          by_cases positive : 0 < retval
          · simp only [positive, decide_true] at taken
            cases taken
            exact takes nofun (.closed (.ret retval) positive)
          · simp only [positive, decide_false] at taken
            cases taken
            exact takes nofun (.threw true (.ret retval) (not_lt.mp positive))
      | _ =>
          cases taken
          exact waits (.inr rfl) nofun nofun

private theorem loopSteps_run {config final : LoopConfig N}
    {schedule : List (Fin N)}
    (played : loopSteps loops timeout config schedule = some final) :
    ∃ trace, Run (LoopStep loops timeout) config trace final := by
  induction schedule generalizing config with
  | nil =>
      obtain rfl := Option.some.inj played
      exact ⟨[], .nil⟩
  | cons p schedule induction =>
      obtain ⟨⟨act, next⟩, first, rest⟩ := Option.bind_eq_some_iff.mp played
      obtain ⟨trace, run⟩ := induction rest
      exact ⟨_, .cons (loopNext_step first) run⟩

end Schedules

/-! ## Every iteration once -/

/-- The process has left the loop that asks for chunks. -/
def LoopProcess.HasEnded (k : Nat) (process : LoopProcess) : Prop :=
  k < process.loop ∨ process.loop = k ∧
    (process.pc = .closing ∨ process.pc = .thrown true)

/-- The `k`-th loop has been run. -/
structure LoopDone (loops : Nat → ParLoop) (k : Nat)
    (config : LoopConfig N) : Prop where
  once : ∀ i, config.shared.invoked k i =
    if (loops k).start ≤ i ∧ i < (loops k).last then 1 else 0
  ended : ∀ p, (config.control p).HasEnded k

/-- When one process has passed the closing barrier, everybody is done. -/
theorem LoopInvariant.done {loops : Nat → ParLoop} {round : Nat}
    {config : LoopConfig N}
    (invariant : LoopInvariant loops round config) {k : Nat} {p : Fin N}
    (passed : k < (config.control p).loop) : LoopDone loops k config := by
  have returned : ∀ q, (config.control q).barrier.returned ≤ round ∧
      round ≤ (config.control q).barrier.returned + 1 := by
    intro q
    have fits := invariant.barrier.fits q
    simp only [barrierOf] at fits
    cases pcEq : (config.control q).barrier.pc <;>
      simp only [BarrierProcess.Fits, pcEq] at fits <;> omega
  have passed : 2 * k + 2 ≤ round := by
    have placed := invariant.placed p
    have atMost := (returned p).1
    cases pcEq : (config.control p).pc <;> simp only [LoopProcess.Placed,
      pcEq] at placed <;> omega
  refine ⟨invariant.finished k passed, fun q => ?_⟩
  have placed := invariant.placed q
  have fits := invariant.barrier.fits q
  have atLeast := (returned q).2
  simp only [barrierOf] at fits
  cases pcEq : (config.control q).pc with
  | closing =>
      simp only [LoopProcess.Placed, pcEq] at placed
      by_cases here : (config.control q).loop = k
      · exact .inr ⟨here, .inl pcEq⟩
      · exact .inl (by omega)
  | opening =>
      simp only [LoopProcess.Placed, pcEq] at placed
      exact .inl (by omega)
  | thrown => simp [LoopProcess.Placed, pcEq] at placed
  | _ =>
      simp only [LoopProcess.Placed, pcEq] at placed
      have roundEq := LoopProcess.round_eq fits placed.1
      exact .inl (by omega)

theorem LoopProcess.HasEnded.of_patient {k : Nat} {process : LoopProcess}
    (ended : process.patient.HasEnded k) : process.HasEnded k := by
  rcases ended with passed | ⟨here, closing | thrown⟩
  · rw [LoopProcess.patient_loop] at passed
    exact .inl passed
  · rw [LoopProcess.patient_loop] at here
    refine .inr ⟨here, ?_⟩
    unfold LoopProcess.patient at closing
    split at closing
    · next ended isThrown =>
        cases ended
        · simp at closing
        · exact .inr isThrown
    · exact .inl closing
  · unfold LoopProcess.patient at thrown
    split at thrown
    · next ended _ => cases ended <;> simp at thrown
    · next running => exact absurd thrown (running true)

/-- As soon as a process has passed the closing barrier of a loop, its body has
been invoked once for each iteration, and every process has stopped asking for
chunks. -/
theorem EMSparForEach_once {loops : Nat → ParLoop} {timeout : Int}
    (positive : 0 < N)
    (patience : 0 < timeout) (valid : ∀ k, (loops k).Valid)
    {config : LoopConfig N}
    {trace : List (Fin N × LoopAct)}
    (run : Run (LoopStep loops timeout) (initialLoops N) trace config)
    {k : Nat} {p : Fin N} (passed : k < (config.control p).loop) :
    LoopDone loops k config := by
  have reached : ∃ round, PatientInvariant loops round config := by
    apply run.invariant
      (fun config => ∃ round, PatientInvariant loops round config)
    · rintro state label next ⟨round, invariant⟩ step
      exact invariant.step valid patience step
    · exact ⟨0, initialLoops_invariant positive loops, fun _ => trivial⟩
  obtain ⟨round, invariant⟩ := reached
  rw [← LoopProcess.patient_loop] at passed
  have done := invariant.patient.done passed
  exact ⟨done.once, fun q => (done.ended q).of_patient⟩

/-- Loops from -3 to 5. -/
def eightIterations : Nat → ParLoop := fun _ => ⟨-3, 5, 1, .guided⟩

/-- Both processes run the first loop.  Process 0 then gives up the opening
barrier of the second one, which process 1 runs alone. -/
def oneGivesUp : List (Fin 2) :=
  (List.replicate 70 [0, 1]).flatten ++ List.replicate 18 0 ++
    List.replicate 97 1

theorem EMSparForEach_once_both :
    ∃ trace config, Run (LoopStep eightIterations 5) (initialLoops 2)
      trace config ∧
      (∀ p, (config.control p).loop = 1) ∧ (config.control 0).pc =
        .thrown false ∧
      config.shared.invoked 0 4 = 1 ∧ LoopDone eightIterations 0 config := by
  have played : (loopSteps eightIterations 5 (initialLoops 2) oneGivesUp).map
      (fun config =>
      ((config.control 0).loop, (config.control 1).loop, (config.control 0).pc,
        config.shared.invoked 0 4)) = some (1, 1, .thrown false, 1) := by
    decide +kernel
  obtain ⟨config, played, states⟩ := Option.map_eq_some_iff.mp played
  simp only [Prod.mk.injEq] at states
  obtain ⟨passed₀, passed₁, thrown, once⟩ := states
  obtain ⟨trace, run⟩ := loopSteps_run played
  have valid : (⟨-3, 5, 1, .guided⟩ : ParLoop).Valid :=
    ⟨by decide, by decide, by decide, by decide, by decide⟩
  exact ⟨trace, config, run, Fin.forall_fin_two.mpr ⟨passed₀, passed₁⟩,
    thrown, once,
    EMSparForEach_once (by decide) (by decide) (fun _ => valid) run passed₀.ge⟩


end EMS
