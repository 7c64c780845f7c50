import EMS.ParallelLoops

/-!
# The arithmetic of a parallel loop

The index of the next iteration is of type `int32_t`, and processes go on adding
chunks to it when nothing is left.  As long as each of these additions finds
room, nothing overflows and no process is handed an index outside of the loop.
Each process adds one chunk too many, and no chunk is larger than the first one:
this bounds the index whatever the order of the steps.
-/

namespace EMS

open Interleaving BulkSynchronous

/-! ## Loops over chunks -/

/-- The bounds of a loop and its smallest chunk are of type `int32_t`, and the
bounds are in order. -/
structure ParLoop.Int32 (loop : ParLoop) : Prop where
  ordered : loop.start ≤ loop.last
  lower : -2 ^ 31 ≤ loop.start
  upper : loop.last < 2 ^ 31
  chunk : 1 ≤ loop.minChunk ∧ loop.minChunk < 2 ^ 31

/-- What the processes share, and how often the body has been invoked for each
index. -/
structure ChunkMemory where
  bufInt32 : ControlBlock
  invoked : Int → Nat

inductive ChunkAct where
  | access
  | body (idx : Int)
  | test

/-- The steps of one process in the loop that asks for chunks. -/
inductive ChunkProgram {ι : Type} (_ : ι) :
    ChunkMemory → LoopPc → ChunkAct → ChunkMemory → LoopPc → Prop
  | chunk {memory : ChunkMemory} {pc : ChunkPc} :
      ChunkProgram _ memory (.chunk pc) .access
        ⟨(EMSloopChunk memory.bufInt32 pc).1, memory.invoked⟩
        (.afterChunk (EMSloopChunk memory.bufInt32 pc).2)
  | body {memory : ChunkMemory} {start last idx : Int} : idx < last →
      ChunkProgram _ memory (.body start last idx) (.body idx)
        ⟨memory.bufInt32,
          fun i => if i = idx then memory.invoked i + 1 else memory.invoked i⟩
        (.body start last (idx + 1))
  | test {memory : ChunkMemory} {start last idx : Int} : last ≤ idx →
      ChunkProgram _ memory (.body start last idx) .test memory
        (if 0 < last - start then .chunk .loadChunk else .closing)

abbrev ChunkConfig (N : Nat) : Type := Config (Fin N) ChunkMemory LoopPc

/-- The accesses of `EMSloopInit` by a process alone. -/
def initFrom (loop : ParLoop) : Nat → ControlBlock → Option InitPc →
    ControlBlock
  | bound + 1, bufInt32, some pc =>
      initFrom loop bound (EMSloopInit loop bufInt32 pc).1
        (EMSloopInit loop bufInt32 pc).2
  | _, bufInt32, _ => bufInt32

/-- The bounds have been stored, and no process has asked for a chunk. -/
def initialChunks (loop : ParLoop) (N : Nat) (bufInt32 : ControlBlock) :
    ChunkConfig N :=
  ⟨⟨initFrom loop 10 bufInt32 (some .storeIdx), fun _ => 0⟩,
    fun _ => .chunk .loadChunk⟩

/-- The operation that comes next has its result in the range of `int32_t`.
The sum of the fetch-and-add is also `*start + chunkSize`. -/
def ChunkPc.Fits (bufInt32 : ControlBlock) : ChunkPc → Prop
  | .fetchAdd chunkSize =>
      toInt32 (bufInt32 EMS_LOOP_IDX + chunkSize) =
        bufInt32 EMS_LOOP_IDX + chunkSize
  | .loadEnd start _ =>
      toInt32 (bufInt32 EMS_LOOP_END - start) = bufInt32 EMS_LOOP_END - start
  | _ => True

/-- What the fetch-and-add of a chunk finds: the sum is below the largest
`int32_t`, and in a guided loop the index is not too far past the end. -/
structure ParLoop.Room (loop : ParLoop) (idx chunkSize : Int) : Prop where
  sum : idx + chunkSize < 2 ^ 31
  left : loop.sched = .guided → idx - loop.last ≤ 2 ^ 31

/-- The first operation of a guided loop does not overflow. -/
def ParLoop.Spans (loop : ParLoop) : Prop :=
  loop.sched = .guided → loop.last - loop.start < 2 ^ 31

/-- A step, which claims a chunk only where there is room for it. -/
def ChunkStep (careful : Bool) (loop : ParLoop) {N : Nat}
    (config : ChunkConfig N)
    (label : Fin N × ChunkAct) (next : ChunkConfig N) : Prop :=
  (careful = true → ∀ chunkSize,
    config.control label.1 = .chunk (.fetchAdd chunkSize) →
    loop.Room (config.shared.bufInt32 EMS_LOOP_IDX) chunkSize) ∧
  Step ChunkProgram config label next

/-- Whatever the order of the steps, no operation overflows, and no process is
handed an index outside of the loop. -/
structure LoopFits (careful : Bool) (loop : ParLoop) (N : Nat) : Prop where
  range : loop.sched = .guided → toInt32 (loop.last - loop.start) =
    loop.last - loop.start
  fits : ∀ bufInt32 trace config, bufInt32 EMS_CB_NTHREADS = (N : Int) →
    Run (ChunkStep careful loop) (initialChunks loop N bufInt32) trace config →
    ∀ label next, ChunkStep careful loop config label next →
      ∀ pc, config.control label.1 = .chunk pc → pc.Fits config.shared.bufInt32
  inside : ∀ bufInt32 trace config, bufInt32 EMS_CB_NTHREADS = (N : Int) →
    Run (ChunkStep careful loop) (initialChunks loop N bufInt32) trace config →
    ∀ p start last idx, config.control p = .body start last idx → idx < last →
      loop.start ≤ idx ∧ idx < loop.last

/-- A claim at the index does not overflow. -/
structure ClaimFits (loop : ParLoop) (idx chunkSize : Int) : Prop where
  sum : toInt32 (idx + chunkSize) = idx + chunkSize
  left : loop.sched = .guided → toInt32 (loop.last - idx) = loop.last - idx

/-- Every claim of every run finds room. -/
def ClaimsFindRoom (loop : ParLoop) (N : Nat) : Prop :=
  ∀ bufInt32 trace (config : ChunkConfig N),
    bufInt32 EMS_CB_NTHREADS = (N : Int) →
    Run (ChunkStep false loop) (initialChunks loop N bufInt32) trace config →
    ∀ p chunkSize, config.control p = .chunk (.fetchAdd chunkSize) →
      loop.Room (config.shared.bufInt32 EMS_LOOP_IDX) chunkSize

/-! ## The bound -/

namespace ParLoop

variable (loop : ParLoop) (N : Nat)

/-- The size of the first chunk. -/
def firstChunk : Int :=
  match loop.sched with
  | .guided => max loop.minChunk (((loop.last - loop.start).tdiv 2).tdiv N)
  | .dynamic => 1

/-- A size that a chunk can have. -/
structure IsChunk (size : Int) : Prop where
  least : loop.leastChunk ≤ size
  most : size ≤ loop.firstChunk N

/-- The index is at most this when the last iteration has been claimed. -/
def filled : Int :=
  if loop.firstChunk N = loop.leastChunk then
    loop.start + (loop.last - loop.start + loop.leastChunk - 1) /
      loop.leastChunk *
      loop.leastChunk
  else loop.last - 1 + loop.firstChunk N

/-- When the last iteration has been claimed, the processes can add one chunk
each. -/
structure Small : Prop where
  sum : loop.filled N + N * loop.firstChunk N < 2 ^ 31
  range : loop.Spans
  left : loop.sched = .guided →
    loop.filled N + (N - 1) * loop.firstChunk N - loop.last ≤ 2 ^ 31

variable {loop N}

theorem Int32.leastChunk (int32 : loop.Int32) : 1 ≤ loop.leastChunk := by
  unfold ParLoop.leastChunk
  split
  · exact int32.chunk.1
  · exact Int.le_refl _

theorem least_le_first : loop.leastChunk ≤ loop.firstChunk N := by
  unfold ParLoop.leastChunk firstChunk
  cases loop.sched with
  | guided => exact le_max_left _ _
  | dynamic => exact Int.le_refl _

theorem isChunk_least : loop.IsChunk N loop.leastChunk :=
  ⟨le_rfl, least_le_first⟩

theorem isChunk_first : loop.IsChunk N (loop.firstChunk N) :=
  ⟨least_le_first, le_rfl⟩

theorem le_filled (int32 : loop.Int32) {next size : Int}
    (before : next < loop.last) (chunk : loop.IsChunk N size)
    (multiple : loop.firstChunk N = loop.leastChunk →
      loop.leastChunk ∣ next - loop.start) :
    next + size ≤ loop.filled N := by
  have most := chunk.most
  have positive := int32.leastChunk
  unfold filled
  split
  · next uniform =>
      obtain ⟨k, position⟩ := multiple uniform
      have blocks : k + 1 ≤
          (loop.last - loop.start + loop.leastChunk - 1) / loop.leastChunk := by
        apply Int.le_ediv_of_mul_le (by omega)
        have product : (k + 1) * loop.leastChunk =
          loop.leastChunk * k + loop.leastChunk := by ring
        omega
      have product :=
        mul_le_mul_of_nonneg_right blocks (show 0 ≤ loop.leastChunk by omega)
      have split : (k + 1) * loop.leastChunk =
        loop.leastChunk * k + loop.leastChunk := by ring
      omega
  · omega

theorem left_le_first (positive : 0 < N) (guided : loop.sched = .guided)
    {left : Int}
    (atMost : left ≤ loop.last - loop.start) :
    (left.tdiv 2).tdiv N ≤ loop.firstChunk N := by
  simp only [firstChunk, guided]
  apply le_max_of_le_right
  apply Int.tdiv_le_tdiv (by exact_mod_cast positive)
  exact Int.tdiv_le_tdiv (by decide) atMost

end ParLoop

/-! ## Memory -/

/-- The words that the loop does not change. -/
structure LoopWords (loop : ParLoop) (N : Nat)
    (bufInt32 : ControlBlock) : Prop where
  threads : bufInt32 EMS_CB_NTHREADS = N
  last : bufInt32 EMS_LOOP_END = loop.last
  least : bufInt32 EMS_LOOP_MINCHUNK = loop.leastChunk
  sched : bufInt32 EMS_LOOP_SCHED = loop.sched.code

/-- The words when the index is `next` and the next chunk of the size. -/
structure LoopShape (loop : ParLoop) (N : Nat) (next size : Int)
    (bufInt32 : ControlBlock) :
    Prop extends LoopWords loop N bufInt32 where
  idx : bufInt32 EMS_LOOP_IDX = next
  size : bufInt32 EMS_LOOP_CHUNKSZ = size

theorem initFrom_shape (loop : ParLoop) {N : Nat} {bufInt32 : ControlBlock}
    (threads : bufInt32 EMS_CB_NTHREADS = N) :
    LoopShape loop N loop.start (loop.firstChunk N)
      (initFrom loop 10 bufInt32 (some .storeIdx)) := by
  obtain ⟨start, last, minChunk, sched⟩ := loop
  cases sched with
  | guided =>
      have stored : ((Function.update
          (Function.update (Function.update bufInt32 EMS_LOOP_IDX start)
          EMS_LOOP_START start) EMS_LOOP_END last) EMS_CB_NTHREADS) =
            N := threads
      by_cases small : ((last - start).tdiv 2).tdiv N < minChunk
      · have first : max minChunk (((last - start).tdiv 2).tdiv N) =
          minChunk := by omega
        simp only [initFrom, EMSloopInit, stored, Function.update_self,
          if_pos small,
          ParLoop.firstChunk, first]
        exact ⟨⟨threads, rfl, rfl, rfl⟩, rfl, rfl⟩
      · have first : max minChunk (((last - start).tdiv 2).tdiv N) =
            ((last - start).tdiv 2).tdiv N := by omega
        simp only [initFrom, EMSloopInit, stored, Function.update_self,
          if_neg small,
          ParLoop.firstChunk, first]
        exact ⟨⟨threads, rfl, rfl, rfl⟩, rfl, rfl⟩
  | dynamic => exact ⟨⟨threads, rfl, rfl, rfl⟩, rfl, rfl⟩

/-! ## Claims with room -/

theorem toInt32_fixed {k : Int} (fixed : toInt32 k = k) :
    -2 ^ 31 ≤ k ∧ k < 2 ^ 31 := by
  have low := Int.le_bmod (x := k) (m := 2 ^ 32) (by decide)
  have high := Int.bmod_lt (x := k) (m := 2 ^ 32) (by decide)
  rw [toInt32] at fixed
  omega

/-- What a process knows of the iterations that are left. -/
def LoopPc.Near (loop : ParLoop) : LoopPc → Prop
  | .chunk (.checkStart start _) | .chunk (.checkEnd start _) |
    .chunk (.clipEnd start)
  | .chunk (.loadSched start _) =>
      loop.sched = .guided → start - loop.last ≤ 2 ^ 31
  | .chunk (.loadEnd start _) =>
      loop.sched = .guided ∧ start - loop.last ≤ 2 ^ 31
  | .chunk (.loadThreads start _ left) =>
      loop.sched = .guided ∧ left = loop.last - start
  | _ => True

/-- The iterations are shared, and each process is near enough to the end. -/
structure ChunkInvariant {N : Nat} (loop : ParLoop)
    (config : ChunkConfig N) : Prop where
  sharing : Sharing loop config.shared.invoked config.shared.bufInt32
    config.control
  words : LoopWords loop N config.shared.bufInt32
  near : ∀ p, (config.control p).Near loop

section Room

variable {N : Nat} {loop : ParLoop} {config next : ChunkConfig N} {p : Fin N}

theorem ChunkInvariant.claimFits_iff (invariant : ChunkInvariant loop config)
    (int32 : loop.Int32) (range : loop.Spans)
    {chunkSize : Int} (here : config.control p = .chunk (.fetchAdd chunkSize)) :
    ClaimFits loop (config.shared.bufInt32 EMS_LOOP_IDX) chunkSize ↔
      loop.Room (config.shared.bufInt32 EMS_LOOP_IDX) chunkSize := by
  have lower := int32.lower
  have reached := invariant.sharing.next
  have positive := invariant.sharing.shares p
  rw [here, LoopPc.Shares] at positive
  constructor
  · intro fits
    constructor
    · exact (toInt32_fixed fits.sum).2
    · intro guided
      have bounds := toInt32_fixed (fits.left guided)
      omega
  · intro room
    have sum := room.sum
    constructor
    · exact toInt32_eq (by omega) (by omega)
    · intro guided
      have long := range guided
      have left := room.left guided
      exact toInt32_eq (by omega) (by omega)

/-- What comes next does not overflow, if a claim has room. -/
theorem ChunkInvariant.fits (invariant : ChunkInvariant loop config)
    (int32 : loop.Int32)
    (range : loop.Spans) {access : ChunkPc}
    (here : config.control p = .chunk access)
    (room : ∀ chunkSize, access = .fetchAdd chunkSize →
      loop.Room (config.shared.bufInt32 EMS_LOOP_IDX) chunkSize) :
    access.Fits config.shared.bufInt32 := by
  have near := invariant.near p
  have shares := invariant.sharing.shares p
  rw [here] at near shares
  cases access with
  | fetchAdd chunkSize =>
      exact ((invariant.claimFits_iff int32 range here).mpr
        (room chunkSize rfl)).sum
  | loadEnd start last =>
      obtain ⟨guided, below⟩ := near
      have long := range guided
      have inside : loop.start ≤ start := shares.inside
      rw [ChunkPc.Fits, invariant.words.last]
      exact toInt32_eq (by omega) (by omega)
  | _ => trivial

/-- A process that takes a step of `EMSloopChunk` stays near enough to the
end. -/
theorem ChunkInvariant.chunk_near (invariant : ChunkInvariant loop config)
    {access : ChunkPc}
    (here : config.control p = .chunk access)
    (fits : access.Fits config.shared.bufInt32)
    (room : ∀ chunkSize, access = .fetchAdd chunkSize →
      loop.Room (config.shared.bufInt32 EMS_LOOP_IDX) chunkSize) :
    (LoopPc.afterChunk (EMSloopChunk config.shared.bufInt32 access).2).Near
      loop := by
  have near := invariant.near p
  obtain ⟨threads, last, least, sched⟩ := invariant.words
  rw [here] at near
  cases access with
  | fetchAdd chunkSize => exact (room chunkSize rfl).left
  | checkStart start end' | clipEnd start => exact near
  | checkEnd start end' =>
      simp only [EMSloopChunk]
      split
      · exact near
      · exact near
  | loadSched start end' =>
      simp only [EMSloopChunk]
      split
      · next guided =>
          rw [sched] at guided
          have isGuided : loop.sched = .guided := by
            cases isSched : loop.sched with
            | guided => rfl
            | dynamic => simp [isSched, Schedule.code] at guided
          exact ⟨isGuided, near isGuided⟩
      · trivial
  | loadEnd start end' =>
      refine ⟨near.1, ?_⟩
      rw [← last]
      exact fits
  | checkMin start end' newSz =>
      simp only [EMSloopChunk]
      split <;> trivial
  | loadChunk | loadThreads | raiseSize | storeChunk => trivial

theorem chunk_words {bufInt32 : ControlBlock}
    (words : LoopWords loop N bufInt32)
    (access : ChunkPc) : LoopWords loop N (EMSloopChunk bufInt32 access).1 := by
  obtain ⟨threads, last, least, sched⟩ := words
  cases access <;> exact ⟨threads, last, least, sched⟩

/-- A step that finds room for what it claims keeps the invariant. -/
theorem ChunkInvariant.step (invariant : ChunkInvariant loop config)
    (int32 : loop.Int32)
    (range : loop.Spans)
    {label : Fin N × ChunkAct} (step : ChunkStep true loop config label next) :
    ChunkInvariant loop next := by
  obtain ⟨careful, moved⟩ := step
  have room := careful rfl
  obtain ⟨sharing, words, near⟩ := id invariant
  obtain ⟨memory, pcs⟩ := config
  cases moved with
  | @mk p act memory' pc program =>
      change ChunkProgram p memory (pcs p) act memory' pc at program
      have nearUpdate : pc.Near loop → ∀ q,
          (Function.update pcs p pc q).Near loop := by
        intro moves q
        by_cases same : q = p
        · subst same
          rwa [Function.update_self]
        · rw [Function.update_of_ne same]
          exact near q
      generalize here : pcs p = before at program
      cases program with
      | @chunk access =>
          have found : ∀ chunkSize, access = .fetchAdd chunkSize →
              loop.Room (memory.bufInt32 EMS_LOOP_IDX) chunkSize := by
            rintro chunkSize rfl
            exact room chunkSize here
          have fits := invariant.fits int32 range here found
          refine ⟨sharing.chunk here int32.lower ?_, chunk_words words access,
            nearUpdate (invariant.chunk_near here fits found)⟩
          rintro chunkSize rfl
          exact (found chunkSize rfl).sum
      | body inside =>
          exact ⟨sharing.body here inside, words, nearUpdate trivial⟩
      | test after =>
          refine ⟨sharing.test here after, words, nearUpdate ?_⟩
          split <;> trivial

end Room

/-! ## Claims past the end -/

/-- 1 if the process has claimed a chunk past the end. -/
def LoopPc.spent (loop : ParLoop) : LoopPc → Nat
  | .chunk (.checkStart start _) | .chunk (.checkEnd start _) |
    .chunk (.clipEnd start)
  | .chunk (.loadSched start _) | .chunk (.loadEnd start _) |
        .chunk (.loadThreads start _ _)
  | .chunk (.checkMin start _ _) | .chunk (.raiseSize start _) |
        .chunk (.storeChunk start _ _)
  | .body start _ _ => if loop.last ≤ start then 1 else 0
  | .closing => 1
  | _ => 0

theorem LoopPc.spent_le (loop : ParLoop) (pc : LoopPc) : pc.spent loop ≤ 1 := by
  unfold LoopPc.spent
  split <;> (try split) <;> omega

/-- What a process knows of the sizes of chunks. -/
def LoopPc.Place (loop : ParLoop) (N : Nat) : LoopPc → Prop
  | .chunk (.fetchAdd chunkSize) => loop.IsChunk N chunkSize
  | .chunk (.checkMin _ _ newSz) => newSz ≤ loop.firstChunk N
  | .chunk (.storeChunk _ _ newSz) => loop.IsChunk N newSz
  | _ => True

variable {N : Nat}

/-- The index goes past what fills the loop only by chunks of processes that
claim nothing more. -/
structure Counted (loop : ParLoop) (bufInt32 : ControlBlock)
    (pcs : Fin N → LoopPc) : Prop where
  words : LoopWords loop N bufInt32
  size : loop.IsChunk N (bufInt32 EMS_LOOP_CHUNKSZ)
  multiple : loop.firstChunk N = loop.leastChunk →
    loop.leastChunk ∣ bufInt32 EMS_LOOP_IDX - loop.start
  reached : bufInt32 EMS_LOOP_IDX ≤
    loop.filled N + tally (LoopPc.spent loop) pcs * loop.firstChunk N
  places : ∀ p, (pcs p).Place loop N

section Counting

variable {loop : ParLoop} {bufInt32 bufInt32' : ControlBlock}
  {pcs : Fin N → LoopPc} {p : Fin N}
  {pc : LoopPc} {invoked : Int → Nat}

theorem Counted.others (unspent : (pcs p).spent loop = 0) :
    tally (LoopPc.spent loop) pcs + 1 ≤ N := by
  have updated := tally_update (LoopPc.spent loop) pcs p .closing
  have most : tally (LoopPc.spent loop)
      (Function.update pcs p .closing) ≤ N := by
    have bound := Finset.sum_le_card_nsmul Finset.univ
      (fun q => (Function.update pcs p .closing q).spent loop) 1
      fun q _ => LoopPc.spent_le loop _
    simpa [tally] using bound
  have one : LoopPc.spent loop .closing = 1 := rfl
  omega

/-- A process moves, and neither the index nor its claim changes. -/
theorem Counted.moves (counted : Counted loop bufInt32 pcs)
    (words : LoopWords loop N bufInt32')
    (size : loop.IsChunk N (bufInt32' EMS_LOOP_CHUNKSZ))
    (idx : bufInt32' EMS_LOOP_IDX = bufInt32 EMS_LOOP_IDX)
    (spent : pc.spent loop = (pcs p).spent loop) (place : pc.Place loop N) :
    Counted loop bufInt32' (Function.update pcs p pc) := by
  refine ⟨words, size, ?_, ?_, ?_⟩
  · rw [idx]
    exact counted.multiple
  · rw [idx, tally_update_same spent]
    exact counted.reached
  · intro q
    by_cases same : q = p
    · subst same
      rwa [Function.update_self]
    · rw [Function.update_of_ne same]
      exact counted.places q

theorem Counted.looks (counted : Counted loop bufInt32 pcs)
    (spent : pc.spent loop = (pcs p).spent loop) (place : pc.Place loop N) :
    Counted loop bufInt32 (Function.update pcs p pc) :=
  counted.moves counted.words counted.size rfl spent place

theorem ParLoop.Int32.firstChunk (int32 : loop.Int32) : 1 ≤ loop.firstChunk N :=
  int32.leastChunk.trans ParLoop.least_le_first

theorem Counted.claim_le (counted : Counted loop bufInt32 pcs)
    (int32 : loop.Int32)
    {chunkSize : Int} (here : pcs p = .chunk (.fetchAdd chunkSize)) :
    bufInt32 EMS_LOOP_IDX ≤ loop.filled N + (N - 1) * loop.firstChunk N ∧
      bufInt32 EMS_LOOP_IDX + chunkSize ≤
        loop.filled N + N * loop.firstChunk N := by
  have reached := counted.reached
  have positive := @ParLoop.Int32.firstChunk N loop int32
  have chunk : loop.IsChunk N chunkSize := by
    simpa [here, LoopPc.Place] using counted.places p
  have most := chunk.most
  have unspent : (pcs p).spent loop = 0 := by
    rw [here]
    rfl
  have others := Counted.others unspent
  have product : (tally (LoopPc.spent loop) pcs : Int) * loop.firstChunk N ≤
      (N - 1) * loop.firstChunk N :=
    mul_le_mul_of_nonneg_right (by omega) (by omega)
  have split : (N : Int) * loop.firstChunk N =
      (N - 1) * loop.firstChunk N + loop.firstChunk N := by
    ring
  omega

/-- A process claims a chunk. -/
theorem Counted.claims (counted : Counted loop bufInt32 pcs)
    (int32 : loop.Int32)
    {chunkSize : Int} (here : pcs p = .chunk (.fetchAdd chunkSize))
    (exact : toInt32 (bufInt32 EMS_LOOP_IDX + chunkSize) =
      bufInt32 EMS_LOOP_IDX + chunkSize) :
    Counted loop (EMSloopChunk bufInt32 (.fetchAdd chunkSize)).1
      (Function.update pcs p
        (.afterChunk (EMSloopChunk bufInt32 (.fetchAdd chunkSize)).2)) := by
  have reached := counted.reached
  have positive := @ParLoop.Int32.firstChunk N loop int32
  have chunk : loop.IsChunk N chunkSize := by
    simpa [here, LoopPc.Place] using counted.places p
  have most := chunk.most
  obtain ⟨threads, last, least, sched⟩ := counted.words
  have moved := tally_update (LoopPc.spent loop) pcs p
    (.chunk (.checkStart (bufInt32 EMS_LOOP_IDX)
      (bufInt32 EMS_LOOP_IDX + chunkSize)))
  have idx : (EMSloopChunk bufInt32 (.fetchAdd chunkSize)).1 EMS_LOOP_IDX =
      bufInt32 EMS_LOOP_IDX + chunkSize := by
    simp only [EMSloopChunk, exact, Function.update_self]
  refine ⟨⟨threads, last, least, sched⟩, counted.size, ?_, ?_, ?_⟩
  · intro uniform
    have whole : chunkSize = loop.leastChunk := by
      have least := chunk.least
      omega
    rw [idx, add_sub_right_comm, whole]
    exact Int.dvd_add (counted.multiple uniform) (Int.dvd_refl _)
  · rw [idx]
    simp only [EMSloopChunk, exact, LoopPc.afterChunk]
    simp only [here, LoopPc.spent] at moved
    by_cases past : loop.last ≤ bufInt32 EMS_LOOP_IDX
    · rw [if_pos past, Nat.add_zero] at moved
      rw [moved]
      push_cast
      have split : ((tally (LoopPc.spent loop) pcs : Int) + 1) *
          loop.firstChunk N =
          tally (LoopPc.spent loop) pcs * loop.firstChunk N + loop.firstChunk
            N := by ring
      omega
    · have filled := loop.le_filled int32 (by omega) chunk counted.multiple
      have nonneg : 0 ≤ (tally (LoopPc.spent loop) (Function.update pcs p
          (.chunk (.checkStart (bufInt32 EMS_LOOP_IDX)
            (bufInt32 EMS_LOOP_IDX + chunkSize)))) : Int) *
          loop.firstChunk N := by positivity
      omega
  · intro q
    by_cases same : q = p
    · subst same
      rw [Function.update_self]
      trivial
    · rw [Function.update_of_ne same]
      exact counted.places q

theorem Counted.room (counted : Counted loop bufInt32 pcs) (int32 : loop.Int32)
    (small : loop.Small N) {chunkSize : Int}
    (here : pcs p = .chunk (.fetchAdd chunkSize)) :
    loop.Room (bufInt32 EMS_LOOP_IDX) chunkSize := by
  obtain ⟨found, left⟩ := counted.claim_le int32 here
  have sum := small.sum
  constructor
  · omega
  · intro guided
    have near := small.left guided
    omega

/-- A process takes a step of `EMSloopChunk`. -/
theorem Counted.chunk (counted : Counted loop bufInt32 pcs)
    (sharing : Sharing loop invoked bufInt32 pcs) (near : (pcs p).Near loop)
    (int32 : loop.Int32) (positive : 0 < N) {access : ChunkPc}
    (here : pcs p = .chunk access)
    (fits : access.Fits bufInt32) :
    Counted loop (EMSloopChunk bufInt32 access).1
      (Function.update pcs p
        (.afterChunk (EMSloopChunk bufInt32 access).2)) := by
  have place := counted.places p
  have shares := sharing.shares p
  rw [here] at place shares near
  obtain ⟨threads, last, least, sched⟩ := counted.words
  cases access with
  | loadChunk => exact counted.looks (by rw [here]; rfl) counted.size
  | fetchAdd chunkSize => exact counted.claims int32 here fits
  | checkStart start last | clipEnd start | loadEnd start last =>
      exact counted.looks (by rw [here]; rfl) trivial
  | checkEnd start end' | loadSched start end' =>
      simp only [EMSloopChunk]
      split
      · exact counted.looks (by rw [here]; rfl) trivial
      · exact counted.looks (by rw [here]; rfl) trivial
  | loadThreads start end' left =>
      obtain ⟨guided, rfl⟩ := near
      have inside : loop.start ≤ start := shares.inside
      refine counted.looks (by rw [here]; rfl) ?_
      simp only [EMSloopChunk, LoopPc.afterChunk, LoopPc.Place, threads]
      exact loop.left_le_first positive guided (by omega)
  | checkMin start end' newSz =>
      simp only [EMSloopChunk, least]
      split
      · exact counted.looks (by rw [here]; rfl) trivial
      · exact counted.looks (by rw [here]; rfl) ⟨by omega, place⟩
  | raiseSize start end' =>
      refine counted.looks (by rw [here]; rfl) ?_
      simp only [EMSloopChunk, LoopPc.afterChunk, LoopPc.Place, least]
      exact ParLoop.isChunk_least
  | storeChunk start end' newSz =>
      exact counted.moves ⟨threads, last, least, sched⟩ place rfl
        (by rw [here]; rfl) trivial

/-- A process leaves the body of the loop. -/
theorem Counted.test (counted : Counted loop bufInt32 pcs)
    (sharing : Sharing loop invoked bufInt32 pcs) {start last idx : Int}
    (here : pcs p = .body start last idx) :
    Counted loop bufInt32
      (Function.update pcs p
        (if 0 < last - start then .chunk .loadChunk else .closing)) := by
  have shares := sharing.shares p
  rw [here] at shares
  obtain ⟨⟨-, -, below, nonempty⟩, -⟩ := shares
  by_cases more : 0 < last - start
  · rw [if_pos more]
    refine counted.looks ?_ trivial
    rw [here, LoopPc.spent, if_neg (by omega)]
    rfl
  · rw [if_neg more]
    refine counted.looks ?_ trivial
    rw [here, LoopPc.spent, LoopPc.spent, if_pos (by omega)]

end Counting

/-! ## Every run -/

section Runs

variable {loop : ParLoop} {config next : ChunkConfig N}
  {bufInt32 : ControlBlock}

theorem ParLoop.Int32.start_le_filled (int32 : loop.Int32) :
    loop.start ≤ loop.filled N := by
  have ordered := int32.ordered
  have least := int32.leastChunk
  have first := @ParLoop.Int32.firstChunk N loop int32
  unfold ParLoop.filled
  split
  · have blocks : 0 ≤ (loop.last - loop.start + loop.leastChunk - 1) /
        loop.leastChunk :=
      Int.ediv_nonneg (by omega) (by omega)
    have product := mul_nonneg blocks (show 0 ≤ loop.leastChunk by omega)
    omega
  · omega

theorem initialChunks_invariant (int32 : loop.Int32)
    (threads : bufInt32 EMS_CB_NTHREADS = (N : Int)) :
    ChunkInvariant loop (initialChunks loop N bufInt32) := by
  obtain ⟨words, idx, size⟩ := initFrom_shape loop threads
  rw [initialChunks]
  generalize initFrom loop 10 bufInt32 (some .storeIdx) =
    stored at words idx size
  have least := int32.leastChunk
  have storedLeast : 1 ≤ stored EMS_LOOP_MINCHUNK := words.least ▸ least
  have storedSize : loop.IsChunk N (stored EMS_LOOP_CHUNKSZ) :=
    size ▸ ParLoop.isChunk_first
  refine ⟨⟨words.last, storedLeast, least.trans storedSize.least, idx.ge,
    fun _ => trivial, ?_⟩,
    words, fun _ => trivial⟩
  intro i
  have none : (LoopPc.chunk .loadChunk).claims loop i = 0 :=
    LoopPc.claims_empty (Int.le_refl _) i
  simp only [idx, none, Finset.sum_const_zero]
  rw [if_neg (by omega), Nat.add_zero]

private theorem initialChunks_counted (int32 : loop.Int32)
    (threads : bufInt32 EMS_CB_NTHREADS = (N : Int)) :
    Counted loop (initialChunks loop N bufInt32).shared.bufInt32
      (initialChunks loop N bufInt32).control := by
  obtain ⟨words, idx, size⟩ := initFrom_shape loop threads
  simp only [initialChunks]
  generalize initFrom loop 10 bufInt32 (some .storeIdx) =
    stored at words idx size
  have storedSize : loop.IsChunk N (stored EMS_LOOP_CHUNKSZ) :=
    size ▸ ParLoop.isChunk_first
  have nobody : tally (LoopPc.spent loop)
      (fun _ : Fin N => .chunk .loadChunk) = 0 := by
    simp [tally, LoopPc.spent]
  refine ⟨words, storedSize, ?_, ?_, fun _ => trivial⟩
  · intro _
    simp [idx]
  · simp only [idx, nobody, Nat.cast_zero, zero_mul, add_zero]
    exact int32.start_le_filled

theorem run_invariant (int32 : loop.Int32)
    (range : loop.Spans)
    (threads : bufInt32 EMS_CB_NTHREADS = (N : Int))
    {trace : List (Fin N × ChunkAct)}
    (run : Run (ChunkStep true loop)
      (initialChunks loop N bufInt32) trace config) :
    ChunkInvariant loop config := by
  refine run.invariant (ChunkInvariant loop) ?_
    (initialChunks_invariant int32 threads)
  intro state label next invariant step
  exact invariant.step int32 range step

theorem careful_fits (int32 : loop.Int32)
    (range : loop.Spans) : LoopFits true loop N where
  range := by
    intro guided
    have ordered := int32.ordered
    exact toInt32_eq (by omega) (range guided)
  fits := by
    intro bufInt32 trace config threads run label next step pc here
    refine (run_invariant int32 range threads run).fits int32 range here ?_
    rintro chunkSize rfl
    exact step.1 rfl chunkSize here
  inside := by
    intro bufInt32 trace config threads run p start last idx here inside
    have shares := (run_invariant int32 range threads run).sharing.shares p
    rw [here] at shares
    obtain ⟨⟨-, least, below, -⟩, after⟩ := shares
    omega

/-- A step of a loop below the bound finds room for what it claims. -/
theorem Counted.step
    (counted : Counted loop config.shared.bufInt32 config.control)
    (invariant : ChunkInvariant loop config) (int32 : loop.Int32)
    (positive : 0 < N)
    (small : loop.Small N) {label : Fin N × ChunkAct}
    (step : ChunkStep false loop config label next) :
    ChunkStep true loop config label next ∧
      Counted loop next.shared.bufInt32 next.control := by
  have room : ∀ chunkSize,
      config.control label.1 = .chunk (.fetchAdd chunkSize) →
      loop.Room (config.shared.bufInt32 EMS_LOOP_IDX) chunkSize :=
    fun _ here => counted.room int32 small here
  refine ⟨⟨fun _ => room, step.2⟩, ?_⟩
  obtain ⟨sharing, words, near⟩ := id invariant
  obtain ⟨memory, pcs⟩ := config
  cases step.2 with
  | @mk p act memory' pc program =>
      change ChunkProgram p memory (pcs p) act memory' pc at program
      change Counted loop memory.bufInt32 pcs at counted
      have nearHere : (pcs p).Near loop := near p
      generalize here : pcs p = before at program
      cases program with
      | @chunk access =>
          refine counted.chunk sharing nearHere int32 positive here ?_
          refine invariant.fits int32 small.range here ?_
          rintro chunkSize rfl
          exact room chunkSize here
      | body inside => exact counted.looks (by rw [here]; rfl) trivial
      | test after => exact counted.test sharing here

theorem ParLoop.Small.finds (small : loop.Small N) (int32 : loop.Int32)
    (positive : 0 < N) :
    ClaimsFindRoom loop N := by
  intro bufInt32 trace config threads run p chunkSize here
  have both := run.invariant (fun config => ChunkInvariant loop config ∧
    Counted loop config.shared.bufInt32 config.control) ?_
    ⟨initialChunks_invariant int32 threads, initialChunks_counted int32 threads⟩
  · exact both.2.room int32 small here
  · rintro state label next ⟨invariant, counted⟩ step
    obtain ⟨careful, counted'⟩ :=
      counted.step invariant int32 positive small step
    exact ⟨invariant.step int32 small.range careful, counted'⟩

theorem ClaimsFindRoom.careful (finds : ClaimsFindRoom loop N)
    (threads : bufInt32 EMS_CB_NTHREADS = (N : Int))
    {trace : List (Fin N × ChunkAct)}
    (run : Run (ChunkStep false loop)
      (initialChunks loop N bufInt32) trace config) :
    Run (ChunkStep true loop) (initialChunks loop N bufInt32) trace config := by
  induction run with
  | nil => exact .nil
  | snoc before step induction =>
      exact induction.snoc
        ⟨fun _ => finds bufInt32 _ _ threads before _, step.2⟩

/-- A loop fits if all claims find room. -/
theorem ClaimsFindRoom.fits (finds : ClaimsFindRoom loop N) (int32 : loop.Int32)
    (range : loop.Spans) : LoopFits false loop N where
  range := (careful_fits int32 range : LoopFits true loop N).range
  fits := by
    intro bufInt32 trace config threads run label next step
    exact (careful_fits int32 range).fits bufInt32 trace config threads
      (finds.careful threads run) label next
      ⟨fun _ => finds bufInt32 trace config threads run label.1, step.2⟩
  inside := by
    intro bufInt32 trace config threads run
    exact (careful_fits int32 range).inside bufInt32 trace config threads
      (finds.careful threads run)

end Runs

/-! ## What a process does next -/

section Reaching

variable {loop : ParLoop} {bufInt32 words : ControlBlock} {invoked : Int → Nat}
  {pcs : Fin N → LoopPc} {p : Fin N} {next : Int}

/-- The processes can get there. -/
def Reached (loop : ParLoop) (N : Nat) (bufInt32 : ControlBlock)
    (words : ControlBlock)
    (pcs : Fin N → LoopPc) : Prop :=
  ∃ invoked trace, Run (ChunkStep false loop)
    (initialChunks loop N bufInt32) trace
    ⟨⟨words, invoked⟩, pcs⟩

theorem Reached.step {words' : ControlBlock} {invoked invoked' : Int → Nat}
    {act : ChunkAct}
    {pc pc' : LoopPc} {trace : List (Fin N × ChunkAct)}
    (run : Run (ChunkStep false loop) (initialChunks loop N bufInt32) trace
      ⟨⟨words, invoked⟩, Function.update pcs p pc⟩)
    (moved : ChunkProgram p ⟨words, invoked⟩ pc act ⟨words', invoked'⟩ pc') :
    Reached loop N bufInt32 words' (Function.update pcs p pc') := by
  have step : ChunkProgram p ⟨words, invoked⟩ (Function.update pcs p pc p) act
      ⟨words', invoked'⟩ pc' := by
    rwa [Function.update_self]
  have next := run.snoc ⟨fun careful => Bool.noConfusion careful, .mk step⟩
  rw [Function.update_idem] at next
  exact ⟨invoked', _, next⟩

theorem Reached.access {pc : ChunkPc}
    (reached : Reached loop N bufInt32 words
      (Function.update pcs p (.chunk pc))) :
    Reached loop N bufInt32 (EMSloopChunk words pc).1
      (Function.update pcs p (.afterChunk (EMSloopChunk words pc).2)) := by
  obtain ⟨invoked, trace, run⟩ := reached
  exact .step run .chunk

theorem Reached.body {start last : Int} (n : Nat) {idx : Int}
    (left : last - idx = n)
    (reached : Reached loop N bufInt32 words
      (Function.update pcs p (.body start last idx))) :
    Reached loop N bufInt32 words
      (Function.update pcs p (.body start last last)) := by
  induction n generalizing idx with
  | zero =>
      obtain rfl : idx = last := by omega
      exact reached
  | succ n induction =>
      obtain ⟨invoked, trace, run⟩ := reached
      exact induction (by omega) (.step run (.body (by omega)))

theorem Reached.test {start last idx : Int} (after : last ≤ idx)
    (reached : Reached loop N bufInt32 words
      (Function.update pcs p (.body start last idx))) :
    Reached loop N bufInt32 words
      (Function.update pcs p
        (if 0 < last - start then .chunk .loadChunk else .closing)) := by
  obtain ⟨invoked, trace, run⟩ := reached
  exact .step run (.test after)

theorem Reached.fits {pc : ChunkPc} (loopFits : LoopFits false loop N)
    (threads : bufInt32 EMS_CB_NTHREADS = (N : Int))
    (reached : Reached loop N bufInt32 words
      (Function.update pcs p (.chunk pc))) :
    pc.Fits words := by
  obtain ⟨invoked, trace, run⟩ := reached
  have here : Function.update pcs p (LoopPc.chunk pc) p = .chunk pc :=
    Function.update_self p _ pcs
  have moved : ChunkProgram p ⟨words, invoked⟩
      (Function.update pcs p (LoopPc.chunk pc) p) .access
      ⟨(EMSloopChunk words pc).1, invoked⟩
          (.afterChunk (EMSloopChunk words pc).2) := by
    rw [here]
    exact .chunk
  exact loopFits.fits bufInt32 trace _ threads run _ _
    ⟨fun careful => Bool.noConfusion careful, .mk moved⟩ pc here

private theorem run_words {config : ChunkConfig N}
    (threads : bufInt32 EMS_CB_NTHREADS = (N : Int))
    {trace : List (Fin N × ChunkAct)}
    (run : Run (ChunkStep false loop)
      (initialChunks loop N bufInt32) trace config) :
    LoopWords loop N config.shared.bufInt32 := by
  refine run.invariant
    (fun config => LoopWords loop N config.shared.bufInt32) ?_
    (initFrom_shape loop threads).toLoopWords
  intro state label next words step
  cases step.2 with
  | mk program =>
      generalize state.shared = memory, state.control _ = pc at program words
      cases program with
      | chunk => exact chunk_words words _
      | body | test => exact words

theorem Reached.loadSched {idx chunkSize : Int}
    (reached : Reached loop N bufInt32 words (Function.update pcs p
      (.chunk (.checkStart idx chunkSize)))) :
    ∃ last, Reached loop N bufInt32 words
      (Function.update pcs p (.chunk (.loadSched idx last))) := by
  have checked := reached.access
  simp only [EMSloopChunk, LoopPc.afterChunk] at checked
  generalize (if words EMS_LOOP_END < idx then 0 else chunkSize) =
    last at checked
  have ended := checked.access
  simp only [EMSloopChunk, LoopPc.afterChunk] at ended
  split at ended
  · have clipped := ended.access
    simp only [EMSloopChunk, LoopPc.afterChunk] at clipped
    exact ⟨_, clipped⟩
  · exact ⟨_, ended⟩

/-- In a loop that fits every claim finds room. -/
theorem LoopFits.finds (loopFits : LoopFits false loop N) :
    ClaimsFindRoom loop N := by
  intro bufInt32 trace config threads run p chunkSize here
  obtain ⟨⟨words, invoked⟩, pcs⟩ := config
  have loopWords : LoopWords loop N words := run_words threads run
  have asks : Function.update pcs p (.chunk (.fetchAdd chunkSize)) = pcs := by
    rw [← here]
    exact Function.update_eq_self p pcs
  have reached : Reached loop N bufInt32 words
      (Function.update pcs p (.chunk (.fetchAdd chunkSize))) := by
    rw [asks]
    exact ⟨invoked, trace, run⟩
  constructor
  · exact (toInt32_fixed (reached.fits loopFits threads)).2
  · intro guided
    have claimed := reached.access
    simp only [EMSloopChunk, LoopPc.afterChunk] at claimed
    obtain ⟨last, scheduled⟩ := claimed.loadSched
    have looked := scheduled.access
    have isGuided : (Function.update words EMS_LOOP_IDX
        (toInt32 (words EMS_LOOP_IDX + chunkSize))) EMS_LOOP_SCHED =
            Schedule.guided.code := by
      rw [← guided, ← loopWords.sched]
      rfl
    simp only [EMSloopChunk, isGuided] at looked
    have left : toInt32 (words EMS_LOOP_END - words EMS_LOOP_IDX) =
        words EMS_LOOP_END - words EMS_LOOP_IDX := looked.fits loopFits threads
    rw [loopWords.last] at left
    have bounds := toInt32_fixed left
    change words EMS_LOOP_IDX - loop.last ≤ 2 ^ 31
    omega

/-! ## Chunks of one size -/

/-- What a process gets that claims at the index. -/
structure Extent (loop : ParLoop) (next last : Int) : Prop where
  before : next < loop.last → next < last
  after : loop.last ≤ next → last ≤ next

/-- The extents of a chunk, as far as the schedule. -/
theorem claim_extent (loopFits : LoopFits false loop N) (int32 : loop.Int32)
    (threads : bufInt32 EMS_CB_NTHREADS = (N : Int))
    (reached : Reached loop N bufInt32 words
      (Function.update pcs p (.chunk .loadChunk)))
    (shape : LoopShape loop N next loop.leastChunk words) :
    toInt32 (next + loop.leastChunk) = next + loop.leastChunk ∧
      ∃ words' last, Reached loop N bufInt32 words'
          (Function.update pcs p (.chunk (.loadSched next last))) ∧
        LoopShape loop N (next + loop.leastChunk) loop.leastChunk words' ∧
        Extent loop next last := by
  have least := int32.leastChunk
  have loaded := reached.access
  simp only [EMSloopChunk, LoopPc.afterChunk, shape.size] at loaded
  have exact := loaded.fits loopFits threads
  simp only [ChunkPc.Fits, shape.idx] at exact
  have claimed := loaded.access
  simp only [EMSloopChunk, LoopPc.afterChunk, shape.idx, exact] at claimed
  have shape' : LoopShape loop N (next + loop.leastChunk) loop.leastChunk
      (Function.update words EMS_LOOP_IDX (next + loop.leastChunk)) :=
    ⟨⟨shape.threads, shape.last, shape.least, shape.sched⟩, rfl, shape.size⟩
  generalize Function.update words EMS_LOOP_IDX (next + loop.leastChunk) =
    words' at claimed shape'
  have checked := claimed.access
  simp only [EMSloopChunk, LoopPc.afterChunk, shape'.last] at checked
  have ended := checked.access
  simp only [EMSloopChunk, LoopPc.afterChunk, shape'.last] at ended
  refine ⟨exact, words', ?_⟩
  by_cases clip : loop.last < if loop.last < next then 0
    else next + loop.leastChunk
  · rw [if_pos clip] at ended
    have clipped := ended.access
    simp only [EMSloopChunk, LoopPc.afterChunk, shape'.last] at clipped
    exact ⟨loop.last, clipped, shape', id, id⟩
  · rw [if_neg clip] at ended
    refine ⟨_, ended, shape', ?_, ?_⟩
    · intro before
      rw [if_neg (by omega)]
      omega
    · intro after
      split_ifs at clip ⊢ <;> omega

/-- A process claims a chunk and runs it. -/
theorem claim_reached (loopFits : LoopFits false loop N) (int32 : loop.Int32)
    (positive : 0 < N)
    (uniform : loop.firstChunk N = loop.leastChunk)
    (threads : bufInt32 EMS_CB_NTHREADS = (N : Int))
    (inside : loop.start ≤ next)
    (reached : Reached loop N bufInt32 words
      (Function.update pcs p (.chunk .loadChunk)))
    (shape : LoopShape loop N next loop.leastChunk words) :
    ClaimFits loop next loop.leastChunk ∧ ∃ words' last,
      Reached loop N bufInt32 words'
        (Function.update pcs p (.body next last next)) ∧
      LoopShape loop N (next + loop.leastChunk) loop.leastChunk words' ∧
        Extent loop next last := by
  obtain ⟨sum, words', last, claimed, shape', extent⟩ :=
    claim_extent loopFits int32 threads reached shape
  have looked := claimed.access
  simp only [EMSloopChunk, shape'.sched] at looked
  cases sched : loop.sched with
  | dynamic =>
      rw [sched, if_neg (by decide)] at looked
      refine ⟨⟨sum, fun guided => ?_⟩, words', last, looked, shape', extent⟩
      rw [sched] at guided
      cases guided
  | guided =>
      rw [sched, if_pos rfl] at looked
      have left := looked.fits loopFits threads
      simp only [ChunkPc.Fits, shape'.last] at left
      have loaded := looked.access
      simp only [EMSloopChunk, LoopPc.afterChunk, shape'.last, left] at loaded
      have divided := loaded.access
      simp only [EMSloopChunk, LoopPc.afterChunk, shape'.threads] at divided
      have most := loop.left_le_first positive sched
        (show loop.last - next ≤ loop.last - loop.start by omega)
      generalize ((loop.last - next).tdiv 2).tdiv N = newSz at divided most
      have compared := divided.access
      simp only [EMSloopChunk, LoopPc.afterChunk, shape'.least] at compared
      have chosen : Reached loop N bufInt32 words'
          (Function.update pcs p
              (.chunk (.storeChunk next last loop.leastChunk))) := by
        by_cases small : newSz < loop.leastChunk
        · rw [if_pos small] at compared
          have raised := compared.access
          simpa only [EMSloopChunk, LoopPc.afterChunk,
            shape'.least] using raised
        · rw [if_neg small] at compared
          obtain rfl : newSz = loop.leastChunk := by omega
          exact compared
      have stored := chosen.access
      simp only [EMSloopChunk, LoopPc.afterChunk] at stored
      exact ⟨⟨sum, fun _ => left⟩, _, last, stored,
        ⟨⟨shape'.threads, shape'.last, shape'.least, shape'.sched⟩, shape'.idx,
          rfl⟩, extent⟩

/-- One process claims chunks as long as there is something. -/
theorem filled_reached (loopFits : LoopFits false loop N) (int32 : loop.Int32)
    (positive : 0 < N)
    (uniform : loop.firstChunk N = loop.leastChunk)
    (threads : bufInt32 EMS_CB_NTHREADS = (N : Int)) (k : Nat)
    (before : 0 < k → loop.start + (k - 1) * loop.leastChunk < loop.last) :
    ∃ words, Reached loop N bufInt32 words
      (fun _ : Fin N => .chunk .loadChunk) ∧
      LoopShape loop N (loop.start + k * loop.leastChunk)
        loop.leastChunk words := by
  have least := int32.leastChunk
  induction k with
  | zero =>
      have shape := initFrom_shape loop threads
      rw [uniform] at shape
      refine ⟨_, ⟨_, [], .nil⟩, ?_⟩
      simpa using shape
  | succ k induction =>
      have product : ((k : Int) + 1) * loop.leastChunk =
          k * loop.leastChunk + loop.leastChunk := by
        ring
      have product' : ((k : Int) - 1) * loop.leastChunk =
          k * loop.leastChunk - loop.leastChunk := by
        ring
      have nonneg : 0 ≤ (k : Int) * loop.leastChunk := by positivity
      have below := before (Nat.succ_pos k)
      push_cast at below ⊢
      rw [add_sub_cancel_right] at below
      obtain ⟨words, reached, shape⟩ := induction fun _ => by omega
      have here := Function.update_eq_self (⟨0, positive⟩ : Fin N)
        (fun _ : Fin N => LoopPc.chunk .loadChunk)
      rw [← here] at reached
      obtain ⟨-, words', last, claimed, shape', extent⟩ :=
        claim_reached loopFits int32 positive uniform threads (by omega)
          reached shape
      have some := extent.before below
      have run :=
        (claimed.body (last - (loop.start + k * loop.leastChunk)).toNat
        (by omega)).test le_rfl
      rw [if_pos (by omega), here] at run
      exact ⟨words', run, by rwa [product, ← add_assoc]⟩

/-- The first `k` processes have claimed past the end, one after the other. -/
def closedBefore (N k : Nat) (p : Fin N) : LoopPc :=
  if p.val < k then .closing else .chunk .loadChunk

private theorem closedBefore_next {k : Nat} (below : k < N) :
    Function.update (closedBefore N k) ⟨k, below⟩ .closing =
      closedBefore N (k + 1) := by
  funext p
  by_cases same : p = ⟨k, below⟩
  · subst same
    rw [Function.update_self, closedBefore, if_pos (Nat.lt_succ_self k)]
  · have different : p.val ≠ k := fun equal => same (Fin.ext equal)
    rw [Function.update_of_ne same, closedBefore, closedBefore]
    congr 1
    rw [eq_iff_iff]
    omega

theorem closed_step (loopFits : LoopFits false loop N) (int32 : loop.Int32)
    (uniform : loop.firstChunk N = loop.leastChunk)
    (threads : bufInt32 EMS_CB_NTHREADS = (N : Int))
    (beyond : loop.last ≤ next) {k : Nat}
    (below : k < N) (reached : Reached loop N bufInt32 words (closedBefore N k))
    (shape : LoopShape loop N next loop.leastChunk words) :
    ClaimFits loop next loop.leastChunk ∧ ∃ words',
      Reached loop N bufInt32 words' (closedBefore N (k + 1)) ∧
      LoopShape loop N (next + loop.leastChunk) loop.leastChunk words' := by
  have ordered := int32.ordered
  have here := Function.update_eq_self (⟨k, below⟩ : Fin N) (closedBefore N k)
  have asks : closedBefore N k ⟨k, below⟩ = .chunk .loadChunk :=
    if_neg (lt_irrefl k)
  rw [asks] at here
  rw [← here] at reached
  obtain ⟨fits, words', last, claimed, shape', extent⟩ :=
    claim_reached loopFits int32 (by omega) uniform threads (by omega)
      reached shape
  have empty := extent.after beyond
  have run := claimed.test empty
  rw [if_neg (by omega), closedBefore_next] at run
  exact ⟨fits, words', run, shape'⟩

private theorem closed_reached (loopFits : LoopFits false loop N)
    (int32 : loop.Int32)
    (uniform : loop.firstChunk N = loop.leastChunk)
    (threads : bufInt32 EMS_CB_NTHREADS = (N : Int)) {filled : Int}
    (beyond : loop.last ≤ filled)
    (start : ∃ words, Reached loop N bufInt32 words
      (fun _ : Fin N => .chunk .loadChunk) ∧
      LoopShape loop N filled loop.leastChunk words) (k : Nat) (below : k < N) :
    ∃ words, Reached loop N bufInt32 words (closedBefore N k) ∧
      LoopShape loop N (filled + k * loop.leastChunk)
        loop.leastChunk words := by
  induction k with
  | zero =>
      have nobody : closedBefore N 0 = fun _ => .chunk .loadChunk := by
        funext p
        simp [closedBefore]
      simpa [nobody] using start
  | succ k induction =>
      obtain ⟨words, reached, shape⟩ := induction (by omega)
      have least := int32.leastChunk
      have nonneg : 0 ≤ (k : Int) * loop.leastChunk := by positivity
      obtain ⟨-, words', reached', shape'⟩ :=
        closed_step loopFits int32 uniform threads (by omega) (by omega)
          reached shape
      have product : ((k : Int) + 1) * loop.leastChunk =
          k * loop.leastChunk + loop.leastChunk := by
        ring
      refine ⟨words', reached', ?_⟩
      push_cast
      rwa [product, ← add_assoc]

theorem ParLoop.Int32.filled_eq (int32 : loop.Int32)
    (uniform : loop.firstChunk N = loop.leastChunk) :
    ∃ k : Nat, loop.filled N = loop.start + k * loop.leastChunk ∧
      loop.last ≤ loop.filled N ∧
      loop.start + (k - 1) * loop.leastChunk < loop.last := by
  have ordered := int32.ordered
  have least := int32.leastChunk
  have blocks : 0 ≤ (loop.last - loop.start + loop.leastChunk - 1) /
      loop.leastChunk :=
    Int.ediv_nonneg (by omega) (by omega)
  obtain ⟨k, isBlocks⟩ := Int.eq_ofNat_of_zero_le blocks
  have below := Int.ediv_mul_le (loop.last - loop.start + loop.leastChunk - 1)
    (show loop.leastChunk ≠ 0 by omega)
  have above :=
    Int.lt_ediv_add_one_mul_self (loop.last - loop.start + loop.leastChunk - 1)
    (show 0 < loop.leastChunk by omega)
  have product : ((k : Int) + 1) * loop.leastChunk =
      k * loop.leastChunk + loop.leastChunk := by
    ring
  have product' : ((k : Int) - 1) * loop.leastChunk =
      k * loop.leastChunk - loop.leastChunk := by
    ring
  refine ⟨k, ?_, ?_, ?_⟩
  · rw [ParLoop.filled, if_pos uniform, isBlocks]
  · rw [ParLoop.filled, if_pos uniform]
    rw [isBlocks] at above ⊢
    omega
  · rw [isBlocks] at below
    omega

/-- With chunks of one size a loop fits only below the bound. -/
theorem LoopFits.small (loopFits : LoopFits false loop N) (int32 : loop.Int32)
    (positive : 0 < N)
    (uniform : loop.firstChunk N = loop.leastChunk) : loop.Small N := by
  obtain ⟨bufInt32, threads⟩ : ∃ bufInt32 : ControlBlock,
      bufInt32 EMS_CB_NTHREADS = (N : Int) :=
    ⟨fun _ => N, rfl⟩
  obtain ⟨k, isFilled, beyond, before⟩ := int32.filled_eq uniform
  have filled :=
    filled_reached loopFits int32 positive uniform threads k fun _ => before
  rw [← isFilled] at filled
  obtain ⟨words, reached, shape⟩ :=
    closed_reached loopFits int32 uniform threads beyond filled
      (N - 1) (by omega)
  have least := int32.leastChunk
  have nonneg : 0 ≤ ((N - 1 : Nat) : Int) * loop.leastChunk := by positivity
  obtain ⟨fits, -⟩ :=
    closed_step loopFits int32 uniform threads (by omega) (by omega)
      reached shape
  have others : ((N - 1 : Nat) : Int) = N - 1 := by omega
  rw [others] at fits
  have split : (N : Int) * loop.leastChunk =
    (N - 1) * loop.leastChunk + loop.leastChunk := by ring
  constructor
  · have sum := toInt32_fixed fits.sum
    rw [uniform]
    omega
  · exact fun guided => (toInt32_fixed (loopFits.range guided)).2
  · intro guided
    have left := toInt32_fixed (fits.left guided)
    rw [uniform]
    omega

end Reaching

section Schedules

end Schedules

end EMS
