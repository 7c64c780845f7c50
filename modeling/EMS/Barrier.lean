import EMS.FairRuns
import Mathlib.Data.Fintype.Card
import Mathlib.Data.Fin.Basic
import Mathlib.Algebra.Order.BigOperators.Group.Finset

/-!
# The phase based global barrier

`EMSbarrier` counts arrivals down in one of two counters and releases the
waiting processes by flipping a phase word.  The control points below are the
atomic accesses of the source in program order.  The counters and the phase
live in the control block, an array of 32-bit words that every process maps.
-/

namespace EMS

open Interleaving

/-- `bufInt32`, the words of the EMS control block. -/
abbrev ControlBlock := Int → Int

def EMS_CB_NTHREADS : Int := 0
def EMS_CB_NBAR0 : Int := 1
def EMS_CB_NBAR1 : Int := 2
def EMS_CB_BARPHASE : Int := 3

/-- Control points of `EMSbarrier`, with the locals that are live there. -/
inductive BarrierPc where
  | outside
  | readPhase (timeout : Int)
  | fetchAdd (timeout barPhase : Int)
  | race
  | resetCount (timeout barPhase : Int)
  | flipPhase (timeout barPhase : Int)
  | spin (timeout barPhase : Int)
  | done (retval : Int)
  deriving DecidableEq, Repr

/-- The next access stores the phase word. -/
def BarrierPc.isFlip : BarrierPc → Bool
  | .flipPhase _ _ => true
  | _ => false

/-- One atomic access of `EMSbarrier`. -/
def EMSbarrier (bufInt32 : ControlBlock) : BarrierPc → ControlBlock × BarrierPc
  | .outside => (bufInt32, .outside)
  | .readPhase timeout =>
      (bufInt32, .fetchAdd timeout (bufInt32 EMS_CB_BARPHASE))
  | .fetchAdd timeout barPhase =>
      let retval := bufInt32 (EMS_CB_NBAR0 + barPhase)
      (Function.update bufInt32 (EMS_CB_NBAR0 + barPhase) (retval + -1),
        if retval < 0 then .race
        else if retval = 1 then .resetCount timeout barPhase
        else .spin timeout barPhase)
  -- "Race condition at barrier", the call returns false
  | .race => (bufInt32, .done 0)
  | .resetCount timeout barPhase =>
      (Function.update bufInt32 (EMS_CB_NBAR0 + barPhase)
        (bufInt32 EMS_CB_NTHREADS), .flipPhase timeout barPhase)
  | .flipPhase timeout barPhase =>
      (Function.update bufInt32 EMS_CB_BARPHASE (if barPhase = 0 then 1 else 0),
        .done timeout)
  | .spin timeout barPhase =>
      (bufInt32,
        if 0 < timeout ∧ barPhase = bufInt32 EMS_CB_BARPHASE
        then .spin (timeout - 1) barPhase else .done timeout)
  | .done retval => (bufInt32, .done retval)

/-- The control block as `EMSinitialize` leaves it for `nThreads` processes. -/
def initialControlBlock (nThreads : Nat) : ControlBlock := fun word =>
  if word = EMS_CB_NTHREADS ∨ word = EMS_CB_NBAR0 ∨ word = EMS_CB_NBAR1 then
    nThreads
  else 0

/-- A process that calls the barrier again and again, with the number of calls
it has entered and the number it has returned from. -/
structure BarrierProcess where
  pc : BarrierPc
  entered : Nat
  returned : Nat

/-- The control block, and the phase stores made so far: which process made
each of them, in which of its calls. -/
structure BarrierMemory (N : Nat) where
  bufInt32 : ControlBlock
  flips : List (Fin N × Nat)

inductive BarrierAct where
  | call (timeout : Int)
  | access
  | ret (retval : Int)

/-- The steps of one process: call the barrier, access memory, return. -/
inductive BarrierProgram {N : Nat} (p : Fin N) :
    BarrierMemory N → BarrierProcess → BarrierAct →
      BarrierMemory N → BarrierProcess → Prop where
  | call {memory : BarrierMemory N} {entered returned : Nat} (timeout : Int) :
      BarrierProgram p memory ⟨.outside, entered, returned⟩ (.call timeout)
        memory ⟨.readPhase timeout, entered + 1, returned⟩
  | access {memory : BarrierMemory N} {pc : BarrierPc}
      {entered returned : Nat} :
      pc ≠ .outside → (∀ retval, pc ≠ .done retval) →
      BarrierProgram p memory ⟨pc, entered, returned⟩ .access
        ⟨(EMSbarrier memory.bufInt32 pc).1,
          if pc.isFlip then memory.flips ++ [(p, entered)] else memory.flips⟩
        ⟨(EMSbarrier memory.bufInt32 pc).2, entered, returned⟩
  | ret {memory : BarrierMemory N} {entered returned : Nat} (retval : Int) :
      BarrierProgram p memory ⟨.done retval, entered, returned⟩ (.ret retval)
        memory ⟨.outside, entered, returned + 1⟩


/-- The call that takes this step has not run out of its timeout. -/
def InTime {N : Nat} (config : Config (Fin N) (BarrierMemory N) BarrierProcess)
    (label : Fin N × BarrierAct) : Prop :=
  ∀ timeout barPhase, (config.control label.1).pc = .spin timeout barPhase →
    0 < timeout

/-- Any process takes any of its steps, none of them a timeout. -/
def BarrierStep {N : Nat}
    (config : Config (Fin N) (BarrierMemory N) BarrierProcess)
    (label : Fin N × BarrierAct)
    (next : Config (Fin N) (BarrierMemory N) BarrierProcess) : Prop :=
  InTime config label ∧ Step BarrierProgram config label next

/-- Nobody has called the barrier yet. -/
def initialBarrier (N : Nat) :
    Config (Fin N) (BarrierMemory N) BarrierProcess :=
  ⟨⟨initialControlBlock N, []⟩, fun _ => ⟨.outside, 0, 0⟩⟩

/-! ## The invariant of a round -/

/-- The phase word after `round` flips. -/
def phaseOf (round : Nat) : Int := (round % 2 : Nat)

theorem phaseOf_cases (round : Nat) :
    (phaseOf round = 0 ∧ phaseOf (round + 1) = 1) ∨
      (phaseOf round = 1 ∧ phaseOf (round + 1) = 0) := by
  unfold phaseOf
  omega

/-- The next access resets the counter or flips the phase. -/
def BarrierPc.isClosing : BarrierPc → Bool
  | .resetCount _ _ => true
  | .flipPhase _ _ => true
  | _ => false

/-- The process waits for the flip that ends the current round. -/
def BarrierProcess.isWaiting (round : Nat) (process : BarrierProcess) : Bool :=
  match process.pc with
  | .spin _ _ => process.entered = round + 1
  | _ => false

/-- The process has been counted in the current round. -/
def BarrierProcess.hasArrived (round : Nat) (process : BarrierProcess) : Bool :=
  process.isWaiting round || process.pc.isClosing

/-- Where a process can be while `round` flips have been made. -/
def BarrierProcess.Fits (round : Nat) (process : BarrierProcess) : Prop :=
  match process.pc with
  | .outside => process.entered = round ∧ process.returned = round
  | .readPhase _ => process.entered = round + 1 ∧ process.returned = round
  | .fetchAdd _ barPhase | .resetCount _ barPhase | .flipPhase _ barPhase =>
      process.entered = round + 1 ∧ process.returned = round ∧
        barPhase = phaseOf round
  | .spin _ barPhase =>
      (process.entered = round + 1 ∧ process.returned = round ∧
        barPhase = phaseOf round) ∨
      (process.entered = round ∧ process.returned + 1 = round ∧
        barPhase ≠ phaseOf round)
  | .done _ => process.entered = round ∧ process.returned + 1 = round
  | .race => False

/-- The processes still to be counted in the current round. -/
def missing {N : Nat} (round : Nat) (control : Fin N → BarrierProcess) :
    Finset (Fin N) :=
  Finset.univ.filter fun p => (control p).hasArrived round = false

private theorem missing_update_same {N : Nat} {round : Nat}
    {control : Fin N → BarrierProcess} {p : Fin N} {process : BarrierProcess}
    (same : process.hasArrived round = (control p).hasArrived round) :
    missing round (Function.update control p process) =
      missing round control := by
  ext q
  by_cases equal : q = p
  · subst equal
    simp [missing, same]
  · simp [missing, equal]

theorem missing_update_arrives {N : Nat} {round : Nat}
    {control : Fin N → BarrierProcess} {p : Fin N} {process : BarrierProcess}
    (arrives : process.hasArrived round = true) :
    missing round (Function.update control p process) =
      (missing round control).erase p := by
  ext q
  by_cases equal : q = p
  · subst equal
    simp [missing, arrives]
  · simp [missing, equal]

/-- The state of the barrier in the round after `round` flips. -/
structure BarrierInvariant {N : Nat} (round : Nat)
    (config : Config (Fin N) (BarrierMemory N) BarrierProcess) : Prop where
  rounds : config.shared.flips.map Prod.snd = List.range' 1 round
  threads : config.shared.bufInt32 EMS_CB_NTHREADS = N
  phase : config.shared.bufInt32 EMS_CB_BARPHASE = phaseOf round
  spare : config.shared.bufInt32 (EMS_CB_NBAR0 + phaseOf (round + 1)) = N
  count : (∀ p, (config.control p).pc.isFlip = false) →
    config.shared.bufInt32 (EMS_CB_NBAR0 + phaseOf round) =
      (missing round config.control).card
  restored : ∀ p, (config.control p).pc.isFlip = true →
    config.shared.bufInt32 (EMS_CB_NBAR0 + phaseOf round) = N
  fits : ∀ p, (config.control p).Fits round
  closing : ∀ p, (config.control p).pc.isClosing = true →
    ∀ q, q ≠ p → (config.control q).isWaiting round = true
  complete : missing round config.control = ∅ →
    ∃ p, (config.control p).pc.isClosing = true

theorem initialBarrier_invariant {N : Nat} (positive : 0 < N) :
    BarrierInvariant 0 (initialBarrier N) := by
  have notArrived : ∀ p,
      ((initialBarrier N).control p).hasArrived 0 = false := by
    intro p
    rfl
  have everyone : missing 0 (initialBarrier N).control = Finset.univ := by
    ext p
    simp [missing, notArrived]
  refine ⟨rfl, ?_, ?_, ?_, ?_, ?_, ?_, ?_, ?_⟩
  · simp [initialBarrier, initialControlBlock]
  · simp [initialBarrier, initialControlBlock, phaseOf, EMS_CB_NTHREADS,
      EMS_CB_NBAR0, EMS_CB_NBAR1, EMS_CB_BARPHASE]
  · simp [initialBarrier, initialControlBlock, phaseOf, EMS_CB_NTHREADS,
      EMS_CB_NBAR0, EMS_CB_NBAR1]
  · intro _
    rw [everyone]
    simp [initialBarrier, initialControlBlock, phaseOf]
  · intro p flips
    simp [initialBarrier, BarrierPc.isFlip] at flips
  · intro p
    simp [initialBarrier, BarrierProcess.Fits]
  · intro p closing
    simp [initialBarrier, BarrierPc.isClosing] at closing
  · intro nobody
    have member : (⟨0, positive⟩ : Fin N) ∈
        missing 0 (initialBarrier N).control := by
      simp [everyone]
    simp [nobody] at member

theorem update_counter (bufInt32 : ControlBlock) (round : Nat) (value : Int) :
    let stored := Function.update bufInt32 (EMS_CB_NBAR0 + phaseOf round) value
    stored EMS_CB_NTHREADS = bufInt32 EMS_CB_NTHREADS ∧
      stored EMS_CB_BARPHASE = bufInt32 EMS_CB_BARPHASE ∧
      stored (EMS_CB_NBAR0 + phaseOf (round + 1)) =
        bufInt32 (EMS_CB_NBAR0 + phaseOf (round + 1)) := by
  have phases := phaseOf_cases round
  refine ⟨?_, ?_, ?_⟩ <;> rw [Function.update_of_ne]
  · simp only [EMS_CB_NTHREADS, EMS_CB_NBAR0]
    omega
  · simp only [EMS_CB_BARPHASE, EMS_CB_NBAR0]
    omega
  · simp only [EMS_CB_NBAR0]
    omega

theorem update_phase (bufInt32 : ControlBlock) (round : Nat) (value : Int) :
    let stored := Function.update bufInt32 EMS_CB_BARPHASE value
    stored EMS_CB_NTHREADS = bufInt32 EMS_CB_NTHREADS ∧
      stored (EMS_CB_NBAR0 + phaseOf round) =
        bufInt32 (EMS_CB_NBAR0 + phaseOf round) := by
  have phases := phaseOf_cases round
  refine ⟨?_, ?_⟩ <;> rw [Function.update_of_ne]
  · simp [EMS_CB_NTHREADS, EMS_CB_BARPHASE]
  · simp only [EMS_CB_BARPHASE, EMS_CB_NBAR0]
    omega

section StepLemmas

variable {N round : Nat} {memory : BarrierMemory N}
  {control : Fin N → BarrierProcess} {p : Fin N}

/-- A move that neither arrives, closes the round, nor writes a counter. -/
theorem BarrierInvariant.quiet
    (invariant : BarrierInvariant round ⟨memory, control⟩)
    {process : BarrierProcess}
    (waiting : process.isWaiting round = (control p).isWaiting round)
    (openBefore : (control p).pc.isClosing = false)
    (openAfter : process.pc.isClosing = false)
    (fits : process.Fits round) :
    BarrierInvariant round ⟨memory, Function.update control p process⟩ := by
  have arrived : process.hasArrived round = (control p).hasArrived round := by
    simp [BarrierProcess.hasArrived, waiting, openBefore, openAfter]
  have sameMissing := missing_update_same (p := p) arrived
  have noFlip : ∀ pc : BarrierPc, pc.isClosing = false → pc.isFlip = false := by
    intro pc notClosing
    cases pc <;> simp_all [BarrierPc.isClosing, BarrierPc.isFlip]
  refine ⟨invariant.rounds, invariant.threads, invariant.phase,
    invariant.spare, ?_, ?_, ?_, ?_, ?_⟩
  · intro flipFree
    rw [sameMissing]
    refine invariant.count fun q => ?_
    by_cases same : q = p
    · subst same
      exact noFlip _ openBefore
    · simpa [same] using flipFree q
  · intro q flips
    by_cases same : q = p
    · subst same
      simp [noFlip _ openAfter] at flips
    · exact invariant.restored q (by simpa [same] using flips)
  · intro q
    by_cases same : q = p
    · subst same
      simpa using fits
    · simpa [same] using invariant.fits q
  · intro closer closing q different
    by_cases same : closer = p
    · subst same
      simp [openAfter] at closing
    · have others := invariant.closing closer (by simpa [same] using closing)
      by_cases moved : q = p
      · subst moved
        simpa [waiting] using others q different
      · simpa [moved] using others q different
  · intro nobody
    rw [sameMissing] at nobody
    obtain ⟨closer, closing⟩ := invariant.complete nobody
    have different : closer ≠ p := by
      intro same
      subst same
      simp [openBefore] at closing
    exact ⟨closer, by simpa [different] using closing⟩

theorem BarrierInvariant.nobodyCloses
    (invariant : BarrierInvariant round ⟨memory, control⟩)
    (absent : (control p).hasArrived round = false) (q : Fin N) :
    (control q).pc.isClosing = false := by
  by_contra closing
  simp only [Bool.not_eq_false] at closing
  have notArrived := absent
  simp only [BarrierProcess.hasArrived, Bool.or_eq_false_iff] at notArrived
  have different : p ≠ q := by
    intro same
    subst same
    simp [closing] at notArrived
  have waiting := invariant.closing q closing p different
  simp [waiting] at notArrived

theorem BarrierPc.isFlip_of_not_closing {pc : BarrierPc}
    (notClosing : pc.isClosing = false) : pc.isFlip = false := by
  cases pc <;> simp_all [BarrierPc.isClosing, BarrierPc.isFlip]

theorem BarrierInvariant.count_of_absent
    (invariant : BarrierInvariant round ⟨memory, control⟩)
    (absent : (control p).hasArrived round = false) :
    memory.bufInt32 (EMS_CB_NBAR0 + phaseOf round) =
        (missing round control).card ∧
      p ∈ missing round control := by
  refine ⟨invariant.count fun q => ?_, by simp [missing, absent]⟩
  exact BarrierPc.isFlip_of_not_closing (invariant.nobodyCloses absent q)

/-- An arrival that is not the last one. -/
theorem BarrierInvariant.arrives
    (invariant : BarrierInvariant round ⟨memory, control⟩)
    {timeout : Int} (atFetch : (control p).pc = .fetchAdd timeout
      (phaseOf round))
    (notLast : memory.bufInt32 (EMS_CB_NBAR0 + phaseOf round) ≠ 1) :
    BarrierInvariant round
      ⟨⟨Function.update memory.bufInt32 (EMS_CB_NBAR0 + phaseOf round)
          (memory.bufInt32 (EMS_CB_NBAR0 + phaseOf round) + -1), memory.flips⟩,
        Function.update control p ⟨.spin timeout (phaseOf round),
          (control p).entered, (control p).returned⟩⟩ := by
  have fits := invariant.fits p
  simp only [BarrierProcess.Fits, atFetch] at fits
  obtain ⟨entered, returned, -⟩ := fits
  have absent : (control p).hasArrived round = false := by
    simp [BarrierProcess.hasArrived, BarrierProcess.isWaiting,
      BarrierPc.isClosing, atFetch]
  obtain ⟨count, member⟩ := invariant.count_of_absent absent
  have nobodyCloses := invariant.nobodyCloses absent
  have nowMissing :
      missing round (Function.update control p ⟨.spin timeout (phaseOf round),
        (control p).entered, (control p).returned⟩) =
        (missing round control).erase p := by
    apply missing_update_arrives
    simp [BarrierProcess.hasArrived, BarrierProcess.isWaiting, entered]
  have card := Finset.card_erase_of_mem member
  have somebody : 0 < (missing round control).card :=
    Finset.card_pos.mpr ⟨p, member⟩
  obtain ⟨threads, phase, spare⟩ := update_counter memory.bufInt32 round
    (memory.bufInt32 (EMS_CB_NBAR0 + phaseOf round) + -1)
  refine ⟨invariant.rounds, threads.trans invariant.threads,
    phase.trans invariant.phase, spare.trans invariant.spare, ?_,
    ?_, ?_, ?_, ?_⟩
  · intro _
    simp only [nowMissing, Function.update_self]
    omega
  · intro q flips
    by_cases same : q = p
    · subst same
      simp [BarrierPc.isFlip] at flips
    · simp [same, BarrierPc.isFlip_of_not_closing (nobodyCloses q)] at flips
  · intro q
    by_cases same : q = p
    · subst same
      simp [BarrierProcess.Fits, entered, returned]
    · simpa [same] using invariant.fits q
  · intro q closing
    by_cases same : q = p
    · subst same
      simp [BarrierPc.isClosing] at closing
    · simp [same, nobodyCloses q] at closing
  · intro nobody
    rw [nowMissing] at nobody
    have empty := congrArg Finset.card nobody
    simp only [Finset.card_empty] at empty
    omega

/-- The last arrival: everybody else waits, and the counter has reached zero. -/
theorem BarrierInvariant.arrivesLast
    (invariant : BarrierInvariant round ⟨memory, control⟩)
    {timeout : Int} (atFetch : (control p).pc = .fetchAdd timeout
      (phaseOf round))
    (last : memory.bufInt32 (EMS_CB_NBAR0 + phaseOf round) = 1) :
    BarrierInvariant round
      ⟨⟨Function.update memory.bufInt32 (EMS_CB_NBAR0 + phaseOf round)
          (memory.bufInt32 (EMS_CB_NBAR0 + phaseOf round) + -1), memory.flips⟩,
        Function.update control p ⟨.resetCount timeout (phaseOf round),
          (control p).entered, (control p).returned⟩⟩ := by
  have fits := invariant.fits p
  simp only [BarrierProcess.Fits, atFetch] at fits
  obtain ⟨entered, returned, -⟩ := fits
  have absent : (control p).hasArrived round = false := by
    simp [BarrierProcess.hasArrived, BarrierProcess.isWaiting,
      BarrierPc.isClosing, atFetch]
  obtain ⟨count, member⟩ := invariant.count_of_absent absent
  have nobodyCloses := invariant.nobodyCloses absent
  have onlyOne : missing round control = {p} := by
    have one : (missing round control).card = 1 := by omega
    obtain ⟨q, single⟩ := Finset.card_eq_one.mp one
    rw [single, Finset.mem_singleton] at member
    rw [single, member]
  have othersWait : ∀ q, q ≠ p → (control q).isWaiting round = true := by
    intro q different
    by_contra notWaiting
    have alsoMissing : q ∈ missing round control := by
      simpa [missing, BarrierProcess.hasArrived,
        nobodyCloses q] using notWaiting
    rw [onlyOne, Finset.mem_singleton] at alsoMissing
    exact different alsoMissing
  have nowMissing :
      missing round (Function.update control p
        ⟨.resetCount timeout (phaseOf round),
        (control p).entered, (control p).returned⟩) = ∅ := by
    rw [missing_update_arrives, onlyOne, Finset.erase_singleton]
    simp [BarrierProcess.hasArrived, BarrierPc.isClosing]
  obtain ⟨threads, phase, spare⟩ := update_counter memory.bufInt32 round
    (memory.bufInt32 (EMS_CB_NBAR0 + phaseOf round) + -1)
  refine ⟨invariant.rounds, threads.trans invariant.threads,
    phase.trans invariant.phase, spare.trans invariant.spare, ?_,
    ?_, ?_, ?_, ?_⟩
  · intro _
    simp [nowMissing, last]
  · intro q flips
    by_cases same : q = p
    · subst same
      simp [BarrierPc.isFlip] at flips
    · simp [same, BarrierPc.isFlip_of_not_closing (nobodyCloses q)] at flips
  · intro q
    by_cases same : q = p
    · subst same
      simp [BarrierProcess.Fits, entered, returned]
    · simpa [same] using invariant.fits q
  · intro closer closing q different
    by_cases same : closer = p
    · subst same
      simpa [different] using othersWait q different
    · simp [same, nobodyCloses closer] at closing
  · intro _
    exact ⟨p, by simp [BarrierPc.isClosing]⟩

/-- The last arrival puts the counter back to the number of processes. -/
theorem BarrierInvariant.resets
    (invariant : BarrierInvariant round ⟨memory, control⟩)
    {timeout : Int} (atReset : (control p).pc = .resetCount timeout
      (phaseOf round)) :
    BarrierInvariant round
      ⟨⟨Function.update memory.bufInt32 (EMS_CB_NBAR0 + phaseOf round)
          (memory.bufInt32 EMS_CB_NTHREADS), memory.flips⟩,
        Function.update control p ⟨.flipPhase timeout (phaseOf round),
          (control p).entered, (control p).returned⟩⟩ := by
  have fits := invariant.fits p
  simp only [BarrierProcess.Fits, atReset] at fits
  obtain ⟨entered, returned, -⟩ := fits
  have closingBefore : (control p).pc.isClosing = true := by
    simp [atReset, BarrierPc.isClosing]
  have othersWait := invariant.closing p closingBefore
  obtain ⟨threads, phase, spare⟩ := update_counter memory.bufInt32 round
    (memory.bufInt32 EMS_CB_NTHREADS)
  have notClosing : ∀ q, q ≠ p → (control q).pc.isClosing = false := by
    intro q different
    have waiting := othersWait q different
    cases pcEq : (control q).pc <;>
      simp_all [BarrierProcess.isWaiting, BarrierPc.isClosing]
  refine ⟨invariant.rounds, threads.trans invariant.threads,
    phase.trans invariant.phase, spare.trans invariant.spare, ?_,
    ?_, ?_, ?_, ?_⟩
  · intro flipFree
    have impossible := flipFree p
    simp [BarrierPc.isFlip] at impossible
  · intro _ _
    simpa using invariant.threads
  · intro q
    by_cases same : q = p
    · subst same
      simp [BarrierProcess.Fits, entered, returned]
    · simpa [same] using invariant.fits q
  · intro closer closing q different
    by_cases same : closer = p
    · subst same
      simpa [different] using othersWait q different
    · simp [same, notClosing closer same] at closing
  · intro _
    exact ⟨p, by simp [BarrierPc.isClosing]⟩

/-- The phase store ends the round and opens the next one. -/
theorem BarrierInvariant.flips
    (invariant : BarrierInvariant round ⟨memory, control⟩)
    {timeout : Int} (atFlip : (control p).pc = .flipPhase timeout
      (phaseOf round)) :
    BarrierInvariant (round + 1)
      ⟨⟨Function.update memory.bufInt32 EMS_CB_BARPHASE
          (if phaseOf round = 0 then 1 else 0),
          memory.flips ++ [(p, (control p).entered)]⟩,
        Function.update control p ⟨.done timeout,
          (control p).entered, (control p).returned⟩⟩ := by
  have fits := invariant.fits p
  simp only [BarrierProcess.Fits, atFlip] at fits
  obtain ⟨entered, returned, -⟩ := fits
  have flipBefore : (control p).pc.isFlip = true := by
    simp [atFlip, BarrierPc.isFlip]
  have othersWait := invariant.closing p (by simp [atFlip, BarrierPc.isClosing])
  have phases := phaseOf_cases round
  have nextPhases := phaseOf_cases (round + 1)
  -- everybody else spins on the old phase and is not counted in the new round
  have others : ∀ q, q ≠ p →
      (control q).pc.isClosing = false ∧
        (control q).isWaiting (round + 1) = false ∧
        (control q).Fits (round + 1) := by
    intro q different
    have waiting := othersWait q different
    have fitsBefore := invariant.fits q
    cases pcEq : (control q).pc <;>
      simp_all [BarrierProcess.isWaiting, BarrierPc.isClosing,
        BarrierProcess.Fits]
    omega
  have nobodyCloses : ∀ q, (Function.update control p ⟨.done timeout,
      (control p).entered, (control p).returned⟩ q).pc.isClosing = false := by
    intro q
    by_cases same : q = p
    · subst same
      simp [BarrierPc.isClosing]
    · simpa [same] using (others q same).1
  have nowMissing : missing (round + 1)
      (Function.update control p ⟨.done timeout,
      (control p).entered, (control p).returned⟩) = Finset.univ := by
    ext q
    by_cases same : q = p
    · subst same
      simp [missing, BarrierProcess.hasArrived, BarrierProcess.isWaiting,
        BarrierPc.isClosing]
    · simp [missing, BarrierProcess.hasArrived, same, (others q same).1,
        (others q same).2.1]
  obtain ⟨threads, counter⟩ := update_phase memory.bufInt32 round
    (if phaseOf round = 0 then 1 else 0)
  obtain ⟨-, nextCounter⟩ := update_phase memory.bufInt32 (round + 1)
    (if phaseOf round = 0 then 1 else 0)
  refine ⟨?_, threads.trans invariant.threads, ?_, ?_, ?_, ?_, ?_, ?_, ?_⟩
  · have rounds := invariant.rounds
    simp only at rounds
    simp [rounds, entered, List.range'_concat, Nat.add_comm]
  · rcases phases with ⟨before, after⟩ | ⟨before, after⟩ <;>
      simp [before, after]
  · have sameCounter : phaseOf (round + 1 + 1) = phaseOf round := by omega
    rw [sameCounter]
    exact counter.trans (invariant.restored p flipBefore)
  · intro _
    rw [nowMissing, Finset.card_univ, Fintype.card_fin]
    exact nextCounter.trans invariant.spare
  · intro q flips
    have notFlip := BarrierPc.isFlip_of_not_closing (nobodyCloses q)
    simp [notFlip] at flips
  · intro q
    by_cases same : q = p
    · subst same
      simp [BarrierProcess.Fits, entered, returned]
    · simpa [same] using (others q same).2.2
  · intro closer closing
    simp [nobodyCloses closer] at closing
  · intro nobody
    rw [nowMissing] at nobody
    have member : p ∈ (Finset.univ : Finset (Fin N)) := Finset.mem_univ p
    simp [nobody] at member

end StepLemmas

/-- The number of phase stores made so far. -/
abbrev flipCount {N : Nat}
    (config : Config (Fin N) (BarrierMemory N) BarrierProcess) : Nat :=
  config.shared.flips.length

theorem BarrierInvariant.round_eq {N round : Nat}
    {config : Config (Fin N) (BarrierMemory N) BarrierProcess}
    (invariant : BarrierInvariant round config) : flipCount config = round := by
  have lengths := congrArg List.length invariant.rounds
  simpa using lengths

/-- One step, no timeout, keeps the invariant; only the phase store opens a
new round. -/
theorem BarrierInvariant.step {N round : Nat}
    {config next : Config (Fin N) (BarrierMemory N) BarrierProcess}
    {label : Fin N × BarrierAct}
    (invariant : BarrierInvariant round config)
    (step : BarrierStep config label next) :
    ∃ round', BarrierInvariant round' next := by
  obtain ⟨inTime, step⟩ := step
  obtain ⟨memory, control⟩ := config
  cases step with
  | @mk p act memory' process moved =>
      have fits := invariant.fits p
      simp only at moved fits
      generalize before : control p = processBefore at moved fits
      cases moved with
      | call timeout =>
          refine ⟨round, invariant.quiet ?_ ?_ rfl ?_⟩
          · simp [BarrierProcess.isWaiting, before]
          · simp [before, BarrierPc.isClosing]
          · simpa [BarrierProcess.Fits] using fits
      | ret retval =>
          refine ⟨round, invariant.quiet ?_ ?_ rfl ?_⟩
          · simp [BarrierProcess.isWaiting, before]
          · simp [before, BarrierPc.isClosing]
          · simpa [BarrierProcess.Fits] using fits
      | @access pc entered returned notOutside notDone =>
          cases pc with
          | outside => exact absurd rfl notOutside
          | done retval => exact absurd rfl (notDone retval)
          | race => simp [BarrierProcess.Fits] at fits
          | readPhase timeout =>
              have phase := invariant.phase
              simp only at phase
              refine ⟨round, invariant.quiet ?_ ?_ rfl ?_⟩
              · simp [BarrierProcess.isWaiting, before, EMSbarrier]
              · simp [before, BarrierPc.isClosing]
              · simpa [BarrierProcess.Fits, EMSbarrier, phase] using fits
          | spin timeout barPhase =>
              have positive : 0 < timeout :=
                inTime timeout barPhase (by simp [before])
              have phase := invariant.phase
              simp only at phase
              by_cases held : barPhase = phaseOf round
              · refine ⟨round, invariant.quiet ?_ ?_ ?_ ?_⟩
                · simp [BarrierProcess.isWaiting, before, EMSbarrier, positive,
                    held, phase]
                · simp [before, BarrierPc.isClosing]
                · simp [EMSbarrier, positive, held, phase, BarrierPc.isClosing]
                · simpa [BarrierProcess.Fits, EMSbarrier, positive, held,
                    phase] using fits
              · have left : entered = round ∧ returned + 1 = round := by
                  simpa [BarrierProcess.Fits, held] using fits
                refine ⟨round, invariant.quiet ?_ ?_ ?_ ?_⟩
                · simp [BarrierProcess.isWaiting, before, EMSbarrier, held,
                    phase, left.1]
                · simp [before, BarrierPc.isClosing]
                · simp [EMSbarrier, held, phase, BarrierPc.isClosing]
                · simpa [BarrierProcess.Fits, EMSbarrier, held,
                    phase] using left
          | fetchAdd timeout barPhase =>
              obtain ⟨-, -, rfl⟩ := fits
              have atFetch : (control p).pc =
                  .fetchAdd timeout (phaseOf round) := by
                simp [before]
              have absent : (control p).hasArrived round = false := by
                simp [BarrierProcess.hasArrived, BarrierProcess.isWaiting,
                  BarrierPc.isClosing, atFetch]
              obtain ⟨count, -⟩ := invariant.count_of_absent absent
              have noRace : ¬ memory.bufInt32
                  (EMS_CB_NBAR0 + phaseOf round) < 0 := by
                omega
              by_cases last : memory.bufInt32 (EMS_CB_NBAR0 + phaseOf round) = 1
              · refine ⟨round, ?_⟩
                simpa [EMSbarrier, last, before, BarrierPc.isFlip] using
                  invariant.arrivesLast atFetch last
              · refine ⟨round, ?_⟩
                simpa [EMSbarrier, last, noRace, before, BarrierPc.isFlip] using
                  invariant.arrives atFetch last
          | resetCount timeout barPhase =>
              obtain ⟨-, -, rfl⟩ := fits
              refine ⟨round, ?_⟩
              have atReset : (control p).pc =
                  .resetCount timeout (phaseOf round) := by
                simp [before]
              simpa [EMSbarrier, before, BarrierPc.isFlip] using
                invariant.resets atReset
          | flipPhase timeout barPhase =>
              obtain ⟨-, -, rfl⟩ := fits
              refine ⟨round + 1, ?_⟩
              have atFlip : (control p).pc =
                  .flipPhase timeout (phaseOf round) := by
                simp [before]
              simpa [EMSbarrier, before, BarrierPc.isFlip] using
                invariant.flips atFlip

private theorem barrier_invariant {N : Nat} (positive : 0 < N)
    {config : Config (Fin N) (BarrierMemory N) BarrierProcess}
    {trace : List (Fin N × BarrierAct)}
    (run : Run BarrierStep (initialBarrier N) trace config) :
    BarrierInvariant (flipCount config) config := by
  have reached : ∃ round, BarrierInvariant round config := by
    refine run.invariant (fun config => ∃ round, BarrierInvariant round config)
      ?_ ⟨0, initialBarrier_invariant positive⟩
    rintro config label next ⟨round, invariant⟩ step
    exact invariant.step step
  obtain ⟨round, invariant⟩ := reached
  rwa [invariant.round_eq]

/-! ## Progress -/

/-- The process is in a call and its next access does not wait for anybody. -/
def BarrierPc.isBusy : BarrierPc → Bool
  | .readPhase _ | .fetchAdd _ _ | .resetCount _ _ | .flipPhase _ _ => true
  | _ => false

/-- How many accesses separate the process from waiting or from having flipped
the phase. -/
def BarrierPc.work : BarrierPc → Nat
  | .readPhase _ => 4
  | .fetchAdd _ _ => 3
  | .resetCount _ _ => 2
  | .flipPhase _ _ => 1
  | _ => 0

def totalWork {N : Nat}
    (config : Config (Fin N) (BarrierMemory N) BarrierProcess) : Nat :=
  ∑ p, (config.control p).pc.work

/-- An infinite schedule without timeouts in which no process is left forever
before a step that waits for nobody.  Processes that spin in the barrier need
not be scheduled at all. -/
structure FairBarrierRun {N : Nat}
    (future : Nat → Config (Fin N) (BarrierMemory N) BarrierProcess) :
    Prop where
  advances : ∀ i, future (i + 1) = future i ∨
    ∃ label, BarrierStep (future i) label (future (i + 1))
  fair : ∀ p i, ∃ j, i ≤ j ∧ (((future j).control p).pc.isBusy = false ∨
    ∃ act, BarrierStep (future j) (p, act) (future (j + 1)))

/-- While everybody is in the call of this round and the phase has not been
flipped, a step by a process that is not spinning brings the flip nearer and a
step by one that spins changes nothing. -/
theorem BarrierInvariant.work_step {N round : Nat}
    {config next : Config (Fin N) (BarrierMemory N) BarrierProcess}
    {p : Fin N} {act : BarrierAct}
    (invariant : BarrierInvariant round config)
    (everyone : ∀ q, round + 1 ≤ (config.control q).entered)
    (step : BarrierStep config (p, act) next) :
    (∀ q, q ≠ p → next.control q = config.control q) ∧
      if (config.control p).pc.isBusy then
        (next.control p).pc.work < (config.control p).pc.work
      else (next.control p).pc.work = (config.control p).pc.work ∧
        (next.control p).pc.isBusy = false := by
  obtain ⟨inTime, step⟩ := step
  have fits := invariant.fits p
  have phase := invariant.phase
  have entered := everyone p
  cases step with
  | @mk _ _ memory' process moved =>
      generalize before : config.control p =
        processBefore at moved fits entered ⊢
      have others : ∀ q, q ≠ p →
          Function.update config.control p process q = config.control q := by
        intro q different
        simp [different]
      cases moved with
      | call timeout =>
          simp only [BarrierProcess.Fits] at fits
          simp only at entered
          omega
      | ret retval =>
          simp only [BarrierProcess.Fits] at fits
          simp only at entered
          omega
      | @access pc entered returned notOutside notDone =>
          refine ⟨others, ?_⟩
          cases pc with
          | outside => exact absurd rfl notOutside
          | done retval => exact absurd rfl (notDone retval)
          | race => simp [BarrierProcess.Fits] at fits
          | spin timeout barPhase =>
              have positive : 0 < timeout :=
                inTime timeout barPhase (by simp [before])
              have held : barPhase = phaseOf round := by
                simp only [BarrierProcess.Fits] at fits entered
                omega
              simp [EMSbarrier, BarrierPc.isBusy, BarrierPc.work, positive,
                held, phase]
          | fetchAdd timeout barPhase =>
              simp only [EMSbarrier, BarrierPc.isBusy,
                Function.update_self, if_true]
              split_ifs <;> simp [BarrierPc.work]
          | _ => simp [EMSbarrier, BarrierPc.isBusy, BarrierPc.work]

private theorem totalWork_eq_of_same {N : Nat}
    {config next : Config (Fin N) (BarrierMemory N) BarrierProcess}
    (same : ∀ q, (next.control q).pc.work = (config.control q).pc.work) :
    totalWork next = totalWork config :=
  Finset.sum_congr rfl fun q _ => same q

private theorem totalWork_lt {N : Nat}
    {config next : Config (Fin N) (BarrierMemory N) BarrierProcess} {p : Fin N}
    (others : ∀ q, q ≠ p → next.control q = config.control q)
    (less : (next.control p).pc.work < (config.control p).pc.work) :
    totalWork next < totalWork config := by
  refine Finset.sum_lt_sum (fun q _ => ?_) ⟨p, Finset.mem_univ p, less⟩
  by_cases same : q = p
  · subst same
    exact less.le
  · rw [others q same]

/-- As long as the phase has not been flipped, somebody has a step to take
that waits for nobody. -/
theorem BarrierInvariant.exists_busy {N round : Nat}
    {config : Config (Fin N) (BarrierMemory N) BarrierProcess}
    (invariant : BarrierInvariant round config)
    (everyone : ∀ q, round + 1 ≤ (config.control q).entered) :
    ∃ p, (config.control p).pc.isBusy = true := by
  by_contra nobody
  have allWait : ∀ q, (config.control q).hasArrived round = true := by
    intro q
    have idle : (config.control q).pc.isBusy = false := by
      by_contra busy
      exact nobody ⟨q, by simpa using busy⟩
    have fits := invariant.fits q
    have entered := everyone q
    cases pcEq : (config.control q).pc with
    | spin timeout barPhase =>
        simp only [BarrierProcess.Fits, pcEq] at fits
        have current : (config.control q).entered = round + 1 := by omega
        simp [BarrierProcess.hasArrived, BarrierProcess.isWaiting,
          pcEq, current]
    | outside | done _ =>
        simp only [BarrierProcess.Fits, pcEq] at fits
        omega
    | race => simp [BarrierProcess.Fits, pcEq] at fits
    | _ => simp [pcEq, BarrierPc.isBusy] at idle
  have nobodyMissing : missing round config.control = ∅ := by
    simp [missing, allWait]
  obtain ⟨p, closing⟩ := invariant.complete nobodyMissing
  refine nobody ⟨p, ?_⟩
  cases pcEq : (config.control p).pc <;> simp_all [BarrierPc.isClosing,
    BarrierPc.isBusy]

private theorem entered_mono {N : Nat}
    {config next : Config (Fin N) (BarrierMemory N) BarrierProcess}
    {label : Fin N × BarrierAct} (step : BarrierStep config label next)
    (q : Fin N) :
    (config.control q).entered ≤ (next.control q).entered := by
  obtain ⟨-, step⟩ := step
  cases step with
  | @mk p act memory' process moved =>
      by_cases same : q = p
      · subst same
        generalize config.control q = before at moved
        cases moved <;> simp
      · simp [same]

/-- The work left before the flip of a round that everybody has entered. -/
theorem barrier_progress {N : Nat} (k : Nat) :
    Progress BarrierStep (fun config p => ((config.control p).pc.isBusy = true))
      (fun _ => True)
      (fun config : Config (Fin N) (BarrierMemory N) BarrierProcess =>
        BarrierInvariant (flipCount config) config ∧ ∀ q,
          k ≤ (config.control q).entered)
      (fun config => k ≤ flipCount config)
      (fun config p => ((config.control p).pc.isBusy = true)) totalWork where
  keeps := by
    rintro config ⟨p, act⟩ next ⟨invariant, everyone⟩ step
    obtain ⟨round, after⟩ := invariant.step step
    refine ⟨by rwa [after.round_eq], fun q => (everyone q).trans ?_⟩
    exact entered_mono step q
  urgent := id
  somebody := by
    rintro config ⟨invariant, everyone⟩ never
    apply invariant.exists_busy
    intro q
    have := everyone q
    omega
  nearer := by
    rintro config p act next ⟨invariant, everyone⟩ never step
    have entered : ∀ q, flipCount config + 1 ≤ (config.control q).entered := by
      intro q
      have := everyone q
      omega
    obtain ⟨others, effect⟩ := invariant.work_step entered step
    by_cases busy : (config.control p).pc.isBusy = true
    · rw [if_pos busy] at effect
      exact .inl (totalWork_lt others effect)
    · rw [if_neg busy] at effect
      refine .inr ⟨totalWork_eq_of_same fun r => ?_, fun _ => busy,
        fun q busyHere => ?_⟩
      · by_cases same : r = p
        · subst same
          exact effect.1
        · rw [others r same]
      · have different : q ≠ p := by
          rintro rfl
          exact busy busyHere
        rwa [others q different]

theorem FairBarrierRun.fairRun {N : Nat}
    {future : Nat → Config (Fin N) (BarrierMemory N) BarrierProcess}
    (run : FairBarrierRun future) :
    FairRun BarrierStep (fun config p => ((config.control p).pc.isBusy = true))
      (fun _ => True) future where
  advances := run.advances
  fair p i := by
    obtain ⟨j, later, idle | ⟨act, step⟩⟩ := run.fair p i
    · exact ⟨j, later, .inl (by simp [idle])⟩
    · exact ⟨j, later, .inr ⟨act, trivial, step⟩⟩

theorem FairBarrierRun.flips_eventually {N : Nat}
    {future : Nat → Config (Fin N) (BarrierMemory N) BarrierProcess}
    (run : FairBarrierRun future) {k : Nat} {i : Nat}
    (invariant : BarrierInvariant (flipCount (future i)) (future i))
    (everyone : ∀ p, k ≤ ((future i).control p).entered) :
    ∃ j, k ≤ flipCount (future j) := by
  obtain ⟨j, -, flipped⟩ :=
    (barrier_progress k).eventually run.fairRun ⟨invariant, everyone⟩
  exact ⟨j, flipped⟩

/-- A process that spins on a phase that is no longer the current one leaves
the barrier with its next access. -/
theorem BarrierInvariant.leaves {N round : Nat}
    {config next : Config (Fin N) (BarrierMemory N) BarrierProcess}
    {p : Fin N} {act : BarrierAct} {timeout barPhase : Int}
    (invariant : BarrierInvariant round config)
    (spinning : (config.control p).pc = .spin timeout barPhase)
    (passed : (config.control p).entered ≤ round)
    (step : BarrierStep config (p, act) next) :
    (next.control p).pc = .done timeout := by
  obtain ⟨-, step⟩ := step
  have fits := invariant.fits p
  have phase := invariant.phase
  simp only [BarrierProcess.Fits, spinning] at fits
  have stale : barPhase ≠ phaseOf round := by omega
  cases step with
  | @mk _ _ memory' process moved =>
      generalize before : config.control p = processBefore at moved spinning
      cases moved with
      | call timeout => simp at spinning
      | ret retval => simp at spinning
      | access notOutside notDone =>
          simp only at spinning
          subst spinning
          simp [EMSbarrier, phase, stale]

/-! ## Barrier safety -/

/-- What the barrier guarantees in a state of the system. -/
structure BarrierSafe {N : Nat}
    (config : Config (Fin N) (BarrierMemory N) BarrierProcess) : Prop where
  /-- Whoever has returned from its `k`-th call finds that everybody has
  entered the `k`-th call. -/
  separates : ∀ p q, (config.control p).returned ≤ (config.control q).entered
  /-- The phase stores are made one in each call: the `k`-th store by one
  process, in its `k`-th call. -/
  flippedOnce :
    config.shared.flips.map Prod.snd = List.range' 1 (flipCount config)
  /-- The branch "Race condition at barrier" is not taken. -/
  noRace : ∀ p, (config.control p).pc ≠ .race
  /-- Once everybody has entered the `k`-th call, the `k`-th flip has been made
  or will be made. -/
  flipComes : ∀ k, (∀ p, k ≤ (config.control p).entered) →
    ∀ future, future 0 = config → FairBarrierRun future →
      ∃ j, k ≤ flipCount (future j)
  /-- Once the `k`-th flip has been made, a process that spins in its `k`-th
  call leaves with its next access. -/
  released : ∀ p timeout barPhase,
    (config.control p).pc = .spin timeout barPhase →
    (config.control p).entered ≤ flipCount config →
    ∀ act next, BarrierStep config (p, act) next →
      (next.control p).pc = .done timeout

theorem EMSbarrier_safe {N : Nat} (positive : 0 < N)
    {config : Config (Fin N) (BarrierMemory N) BarrierProcess}
    {trace : List (Fin N × BarrierAct)}
    (run : Run BarrierStep (initialBarrier N) trace config) :
    BarrierSafe config := by
  have invariant := barrier_invariant positive run
  refine ⟨?_, invariant.rounds, ?_, ?_, ?_⟩
  · intro p q
    have returned : (config.control p).returned ≤ flipCount config := by
      have fits := invariant.fits p
      cases pcEq : (config.control p).pc <;>
        simp only [BarrierProcess.Fits, pcEq] at fits <;> omega
    have entered : flipCount config ≤ (config.control q).entered := by
      have fits := invariant.fits q
      cases pcEq : (config.control q).pc <;>
        simp only [BarrierProcess.Fits, pcEq] at fits <;> omega
    exact returned.trans entered
  · intro p race
    have fits := invariant.fits p
    simp [BarrierProcess.Fits, race] at fits
  · intro k everyone future start fair
    subst start
    exact fair.flips_eventually invariant everyone
  · intro p timeout barPhase spinning passed act next step
    exact invariant.leaves spinning passed step

/-! ## A run -/

/-- The step that a process takes, where it can take it. -/
def barrierNext {N : Nat} (p : Fin N) (memory : BarrierMemory N) :
    BarrierProcess → BarrierAct → Option (BarrierMemory N × BarrierProcess)
  | ⟨.outside, entered, returned⟩, .call timeout =>
      some (memory, ⟨.readPhase timeout, entered + 1, returned⟩)
  | ⟨.done finished, entered, returned⟩, .ret retval =>
      if retval = finished then
        some (memory, ⟨.outside, entered, returned + 1⟩) else none
  | ⟨.outside, _, _⟩, .access | ⟨.done _, _, _⟩, .access => none
  | ⟨pc, entered, returned⟩, .access =>
      some (⟨(EMSbarrier memory.bufInt32 pc).1,
          if pc.isFlip then memory.flips ++ [(p, entered)] else memory.flips⟩,
        ⟨(EMSbarrier memory.bufInt32 pc).2, entered, returned⟩)
  | _, _ => none

theorem barrierNext_program {N : Nat} {p : Fin N}
    {memory memory' : BarrierMemory N}
    {process process' : BarrierProcess} {act : BarrierAct}
    (taken : barrierNext p memory process act = some (memory', process')) :
    BarrierProgram p memory process act memory' process' := by
  unfold barrierNext at taken
  split at taken
  case h_1 =>
    cases taken
    exact .call _
  case h_2 =>
    obtain ⟨rfl, moved⟩ := Option.ite_none_right_eq_some.mp taken
    cases moved
    exact .ret _
  case h_5 notOutside notDone =>
    cases taken
    exact .access notOutside notDone
  all_goals cases taken

def inTime {N : Nat} (config : Config (Fin N) (BarrierMemory N) BarrierProcess)
    (label : Fin N × BarrierAct) : Bool :=
  match (config.control label.1).pc with
  | .spin timeout _ => 0 < timeout
  | _ => true

theorem inTime_of {N : Nat}
    {config : Config (Fin N) (BarrierMemory N) BarrierProcess}
    {label : Fin N × BarrierAct} (checked : inTime config label = true) :
    InTime config label := by
  intro timeout barPhase spins
  simpa [inTime, spins] using checked

/-- Process 0 waits in its first call until process 1 has come, and both
return.  Process 1 then waits in its second call. -/
def oneRound : List (Fin 2 × BarrierAct) :=
  [(0, .call 9), (0, .access), (0, .access), (0, .access), (1, .call 9),
    (1, .access),
    (1, .access), (1, .access), (1, .access), (1, .ret 9), (0, .access),
    (0, .ret 8),
    (1, .call 9), (1, .access), (1, .access), (1, .access)]

theorem EMSbarrier_safe_oneRound :
    ∃ config, Run BarrierStep (initialBarrier 2) oneRound config ∧
      (∀ p, (config.control p).returned = 1) ∧
      (config.control 1).pc = .spin 8 1 ∧ BarrierSafe config := by
  obtain ⟨config, run, checked⟩ :=
    exists_run barrierNext inTime barrierNext_program inTime_of
    (initialBarrier 2) oneRound
      (fun config => (config.control 0).returned = 1 ∧
        (config.control 1).returned = 1 ∧
      (config.control 1).pc = .spin 8 1) (by decide)
  obtain ⟨first, second, waits⟩ := of_decide_eq_true checked
  exact ⟨config, run, Fin.forall_fin_two.mpr ⟨first, second⟩, waits,
    EMSbarrier_safe (by decide) run⟩

end EMS
