import EMS.Barrier

/-!
# The barrier when calls run out of timeout

A call of `EMSbarrier` that runs out of its timeout leaves its arrival in the
counter.  When its caller calls again before the phase has changed, the caller
is counted twice, and the barrier opens before everybody has arrived.  When
callers wait for the phase to change before they call again, an abandoned call
looks to the others like one that is still waiting.
-/

namespace EMS

open Interleaving

/-! ## Runs with timeouts -/

/-- A process with what is remembered of its calls: the phase of the arrival
that it has given up waiting for, how many phase changes had been made at each
of its calls, and how many when it was last counted. -/
structure TimedProcess where
  process : BarrierProcess
  abandoned : Option Int
  calls : List Nat
  arrivedAt : Option Nat

/-- A step is noted.  `flips` is the number of phase changes made before. -/
def TimedProcess.note (timed : TimedProcess) (flips : Nat) (act : BarrierAct)
    (process : BarrierProcess) : TimedProcess :=
  match act, timed.process.pc with
  | .call _, _ => ⟨process, none, timed.calls ++ [flips], timed.arrivedAt⟩
  | .access, .fetchAdd _ _ =>
      { timed with process := process, arrivedAt := some flips }
  | .access, .spin timeout barPhase =>
      { timed with
        process := process
        abandoned := if 0 < timeout then none else some barPhase }
  | _, _ => { timed with process := process }

/-- The steps of one process, timeouts included. -/
inductive TimedProgram {N : Nat} (p : Fin N) :
    BarrierMemory N → TimedProcess → BarrierAct → BarrierMemory N →
      TimedProcess → Prop where
  | mk {memory memory' : BarrierMemory N} {timed : TimedProcess}
      {act : BarrierAct}
      {process : BarrierProcess} :
      BarrierProgram p memory timed.process act memory' process →
      TimedProgram p memory timed act memory'
        (timed.note memory.flips.length act process)

abbrev TimedConfig (N : Nat) := Config (Fin N) (BarrierMemory N) TimedProcess

/-- Nobody calls again before the phase has changed since its last arrival. -/
def WaitsForPhase {N : Nat} (config : TimedConfig N)
    (label : Fin N × BarrierAct) : Prop :=
  ∀ timeout, label.2 = .call timeout → ∀ flips,
    (config.control label.1).arrivedAt = some flips →
    flips < config.shared.flips.length

/-- Any process takes any of its steps. -/
def TimedStep {N : Nat} (careful : Bool) (config : TimedConfig N)
    (label : Fin N × BarrierAct)
    (next : TimedConfig N) : Prop :=
  (careful = true → WaitsForPhase config label) ∧
    Step TimedProgram config label next

/-- Nobody has called the barrier yet. -/
def initialTimed (N : Nat) : TimedConfig N :=
  ⟨⟨initialControlBlock N, []⟩, fun _ => ⟨⟨.outside, 0, 0⟩, none, [], none⟩⟩

/-- A call that is about to return a positive value finds that the phase has
changed since it was made, and that everybody has called in the same phase. -/
def SuccessIsMutual {N : Nat} (config : TimedConfig N) : Prop :=
  ∀ p retval, (config.control p).process.pc = .done retval → 0 < retval →
    ∃ since, (config.control p).calls.getLast? = some since ∧
      since < config.shared.flips.length ∧ ∀ q, since ∈ (config.control q).calls

/-! ## How an abandoned call looks to the others -/

/-- The control point with all the time in the world. -/
def BarrierPc.patient : BarrierPc → BarrierPc
  | .readPhase _ => .readPhase 1
  | .fetchAdd _ barPhase => .fetchAdd 1 barPhase
  | .resetCount _ barPhase => .resetCount 1 barPhase
  | .flipPhase _ barPhase => .flipPhase 1 barPhase
  | .spin _ barPhase => .spin 1 barPhase
  | .done _ => .done 1
  | .outside => .outside
  | .race => .race

/-- The process as the others see it: one that has given up still waits. -/
def TimedProcess.view (timed : TimedProcess) : BarrierProcess :=
  match timed.abandoned with
  | some barPhase =>
      ⟨.spin 1 barPhase, timed.process.entered, timed.process.entered - 1⟩
  | none =>
      ⟨timed.process.pc.patient, timed.process.entered, timed.process.returned⟩

def viewConfig {N : Nat} (config : TimedConfig N) :
    Config (Fin N) (BarrierMemory N) BarrierProcess :=
  ⟨config.shared, fun p => (config.control p).view⟩

private theorem view_update {N : Nat} (control : Fin N → TimedProcess)
    (p : Fin N) (timed : TimedProcess) :
    (fun q => (Function.update control p timed q).view) =
      Function.update (fun q => (control q).view) p timed.view := by
  funext q
  by_cases same : q = p
  · subst same
    simp
  · simp [same]

/-- What is remembered of a process agrees with where it is. -/
structure TimedProcess.Consistent (timed : TimedProcess) : Prop where
  called : timed.calls = List.range timed.process.entered
  waits : ∀ timeout barPhase, timed.process.pc = .spin timeout barPhase →
    timed.arrivedAt = some (timed.process.entered - 1)
  gaveUp : ∀ barPhase, timed.abandoned = some barPhase →
    0 < timed.process.entered ∧ timed.arrivedAt =
      some (timed.process.entered - 1) ∧
      (timed.process.pc = .outside ∧ timed.process.returned =
        timed.process.entered ∨
        ∃ retval, timed.process.pc = .done retval ∧ retval ≤ 0 ∧
          timed.process.returned + 1 = timed.process.entered)

structure TimedInvariant {N : Nat} (round : Nat)
    (config : TimedConfig N) : Prop where
  barrier : BarrierInvariant round (viewConfig config)
  consistent : ∀ p, (config.control p).Consistent

section Steps

variable {N round : Nat} {memory : BarrierMemory N}
  {control : Fin N → TimedProcess} {p : Fin N}

theorem TimedInvariant.flips_eq
    (invariant : TimedInvariant round ⟨memory, control⟩) :
    memory.flips.length = round :=
  invariant.barrier.round_eq

/-- A step of a process is a step of what the others see, or none. -/
theorem TimedInvariant.moves
    (invariant : TimedInvariant round ⟨memory, control⟩)
    {memory' : BarrierMemory N} {timed : TimedProcess}
    (barrier : ∃ round', BarrierInvariant round'
      ⟨memory', Function.update (fun q => (control q).view) p timed.view⟩)
    (consistent : timed.Consistent) :
    ∃ round', TimedInvariant round'
      ⟨memory', Function.update control p timed⟩ := by
  obtain ⟨round', barrier⟩ := barrier
  refine ⟨round', ?_, fun q => ?_⟩
  · rw [viewConfig, view_update]
    exact barrier
  · by_cases same : q = p
    · subst same
      simpa using consistent
    · simpa [same] using invariant.consistent q

theorem TimedInvariant.view_step
    (invariant : TimedInvariant round ⟨memory, control⟩)
    {memory' : BarrierMemory N} (act : BarrierAct) {process : BarrierProcess}
    (inTime : ∀ timeout barPhase, (control p).view.pc = .spin timeout barPhase →
      0 < timeout)
    (moved : BarrierProgram p memory (control p).view act memory' process) :
    ∃ round', BarrierInvariant round'
      ⟨memory', Function.update (fun q => (control q).view) p process⟩ := by
  have step : BarrierStep (viewConfig ⟨memory, control⟩) (p, act) _ :=
    ⟨inTime, .mk moved⟩
  exact invariant.barrier.step step

theorem TimedInvariant.view_same
    (invariant : TimedInvariant round ⟨memory, control⟩)
    {timed : TimedProcess} (same : timed.view = (control p).view) :
    ∃ round', BarrierInvariant round'
      ⟨memory, Function.update (fun q => (control q).view) p timed.view⟩ := by
  refine ⟨round, ?_⟩
  rw [same, Function.update_eq_self]
  exact invariant.barrier

/-- A process calls the barrier, perhaps again. -/
theorem TimedInvariant.call (invariant : TimedInvariant round ⟨memory, control⟩)
    {entered returned : Nat} (timeout : Int)
    (outside : (control p).process = ⟨.outside, entered, returned⟩)
    (waits : ∀ flips, (control p).arrivedAt = some flips →
      flips < memory.flips.length) :
    ∃ round', TimedInvariant round' ⟨memory, Function.update control p
      ((control p).note memory.flips.length (.call timeout)
        ⟨.readPhase timeout, entered + 1, returned⟩)⟩ := by
  have fits := invariant.barrier.fits p
  have consistent := invariant.consistent p
  have flips := invariant.flips_eq
  simp only [viewConfig] at fits
  have counts : entered = round ∧ returned = round := by
    cases gaveUp : (control p).abandoned with
    | none =>
        simpa [TimedProcess.view, gaveUp, outside, BarrierPc.patient,
          BarrierProcess.Fits] using fits
    | some barPhase =>
        obtain ⟨positive, arrived, leftCall⟩ :=
          consistent.gaveUp barPhase gaveUp
        have returnedAll : returned = entered := by
          simpa [outside] using leftCall
        have before := waits _ arrived
        simp only [TimedProcess.view, gaveUp, outside,
          BarrierProcess.Fits] at fits positive before
        omega
  obtain ⟨rfl, rfl⟩ := counts
  apply invariant.moves
  · cases gaveUp : (control p).abandoned with
    | none =>
        apply invariant.view_step (.call 1)
        · simp [TimedProcess.view, gaveUp, outside, BarrierPc.patient]
        · simp only [TimedProcess.view, TimedProcess.note, gaveUp, outside,
            BarrierPc.patient]
          exact .call 1
    | some barPhase =>
        refine ⟨_, invariant.barrier.quiet ?_ ?_ rfl ⟨rfl, rfl⟩⟩
        · simp [TimedProcess.note, TimedProcess.view, gaveUp, outside,
            BarrierPc.patient,
            BarrierProcess.isWaiting]
        · simp [TimedProcess.view, gaveUp, BarrierPc.isClosing]
  · constructor
    · have called : (control p).calls = List.range returned := by
        simpa [outside] using consistent.called
      simp [TimedProcess.note, called, flips, List.range_succ]
    · intro _ _ spins
      cases spins
    · intro _ none
      cases none

/-- A process returns from a call that it has finished or given up. -/
theorem TimedInvariant.ret (invariant : TimedInvariant round ⟨memory, control⟩)
    {entered returned : Nat} {retval : Int}
    (done : (control p).process = ⟨.done retval, entered, returned⟩) :
    ∃ round', TimedInvariant round' ⟨memory, Function.update control p
      ((control p).note memory.flips.length
        (.ret retval) ⟨.outside, entered, returned + 1⟩)⟩ := by
  have consistent := invariant.consistent p
  apply invariant.moves
  · cases gaveUp : (control p).abandoned with
    | none =>
        apply invariant.view_step (.ret 1)
        · simp [TimedProcess.view, gaveUp, done, BarrierPc.patient]
        · simp only [TimedProcess.view, TimedProcess.note, gaveUp, done,
            BarrierPc.patient]
          exact .ret 1
    | some barPhase =>
        apply invariant.view_same
        simp [TimedProcess.view, TimedProcess.note, gaveUp, done]
  · constructor
    · simpa [TimedProcess.note, done] using consistent.called
    · intro _ _ spins
      cases spins
    · intro barPhase gaveUp
      obtain ⟨positive, arrived, leftCall⟩ := consistent.gaveUp barPhase gaveUp
      simp only [done, reduceCtorEq, false_and, BarrierPc.done.injEq,
        exists_eq_left',
        false_or] at leftCall positive arrived
      exact ⟨positive, arrived, .inl ⟨rfl, leftCall.2⟩⟩

private theorem EMSbarrier_patient (bufInt32 : ControlBlock) {pc : BarrierPc}
    (notSpin : ∀ timeout barPhase, pc ≠ .spin timeout barPhase)
    (notRace : pc ≠ .race) :
    EMSbarrier bufInt32 pc.patient =
      ((EMSbarrier bufInt32 pc).1, (EMSbarrier bufInt32 pc).2.patient) := by
  cases pc with
  | fetchAdd timeout barPhase =>
      simp only [BarrierPc.patient, EMSbarrier]
      split
      · rfl
      · split <;> rfl
  | spin timeout barPhase => exact absurd rfl (notSpin timeout barPhase)
  | race => exact absurd rfl notRace
  | _ => rfl

/-- One access in the waiting loop. -/
theorem TimedInvariant.spin (invariant : TimedInvariant round ⟨memory, control⟩)
    {entered returned : Nat} {timeout barPhase : Int}
    (spins : (control p).process =
      ⟨.spin timeout barPhase, entered, returned⟩) :
    ∃ round', TimedInvariant round' ⟨memory, Function.update control p
      ((control p).note memory.flips.length .access
        ⟨(EMSbarrier memory.bufInt32 (.spin timeout barPhase)).2, entered,
          returned⟩)⟩ := by
  have fits := invariant.barrier.fits p
  have consistent := invariant.consistent p
  have kept : (control p).abandoned = none := by
    cases gaveUp : (control p).abandoned with
    | none => rfl
    | some barPhase =>
        simpa [spins] using (consistent.gaveUp barPhase gaveUp).2.2
  have arrived : (control p).arrivedAt = some (entered - 1) := by
    simpa [spins] using consistent.waits timeout barPhase (by rw [spins])
  have counts : returned + 1 = entered := by
    simp only [viewConfig, TimedProcess.view, kept, spins, BarrierPc.patient,
      BarrierProcess.Fits] at fits
    omega
  by_cases patience : 0 < timeout
  · by_cases unchanged : barPhase = memory.bufInt32 EMS_CB_BARPHASE
    · apply invariant.moves
      · apply invariant.view_same
        simp [TimedProcess.view, TimedProcess.note, kept, spins, patience,
          unchanged, EMSbarrier,
          BarrierPc.patient]
      · constructor
        · simpa [TimedProcess.note, spins] using consistent.called
        · intro _ _ _
          simpa [TimedProcess.note, spins] using arrived
        · intro _ gaveUp
          simp [TimedProcess.note, spins, patience] at gaveUp
    · apply invariant.moves
      · have moved : BarrierProgram p memory (control p).view .access memory
            ⟨(EMSbarrier memory.bufInt32 (.spin 1 barPhase)).2, entered,
                returned⟩ := by
          simp only [TimedProcess.view, kept, spins, BarrierPc.patient]
          exact .access (by simp) (by simp)
        have left := invariant.view_step .access
          (by simp [TimedProcess.view, kept, spins, BarrierPc.patient]) moved
        simpa [TimedProcess.view, TimedProcess.note, kept, spins, patience,
          unchanged, EMSbarrier,
          BarrierPc.patient, BarrierPc.isFlip] using left
      · constructor
        · simpa [TimedProcess.note, spins] using consistent.called
        · intro _ _ stillSpins
          simp [TimedProcess.note, spins, EMSbarrier, unchanged] at stillSpins
        · intro _ gaveUp
          simp [TimedProcess.note, spins, patience] at gaveUp
  · apply invariant.moves
    · apply invariant.view_same
      have pred : entered - 1 = returned := by omega
      simp [TimedProcess.view, TimedProcess.note, kept, spins, patience,
        BarrierPc.patient, pred]
    · constructor
      · simpa [TimedProcess.note, spins] using consistent.called
      · intro _ _ stillSpins
        simp [TimedProcess.note, spins, EMSbarrier, patience] at stillSpins
      · intro _ gaveUp
        refine ⟨?_, ?_, .inr ⟨timeout, ?_, ?_, ?_⟩⟩
        · simp only [TimedProcess.note, spins]
          omega
        · simpa [TimedProcess.note, spins] using arrived
        · simp [TimedProcess.note, spins, EMSbarrier, patience]
        · omega
        · simpa [TimedProcess.note, spins] using counts

/-- An access outside the waiting loop. -/
theorem TimedInvariant.passes
    (invariant : TimedInvariant round ⟨memory, control⟩)
    {pc : BarrierPc} {entered returned : Nat}
    (inside : (control p).process = ⟨pc, entered, returned⟩)
    (notOutside : pc ≠ .outside) (notDone : ∀ retval, pc ≠ .done retval)
    (notSpin : ∀ timeout barPhase, pc ≠ .spin timeout barPhase) :
    ∃ round', TimedInvariant round'
      ⟨⟨(EMSbarrier memory.bufInt32 pc).1,
          if pc.isFlip then memory.flips ++ [(p, entered)] else memory.flips⟩,
        Function.update control p ((control p).note memory.flips.length .access
          ⟨(EMSbarrier memory.bufInt32 pc).2, entered, returned⟩)⟩ := by
  have fits := invariant.barrier.fits p
  have consistent := invariant.consistent p
  have flips := invariant.flips_eq
  have kept : (control p).abandoned = none := by
    cases gaveUp : (control p).abandoned with
    | none => rfl
    | some barPhase =>
        obtain ⟨-, -, leftCall | ⟨retval, left, -⟩⟩ :=
          consistent.gaveUp barPhase gaveUp
        · exact absurd (by simpa [inside] using leftCall.1) notOutside
        · exact absurd (by simpa [inside] using left) (notDone retval)
  have view : (control p).view = ⟨pc.patient, entered, returned⟩ := by
    simp [TimedProcess.view, kept, inside]
  have notRace : pc ≠ .race := by
    rintro rfl
    simp [viewConfig, view, BarrierPc.patient, BarrierProcess.Fits] at fits
  -- only an arrival is noted, and only an arrival leads to the waiting loop
  have noted : ∃ arrivedAt, (control p).note memory.flips.length .access
      ⟨(EMSbarrier memory.bufInt32 pc).2, entered, returned⟩ =
        ⟨⟨(EMSbarrier memory.bufInt32 pc).2, entered, returned⟩, none,
          (control p).calls,
          arrivedAt⟩ ∧
      ∀ timeout barPhase, (EMSbarrier memory.bufInt32 pc).2 =
        .spin timeout barPhase →
        arrivedAt = some (entered - 1) := by
    cases pc with
    | spin timeout barPhase => exact absurd rfl (notSpin timeout barPhase)
    | fetchAdd timeout barPhase =>
        refine ⟨some
          memory.flips.length, by simp [TimedProcess.note, inside, kept], ?_⟩
        intro _ _ _
        simp only [viewConfig, view, BarrierPc.patient,
          BarrierProcess.Fits] at fits
        simp only [Option.some.injEq]
        omega
    | _ =>
        exact ⟨(control p).arrivedAt, by simp [TimedProcess.note, inside, kept],
        by simp [EMSbarrier]⟩
  obtain ⟨arrivedAt, noted, arrives⟩ := noted
  rw [noted]
  apply invariant.moves
  · have patient := EMSbarrier_patient memory.bufInt32 notSpin notRace
    have sameFlip : pc.patient.isFlip = pc.isFlip := by
      cases pc <;> rfl
    have stepped :=
      @BarrierProgram.access _ p memory pc.patient entered returned
      (by cases pc <;> simp_all [BarrierPc.patient])
      (by cases pc <;> simp_all [BarrierPc.patient])
    rw [patient, sameFlip, ← view] at stepped
    apply invariant.view_step .access _ stepped
    intro timeout barPhase spins
    rw [view] at spins
    cases pc <;> simp_all [BarrierPc.patient]
  · constructor
    · simpa [inside] using consistent.called
    · exact arrives
    · intro _ gaveUp
      cases gaveUp

end Steps

/-- A step keeps the invariant when callers wait for the phase to change. -/
theorem TimedInvariant.step {N round : Nat} {config next : TimedConfig N}
    {label : Fin N × BarrierAct} (invariant : TimedInvariant round config)
    (step : TimedStep true config label next) :
    ∃ round', TimedInvariant round' next := by
  obtain ⟨careful, step⟩ := step
  obtain ⟨memory, control⟩ := config
  cases step with
  | @mk p act memory' timed moved =>
      obtain ⟨moved⟩ := moved
      generalize before : (control p).process = process at moved
      cases moved with
      | call timeout =>
          exact invariant.call timeout before (careful rfl timeout rfl)
      | ret retval => exact invariant.ret before
      | @access pc entered returned notOutside notDone =>
          by_cases spins : ∃ timeout barPhase, pc = .spin timeout barPhase
          · obtain ⟨timeout, barPhase, rfl⟩ := spins
            exact invariant.spin before
          · exact invariant.passes before notOutside notDone
              fun timeout barPhase same => spins ⟨timeout, barPhase, same⟩

private theorem initialTimed_invariant {N : Nat} (positive : 0 < N) :
    TimedInvariant 0 (initialTimed N) := by
  constructor
  · exact initialBarrier_invariant positive
  · intro p
    constructor
    · rfl
    · intro _ _ spins
      cases spins
    · intro _ gaveUp
      cases gaveUp

private theorem timed_invariant {N : Nat} (positive : 0 < N)
    {config : TimedConfig N}
    {trace : List (Fin N × BarrierAct)}
    (run : Run (TimedStep true) (initialTimed N) trace config) :
    ∃ round, TimedInvariant round config := by
  apply run.invariant (fun config => ∃ round, TimedInvariant round config)
  · intro state label next invariant step
    obtain ⟨round, invariant⟩ := invariant
    exact invariant.step step
  · exact ⟨0, initialTimed_invariant positive⟩

/-! ## Success is mutual -/

/-- Everybody has been called in each round that is over. -/
theorem TimedInvariant.entered {N round : Nat} {config : TimedConfig N}
    (invariant : TimedInvariant round config) (q : Fin N) :
    round ≤ (config.control q).process.entered := by
  have fits := invariant.barrier.fits q
  have sameEntered : ((viewConfig config).control q).entered =
      (config.control q).process.entered := by
    simp only [viewConfig, TimedProcess.view]
    split <;> rfl
  rw [← sameEntered]
  cases pcEq : ((viewConfig config).control q).pc <;>
    simp only [BarrierProcess.Fits, pcEq] at fits <;> omega

theorem TimedInvariant.success {N round : Nat} {config : TimedConfig N}
    (invariant : TimedInvariant round config) : SuccessIsMutual config := by
  intro p retval done success
  have consistent := invariant.consistent p
  have fits := invariant.barrier.fits p
  have kept : (config.control p).abandoned = none := by
    cases gaveUp : (config.control p).abandoned with
    | none => rfl
    | some barPhase =>
        have left := (consistent.gaveUp barPhase gaveUp).2.2
        simp only [done, reduceCtorEq, false_and, BarrierPc.done.injEq,
          exists_eq_left',
          false_or] at left
        omega
  have counts : (config.control p).process.entered = round ∧
      (config.control p).process.returned + 1 = round := by
    simpa [viewConfig, TimedProcess.view, kept, done, BarrierPc.patient,
      BarrierProcess.Fits] using fits
  have flips : config.shared.flips.length = round := invariant.barrier.round_eq
  refine ⟨round - 1, ?_, by omega, fun q => ?_⟩
  · have last : round = (round - 1) + 1 := by omega
    rw [consistent.called, counts.1, last, List.range_succ]
    simp
  · rw [(invariant.consistent q).called, List.mem_range]
    have entered := invariant.entered q
    omega

theorem EMSbarrier_timeout {N : Nat} (several : 2 ≤ N) {config : TimedConfig N}
    {trace : List (Fin N × BarrierAct)}
    (run : Run (TimedStep true) (initialTimed N) trace config) :
    SuccessIsMutual config := by
  obtain ⟨round, invariant⟩ := timed_invariant (by omega) run
  exact invariant.success

/-! ## Runs with a call that gives up -/

def timedNext {N : Nat} (p : Fin N) (memory : BarrierMemory N)
    (timed : TimedProcess)
    (act : BarrierAct) : Option (BarrierMemory N × TimedProcess) :=
  (barrierNext p memory timed.process act).map fun moved =>
    (moved.1, timed.note memory.flips.length act moved.2)

theorem timedNext_program {N : Nat} {p : Fin N}
    {memory memory' : BarrierMemory N}
    {timed timed' : TimedProcess} {act : BarrierAct}
    (taken : timedNext p memory timed act = some (memory', timed')) :
    TimedProgram p memory timed act memory' timed' := by
  obtain ⟨moved, next, same⟩ := Option.map_eq_some_iff.mp taken
  cases same
  exact .mk (barrierNext_program next)

def waitsForPhase {N : Nat} (config : TimedConfig N)
    (label : Fin N × BarrierAct) : Bool :=
  match label.2, (config.control label.1).arrivedAt with
  | .call _, some flips => flips < config.shared.flips.length
  | _, _ => true

private theorem waitsForPhase_of {N : Nat} {config : TimedConfig N}
    {label : Fin N × BarrierAct}
    (checked : waitsForPhase config label = true) :
    true = true → WaitsForPhase config label := by
  intro _ timeout isCall flips arrived
  simpa [waitsForPhase, isCall, arrived] using checked

/-- Process 0 gives up its first call.  It calls again when process 1 has been
counted and has changed the phase, and both meet in the second round. -/
def abandonedArrival : List (Fin 2 × BarrierAct) :=
  [(0, .call 1), (0, .access), (0, .access), (0, .access), (0, .access),
    (0, .ret 0),
    (1, .call 9), (1, .access), (1, .access), (1, .access), (1, .access),
    (1, .ret 9),
    (0, .call 9), (0, .access), (0, .access),
    (1, .call 9), (1, .access), (1, .access), (1, .access), (1, .access)]

theorem EMSbarrier_timeout_abandoned :
    ∃ config, Run (TimedStep true) (initialTimed 2) abandonedArrival config ∧
      (config.control 0).process.returned = 1 ∧
        (config.control 1).process.pc = .done 9 ∧
      SuccessIsMutual config := by
  obtain ⟨config, run, checked⟩ :=
    exists_run timedNext waitsForPhase timedNext_program
    waitsForPhase_of (initialTimed 2) abandonedArrival
    (fun config => (config.control 0).process.returned = 1 ∧
      (config.control 1).process.pc = .done 9) (by decide)
  obtain ⟨returned, done⟩ := of_decide_eq_true checked
  exact ⟨config, run, returned, done, EMSbarrier_timeout (by decide) run⟩

/-- Process 0 gives up its first call and succeeds with its second, while
process 1 has not called at all. -/
def repeatedArrival : List (Fin 2 × BarrierAct) :=
  [(0, .call 1), (0, .access), (0, .access), (0, .access), (0, .access),
    (0, .ret 0),
    (0, .call 5), (0, .access), (0, .access), (0, .access), (0, .access)]

theorem EMSbarrier_timeout_counted_twice :
    ∃ config, Run (TimedStep false) (initialTimed 2) repeatedArrival config ∧
      (config.control 0).process.pc = .done 5 ∧ (config.control 1).calls = [] ∧
      ¬ SuccessIsMutual config := by
  have careless : ∀ {config : TimedConfig 2} {label : Fin 2 × BarrierAct},
      true = true → false = true → WaitsForPhase config label :=
        fun _ wrong => by cases wrong
  obtain ⟨config, run, checked⟩ :=
    exists_run timedNext (fun _ _ => true) timedNext_program
    careless (initialTimed 2) repeatedArrival
    (fun config => (config.control 0).process.pc = .done 5 ∧
      (config.control 1).calls = [])
    (by decide)
  obtain ⟨finished, absent⟩ := of_decide_eq_true checked
  refine ⟨config, run, finished, absent, fun success => ?_⟩
  obtain ⟨since, -, -, everybody⟩ := success 0 5 finished (by decide)
  simpa [absent] using everybody 1

end EMS
