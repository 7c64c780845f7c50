import EMS.Barrier
import EMS.BulkSynchronous

/-!
# Programs that call the global barrier

The processes run code and call `EMSbarrier`, which works in the control block
that the code may use as well.  As long as no call runs out of its timeout, such
a program is a bulk synchronous program: its code cannot tell the accesses of
`EMSbarrier` from a barrier that releases everybody at once.
-/

namespace EMS

open Interleaving BulkSynchronous

/-! ## Programs and their steps -/

/-- The words that `EMSbarrier` stores to. -/
def BarrierWord (word : Int) : Prop :=
  word = EMS_CB_NBAR0 ∨ word = EMS_CB_NBAR1 ∨ word = EMS_CB_BARPHASE

instance (word : Int) : Decidable (BarrierWord word) :=
  inferInstanceAs (Decidable (_ ∨ _))

/-- The code between the calls of the barrier.  It may use the control block,
but leaves the words alone that the barrier rests on. -/
structure BarrierClient (N : Nat) (σ ℓ α : Type) where
  code : Fin N → ControlBlock × σ → ℓ → α → ControlBlock × σ → ℓ → Prop
  atBarrier : ℓ → Prop
  resume : ℓ → ℓ
  apart : ∀ {p memory state act memory' state'},
    code p memory state act memory' state' →
    ∀ word, word ≤ 3 → memory'.1 word = memory.1 word

structure CollectiveMemory (N : Nat) (σ : Type) where
  barrier : BarrierMemory N
  rest : σ

structure CollectiveProcess (ℓ : Type) where
  barrier : BarrierProcess
  state : ℓ

inductive CollectiveAct (α : Type) where
  | code (act : α)
  | barrier (act : BarrierAct)

variable {N : Nat} {σ ℓ α : Type}

/-- The state of the code after a step of the barrier. -/
def BarrierClient.proceed (client : BarrierClient N σ ℓ α) (act : BarrierAct)
    (state : ℓ) : ℓ :=
  match act with
  | .ret _ => client.resume state
  | _ => state

/-- The steps of one process: a step of its code, when it is not in the barrier,
or a step of the barrier. -/
inductive CollectiveProgram (client : BarrierClient N σ ℓ α) (p : Fin N) :
    CollectiveMemory N σ → CollectiveProcess ℓ → CollectiveAct α →
      CollectiveMemory N σ → CollectiveProcess ℓ → Prop where
  | code {memory : BarrierMemory N} {rest rest' : σ} {bufInt32 : ControlBlock}
      {process : BarrierProcess} {state state' : ℓ} {act : α} :
      process.pc = .outside →
      client.code p (memory.bufInt32, rest) state act (bufInt32, rest') state' →
      CollectiveProgram client p ⟨memory, rest⟩ ⟨process, state⟩ (.code act)
        ⟨⟨bufInt32, memory.flips⟩, rest'⟩ ⟨process, state'⟩
  | barrier {memory memory' : BarrierMemory N} {rest : σ}
      {process process' : BarrierProcess}
      {state : ℓ} {act : BarrierAct} :
      BarrierProgram p memory process act memory' process' →
      (∀ timeout, act = .call timeout → client.atBarrier state) →
      CollectiveProgram client p ⟨memory, rest⟩ ⟨process, state⟩ (.barrier act)
        ⟨memory', rest⟩ ⟨process', client.proceed act state⟩

abbrev CollectiveConfig (N : Nat) (σ ℓ : Type) :=
  Config (Fin N) (CollectiveMemory N σ) (CollectiveProcess ℓ)

/-- What the barrier sees of a program. -/
def CollectiveConfig.barrier (config : CollectiveConfig N σ ℓ) :
    Config (Fin N) (BarrierMemory N) BarrierProcess :=
  ⟨config.shared.barrier, fun p => (config.control p).barrier⟩

/-- Any process takes any of its steps, none of them a timeout of the
barrier. -/
def CollectiveStep (client : BarrierClient N σ ℓ α)
    (config : CollectiveConfig N σ ℓ)
    (label : Fin N × CollectiveAct α) (next : CollectiveConfig N σ ℓ) : Prop :=
  InTime config.barrier (label.1, .access) ∧
    Step (CollectiveProgram client) config label next

/-- Nobody has called the barrier yet. -/
def initialCollective (N : Nat) (rest : σ) (start : Fin N → ℓ) :
    CollectiveConfig N σ ℓ :=
  ⟨⟨⟨initialControlBlock N, []⟩, rest⟩, fun p => ⟨⟨.outside, 0, 0⟩, start p⟩⟩

/-! ## The bulk synchronous program -/

/-- The accesses of `EMSbarrier` as the code sees them. -/
def BarrierClient.client (client : BarrierClient N σ ℓ α) :
    Client (Fin N) (ControlBlock × σ) ℓ α where
  code := client.code
  atBarrier := client.atBarrier
  resume := client.resume
  scratch memory memory' :=
    memory'.2 = memory.2 ∧ ∀ word, ¬ BarrierWord word → memory'.1 word =
      memory.1 word

/-- Where a process is after `round` releases. -/
def BarrierProcess.status (round : Nat) (process : BarrierProcess) : Status :=
  match process.pc with
  | .outside => .running
  | .spin _ _ => if process.entered = round + 1 then .waiting else .released
  | .done _ => .released
  | _ => .waiting

def CollectiveProcess.member (round : Nat)
    (process : CollectiveProcess ℓ) : Member ℓ :=
  ⟨process.barrier.status round, process.barrier.returned, process.state⟩

/-- A program seen as bulk synchronous. -/
def CollectiveConfig.rounds (config : CollectiveConfig N σ ℓ) :
    State (Fin N) (ControlBlock × σ) ℓ :=
  ⟨(config.shared.barrier.bufInt32, config.shared.rest),
    fun p => (config.control p).member config.shared.barrier.flips.length,
    config.shared.barrier.flips.length⟩

@[simp] theorem rounds_initial (rest : σ) (start : Fin N → ℓ) :
    (initialCollective N rest start).rounds = State.initial
    (initialControlBlock N, rest) start :=
  rfl

/-! ## Refinement -/

section Words

variable {bufInt32 : ControlBlock} {word : Int}

theorem EMSbarrier_words {round : Nat} {process : BarrierProcess}
    (fits : process.Fits round)
    (other : ¬ BarrierWord word) : (EMSbarrier bufInt32 process.pc).1 word =
      bufInt32 word := by
  have phases := phaseOf_cases round
  simp only [BarrierWord, EMS_CB_NBAR0, EMS_CB_NBAR1, EMS_CB_BARPHASE] at other
  obtain ⟨pc, entered, returned⟩ := process
  cases pc with
  | fetchAdd timeout barPhase | resetCount timeout barPhase =>
      obtain ⟨-, -, rfl⟩ := fits
      apply Function.update_of_ne
      simp only [EMS_CB_NBAR0]
      omega
  | flipPhase timeout barPhase =>
      apply Function.update_of_ne
      simp only [EMS_CB_BARPHASE]
      omega
  | _ => rfl

/-- The barrier only looks at its own words. -/
theorem BarrierInvariant.congr {round : Nat} {memory : BarrierMemory N}
    {control : Fin N → BarrierProcess}
    (invariant : BarrierInvariant round ⟨memory, control⟩)
    (same : ∀ word, word ≤ 3 → bufInt32 word = memory.bufInt32 word) :
    BarrierInvariant round ⟨{ memory with bufInt32 := bufInt32 }, control⟩ := by
  have phases := phaseOf_cases round
  have counter : bufInt32 (EMS_CB_NBAR0 + phaseOf round) =
      memory.bufInt32 (EMS_CB_NBAR0 + phaseOf round) := by
    apply same
    simp only [EMS_CB_NBAR0]
    omega
  have spare : bufInt32 (EMS_CB_NBAR0 + phaseOf (round + 1)) =
      memory.bufInt32 (EMS_CB_NBAR0 + phaseOf (round + 1)) := by
    apply same
    simp only [EMS_CB_NBAR0]
    omega
  refine ⟨invariant.rounds, ?_, ?_, spare.trans invariant.spare, ?_, ?_,
    invariant.fits,
    invariant.closing, invariant.complete⟩
  · exact (same _ (by decide)).trans invariant.threads
  · exact (same _ (by decide)).trans invariant.phase
  · exact fun nobody => counter.trans (invariant.count nobody)
  · exact fun p flips => counter.trans (invariant.restored p flips)

/-- Only the store of the phase counts as a flip. -/
theorem BarrierProgram.flips_eq {p : Fin N} {memory memory' : BarrierMemory N}
    {process process' : BarrierProcess} {act : BarrierAct}
    (moved : BarrierProgram p memory process act memory' process') :
    memory'.flips = memory.flips ∨ act = .access ∧ process.pc.isFlip = true ∧
      memory'.flips.length = memory.flips.length + 1 := by
  cases moved with
  | call => exact .inl rfl
  | ret => exact .inl rfl
  | @access pc entered =>
      cases isFlip : pc.isFlip
      · exact .inl rfl
      · exact .inr ⟨rfl, rfl, List.length_append⟩

end Words

/-! ## Refinement -/

section Refinement

variable {client : BarrierClient N σ ℓ α}

theorem barrier_control_update
    (control : Fin N → CollectiveProcess ℓ) (p : Fin N)
    (process : CollectiveProcess ℓ) :
    (fun q => (Function.update control p process q).barrier) =
      Function.update (fun q => (control q).barrier) p process.barrier := by
  funext q
  by_cases same : q = p
  · subst same
    simp
  · simp [same]

theorem members_update (control : Fin N → CollectiveProcess ℓ) (p : Fin N)
    (process : CollectiveProcess ℓ) (round : Nat) :
    (fun q => (Function.update control p process q).member round) =
      Function.update (fun q => (control q).member round) p
        (process.member round) := by
  funext q
  by_cases same : q = p
  · subst same
    simp
  · simp [same]

/-- One step keeps the invariant of the barrier. -/
theorem CollectiveStep.invariant {config next : CollectiveConfig N σ ℓ}
    {label : Fin N × CollectiveAct α}
    (invariant : BarrierInvariant config.shared.barrier.flips.length
      config.barrier)
    (step : CollectiveStep client config label next) :
    BarrierInvariant next.shared.barrier.flips.length next.barrier := by
  obtain ⟨inTime, step⟩ := step
  obtain ⟨⟨barrier, rest⟩, control⟩ := config
  cases step with
  | @mk p act memory' process moved =>
      simp only at moved
      generalize here : control p = before at moved
      cases moved with
      | @code _ _ rest' bufInt32 process state state' act outside moves =>
          have same : Function.update (fun q => (control q).barrier) p process =
              fun q => (control q).barrier := by
            apply Function.update_eq_self_iff.mpr
            rw [here]
          simp only [CollectiveConfig.barrier, barrier_control_update, same]
          exact BarrierInvariant.congr invariant (client.apart moves)
      | @barrier _ barrier' _ process process' state act moves _ =>
          have barrierStep :
              BarrierStep (CollectiveConfig.barrier ⟨⟨barrier, rest⟩, control⟩)
              (p, act) ⟨barrier',
                  Function.update (fun q => (control q).barrier) p
                  process'⟩ := by
            refine ⟨inTime, .mk ?_⟩
            simp only [CollectiveConfig.barrier, here]
            exact moves
          obtain ⟨round', after⟩ := invariant.step barrierStep
          have roundEq := after.round_eq
          simp only [flipCount] at roundEq
          subst roundEq
          simpa only [CollectiveConfig.barrier,
            barrier_control_update] using after

/-- Only the store of the phase lets a process go on. -/
theorem BarrierProcess.status_access {bufInt32 : ControlBlock} {round : Nat}
    {process : BarrierProcess} (fits : process.Fits round)
    (phase : bufInt32 EMS_CB_BARPHASE = phaseOf round)
    (inTime : ∀ timeout barPhase, process.pc = .spin timeout barPhase →
      0 < timeout)
    (noFlip : process.pc.isFlip = false) (notOutside : process.pc ≠ .outside)
    (notDone : ∀ retval, process.pc ≠ .done retval) :
    BarrierProcess.status round
        ⟨(EMSbarrier bufInt32 process.pc).2, process.entered,
          process.returned⟩ =
      process.status round := by
  obtain ⟨pc, entered, returned⟩ := process
  cases pc with
  | outside => exact absurd rfl notOutside
  | readPhase timeout => rfl
  | fetchAdd timeout barPhase =>
      obtain ⟨arrived, -, -⟩ := fits
      simp only at arrived
      simp only [EMSbarrier, BarrierProcess.status]
      split_ifs <;> simp
  | race => exact fits.elim
  | resetCount timeout barPhase => rfl
  | flipPhase timeout barPhase => cases noFlip
  | spin timeout barPhase =>
      have positive := inTime timeout barPhase rfl
      rcases fits with ⟨arrived, -, held⟩ | ⟨left, -, changed⟩
      · simp only at arrived held
        simp [EMSbarrier, BarrierProcess.status, arrived, held, phase, positive]
      · simp only at left changed
        simp [EMSbarrier, BarrierProcess.status, left, changed, phase]
  | done retval => exact absurd rfl (notDone retval)

theorem BarrierInvariant.status_flip {round : Nat} {memory : BarrierMemory N}
    {control : Fin N → BarrierProcess}
    (invariant : BarrierInvariant round ⟨memory, control⟩)
    {p : Fin N} (isFlip : (control p).pc.isFlip = true) (q : Fin N) :
    (control q).status round = .waiting ∧
      (q ≠ p → (control q).status (round + 1) = .released) := by
  have closing : (control p).pc.isClosing = true := by
    cases pcEq : (control p).pc <;> simp_all [BarrierPc.isFlip,
      BarrierPc.isClosing]
  by_cases same : q = p
  · subst same
    refine ⟨?_, fun different => absurd rfl different⟩
    cases pcEq : (control q).pc <;> simp_all [BarrierPc.isFlip,
      BarrierProcess.status]
  · have waits := invariant.closing p closing q same
    cases pcEq : (control q).pc <;> simp_all [BarrierProcess.isWaiting,
      BarrierProcess.status]

/-- A step of a program is none, one or two steps of a bulk synchronous one. -/
theorem CollectiveStep.rounds {config next : CollectiveConfig N σ ℓ}
    {label : Fin N × CollectiveAct α}
    (invariant : BarrierInvariant config.shared.barrier.flips.length
      config.barrier)
    (step : CollectiveStep client config label next) :
    ∃ labels, Run client.client.Step config.rounds labels next.rounds := by
  obtain ⟨inTime, step⟩ := step
  obtain ⟨⟨barrier, rest⟩, control⟩ := config
  cases step with
  | @mk p act memory' process moved =>
      have fits := invariant.fits p
      have timely := inTime
      simp only at moved
      simp only [CollectiveConfig.barrier, InTime] at fits timely
      generalize here : control p = before at moved fits timely
      cases moved with
      | @code _ _ rest' bufInt32 process state state' act outside moves =>
          refine ⟨[.code p act], .cons ?_ .nil⟩
          simp only [CollectiveConfig.rounds, members_update]
          have running : CollectiveProcess.member barrier.flips.length
              ⟨process, state⟩ =
              ⟨.running, process.returned, state⟩ := by
            simp [CollectiveProcess.member, BarrierProcess.status, outside]
          have running' : CollectiveProcess.member barrier.flips.length
              ⟨process, state'⟩ =
              ⟨.running, process.returned, state'⟩ := by
            simp [CollectiveProcess.member, BarrierProcess.status, outside]
          rw [running']
          refine .code ?_ moves
          rw [here, running]
      | @barrier _ barrier' _ process process' state act moves calls =>
          cases moves with
          | @call entered returned timeout =>
              refine ⟨[.arrive p], .cons ?_ .nil⟩
              simp only [CollectiveConfig.rounds, members_update]
              refine .arrive ?_ (calls timeout rfl)
              rw [here]
              rfl
          | @ret entered returned retval =>
              refine ⟨[.leave p], .cons ?_ .nil⟩
              simp only [CollectiveConfig.rounds, members_update]
              refine .leave ?_
              rw [here]
              rfl
          | @access pc entered returned notOutside notDone =>
              have scratch : ∀ memory : ControlBlock × σ,
                  memory = (barrier.bufInt32, rest) →
                  client.client.scratch memory
                      ((EMSbarrier barrier.bufInt32 pc).1, rest) := by
                rintro _ rfl
                exact ⟨rfl, fun word other => EMSbarrier_words fits other⟩
              cases noFlip : pc.isFlip
              case false =>
                refine ⟨[.scratch], .cons ?_ .nil⟩
                have same :=
                  BarrierProcess.status_access fits invariant.phase
                    timely noFlip
                  notOutside notDone
                have still : Function.update
                    (fun q => (control q).member barrier.flips.length) p
                    (CollectiveProcess.member barrier.flips.length
                      ⟨⟨(EMSbarrier barrier.bufInt32 pc).2, entered, returned⟩,
                        state⟩) =
                    fun q => (control q).member barrier.flips.length := by
                  apply Function.update_eq_self_iff.mpr
                  simp only [here, CollectiveProcess.member,
                    Member.mk.injEq, and_true]
                  exact same
                simp only [CollectiveConfig.rounds, members_update,
                  Bool.false_eq_true, if_false,
                  BarrierClient.proceed, still]
                exact .scratch (scratch _ rfl)
              case true =>
                have isFlip : (control p).barrier.pc.isFlip = true := by
                  rw [here]
                  exact noFlip
                have waits := invariant.status_flip isFlip
                refine ⟨[.scratch, .release],
                  .cons (.scratch (scratch _ rfl)) (.cons ?_ .nil)⟩
                simp only [CollectiveConfig.rounds, if_true, List.length_append,
                  List.length_singleton]
                have released : (fun q => (Function.update control p
                    ⟨⟨(EMSbarrier barrier.bufInt32 pc).2, entered, returned⟩,
                      state⟩ q).member
                      (barrier.flips.length + 1)) =
                    fun q => { (control q).member barrier.flips.length with
                      status := .released } := by
                  funext q
                  by_cases same : q = p
                  · subst same
                    obtain ⟨timeout, barPhase, rfl⟩ : ∃ timeout barPhase,
                        pc = .flipPhase timeout barPhase := by
                      cases pc <;> simp_all [BarrierPc.isFlip]
                    simp [CollectiveProcess.member, EMSbarrier,
                      BarrierProcess.status, here]
                  · have after := (waits q).2 same
                    simp only [ne_eq, same, not_false_eq_true,
                      Function.update_of_ne,
                      CollectiveProcess.member, after]
                simp only [BarrierClient.proceed, released]
                apply Client.Step.release
                intro q
                exact (waits q).1

theorem collective_barrier (positive : 0 < N) {rest : σ} {start : Fin N → ℓ}
    {trace : List (Fin N × CollectiveAct α)} {config : CollectiveConfig N σ ℓ}
    (run : Run (CollectiveStep client)
      (initialCollective N rest start) trace config) :
    BarrierInvariant config.shared.barrier.flips.length config.barrier :=
  run.invariant (fun config =>
    BarrierInvariant config.shared.barrier.flips.length config.barrier)
    (fun _ _ _ invariant step => step.invariant invariant)
      (initialBarrier_invariant positive)

/-- A run of a program is a run of a bulk synchronous one. -/
theorem collective_rounds (positive : 0 < N) {rest : σ} {start : Fin N → ℓ}
    {trace : List (Fin N × CollectiveAct α)} {config : CollectiveConfig N σ ℓ}
    (run : Run (CollectiveStep client)
      (initialCollective N rest start) trace config) :
    ∃ labels, Run client.client.Step
      (State.initial (initialControlBlock N, rest) start) labels
      config.rounds := by
  induction run with
  | nil => exact ⟨[], .nil⟩
  | snoc before step induction =>
      obtain ⟨labels, abstractRun⟩ := induction
      obtain ⟨more, after⟩ := step.rounds (collective_barrier positive before)
      exact ⟨labels ++ more, abstractRun.append after⟩

end Refinement

/-! ## Schedules -/

section Schedules

variable (client : BarrierClient N σ ℓ α)
  (next : Fin N → ControlBlock × σ → ℓ → α → Option ((ControlBlock × σ) × ℓ))
  (atBarrier : ℓ → Bool)

/-- The step that a process takes, where it can take it. -/
def collectiveNext (p : Fin N) (memory : CollectiveMemory N σ)
    (process : CollectiveProcess ℓ) :
    CollectiveAct α → Option (CollectiveMemory N σ × CollectiveProcess ℓ)
  | .code act =>
      if process.barrier.pc = .outside then
        (next p (memory.barrier.bufInt32, memory.rest) process.state act).map
            fun moved =>
          (⟨⟨moved.1.1, memory.barrier.flips⟩, moved.1.2⟩,
            ⟨process.barrier, moved.2⟩)
      else none
  | .barrier act =>
      if process.barrier.pc = .outside → atBarrier process.state = true then
        (barrierNext p memory.barrier process.barrier act).map fun moved =>
          (⟨moved.1, memory.rest⟩, ⟨moved.2, client.proceed act process.state⟩)
      else none

variable {client next atBarrier}

private theorem collectiveNext_program
    (takes : ∀ {p memory state act memory' state'},
      next p memory state act = some (memory', state') →
        client.code p memory state act memory' state')
    (calls : ∀ {state}, atBarrier state = true → client.atBarrier state)
    {p : Fin N} {memory memory' : CollectiveMemory N σ}
    {process process' : CollectiveProcess ℓ}
    {act : CollectiveAct α}
    (taken : collectiveNext client next atBarrier p memory process act =
      some (memory', process')) :
    CollectiveProgram client p memory process act memory' process' := by
  obtain ⟨barrier, rest⟩ := memory
  obtain ⟨process, state⟩ := process
  cases act with
  | code act =>
      simp only [collectiveNext, Option.ite_none_right_eq_some,
        Option.map_eq_some_iff] at taken
      obtain ⟨outside, ⟨moved, first, same⟩⟩ := taken
      cases same
      exact .code outside (takes first)
  | barrier act =>
      simp only [collectiveNext, Option.ite_none_right_eq_some,
        Option.map_eq_some_iff] at taken
      obtain ⟨there, ⟨⟨barrier', process'⟩, first, same⟩⟩ := taken
      cases same
      have moves := barrierNext_program first
      refine .barrier moves ?_
      rintro timeout rfl
      cases moves with
      | call => exact calls (there rfl)

variable (client next atBarrier) in
/-- A schedule that can be played without a timeout gives a run. -/
theorem exists_collective
    (takes : ∀ {p memory state act memory' state'},
      next p memory state act = some (memory', state') →
        client.code p memory state act memory' state')
    (calls : ∀ {state}, atBarrier state = true → client.atBarrier state)
    (config : CollectiveConfig N σ ℓ)
    (schedule : List (Fin N × CollectiveAct α))
    (check : CollectiveConfig N σ ℓ → Bool)
    (checked : (playSteps (collectiveNext client next atBarrier)
      (fun config label => inTime (CollectiveConfig.barrier config)
        (label.1, .access)) config
        schedule).any check = true) :
    ∃ final, Run (CollectiveStep client) config schedule final ∧
      check final = true :=
  exists_run (collectiveNext client next atBarrier)
    (fun config label =>
      inTime (CollectiveConfig.barrier config) (label.1, .access))
    (collectiveNext_program takes calls) inTime_of config schedule check checked

end Schedules

end EMS
