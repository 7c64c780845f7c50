import EMS.BarrierRounds

/-!
# Progress of programs that call the global barrier

The code between the barriers brings every process to the next barrier, as far
as it need not wait for others.  Then, in a fair run, the barrier lets
everybody pass as often as the program says.
-/

namespace EMS

open Interleaving BulkSynchronous

variable {N : Nat} {σ ℓ α : Type}

/-! ## Fair runs -/

/-- The process can go on without waiting for anybody.  In its code that is as
`ready` says; in the barrier it is, unless it spins and the phase is still the
old one. -/
def CollectiveConfig.urgent (ready : σ → Fin N → ℓ → Prop)
    (config : CollectiveConfig N σ ℓ)
    (p : Fin N) : Prop :=
  match (config.control p).barrier.pc with
  | .outside => ready config.shared.rest p (config.control p).state
  | .spin _ barPhase =>
      config.shared.barrier.bufInt32 EMS_CB_BARPHASE ≠ barPhase
  | _ => True

def CollectiveAct.counts (counts : α → Prop) : CollectiveAct α → Prop
  | .code act => counts act
  | .barrier _ => True

/-- A fair run without timeouts. -/
abbrev FairCollectiveRun (client : BarrierClient N σ ℓ α)
    (ready : σ → Fin N → ℓ → Prop)
    (counts : α → Prop) (future : Nat → CollectiveConfig N σ ℓ) : Prop :=
  FairRun (CollectiveStep client) (CollectiveConfig.urgent ready)
    (CollectiveAct.counts counts) future

/-! ## Members -/

section Members

variable {config : CollectiveConfig N σ ℓ} {p : Fin N}
  {process : BarrierProcess} {state : ℓ}

theorem rounds_member_outside (here : config.control p = ⟨process, state⟩)
    (outside : process.pc = .outside) :
    config.rounds.members p = ⟨.running, process.returned, state⟩ := by
  simp [CollectiveConfig.rounds, CollectiveProcess.member, here,
    BarrierProcess.status, outside]

theorem rounds_member_done (here : config.control p = ⟨process, state⟩)
    {retval : Int}
    (done : process.pc = .done retval) :
    config.rounds.members p = ⟨.released, process.returned, state⟩ := by
  simp [CollectiveConfig.rounds, CollectiveProcess.member, here,
    BarrierProcess.status, done]

end Members

/-! ## The rank of a process -/

/-- The process waits for the flip of the current round. -/
def CollectiveConfig.waits (config : CollectiveConfig N σ ℓ)
    (p : Fin N) : Prop :=
  (config.control p).barrier.isWaiting config.shared.barrier.flips.length = true

theorem CollectiveConfig.waits_member
    {config : CollectiveConfig N σ ℓ} {p : Fin N}
    (waiting : config.waits p) :
    (config.rounds.members p).status = .waiting := by
  unfold CollectiveConfig.waits BarrierProcess.isWaiting at waiting
  simp only [CollectiveConfig.rounds, CollectiveProcess.member,
    BarrierProcess.status]
  cases pcEq : (config.control p).barrier.pc <;> simp_all

/-- Nobody is beyond the round of a process that waits. -/
theorem CollectiveConfig.behind_waiting
    {config : CollectiveConfig N σ ℓ} {p : Fin N}
    (inRound : config.rounds.InRound) (waiting : config.waits p) (q : Fin N) :
    (config.control q).barrier.returned ≤
      (config.control p).barrier.returned := by
  have status := CollectiveConfig.waits_member waiting
  have left : (config.control p).barrier.returned =
      config.shared.barrier.flips.length :=
    (inRound p).left_eq (by simp [status])
  rw [left]
  rcases inRound q with ⟨-, same⟩ | ⟨-, same⟩
  · exact (Nat.le_succ _).trans same.le
  · exact same.le

/-- How far a process is from the end of its part, by the number of barriers
that it has left and by its state. -/
abbrev CollectiveConfig.rank (rank : Fin N → Nat → ℓ → Nat)
    (config : CollectiveConfig N σ ℓ)
    (p : Fin N) : Nat :=
  rank p (config.control p).barrier.returned (config.control p).state

/-- The code between barriers brings the processes nearer to the end of their
parts, and those who stand at the same barrier are all there is to wait for. -/
structure BarrierClient.Advances (client : BarrierClient N σ ℓ α)
    (ready : σ → Fin N → ℓ → Prop) (counts : α → Prop)
    (inv : CollectiveConfig N σ ℓ → Prop)
    (rank : Fin N → Nat → ℓ → Nat) : Prop where
  keeps : ∀ {config label next},
    inv config → CollectiveStep client config label next → inv next
  barrier : ∀ {config}, inv config →
    BarrierInvariant config.shared.barrier.flips.length config.barrier
  code : ∀ {config p process state act bufInt32 rest state'}, inv config →
    config.control p = ⟨process, state⟩ → process.pc = .outside →
    client.code p (config.shared.barrier.bufInt32, config.shared.rest) state act
      (bufInt32, rest) state' →
    (∀ q other, q ≠ p → ready config.shared.rest q other → ready rest q other) ∧
      (rank p process.returned state' < rank p process.returned state ∨
        rank p process.returned state' = rank p process.returned state ∧
          (rank p process.returned state = 0 ∨
            ¬ counts act ∧ (ready config.shared.rest p state →
              ready rest p state')))
  resume : ∀ {config p process state retval}, inv config →
    config.control p = ⟨process, state⟩ → process.pc = .done retval →
    rank p (process.returned + 1) (client.resume state) <
      rank p process.returned state ∨
      rank p process.returned state = 0 ∧
        rank p (process.returned + 1) (client.resume state) = 0
  together : ∀ {config}, inv config →
    (∀ p, config.rank rank p = 0 ∨ config.waits p ∨
      (config.control p).barrier.pc = .outside ∧
        ¬ ready config.shared.rest p (config.control p).state) →
    (∀ p, config.rank rank p = 0) ∨ ∀ p, config.waits p

/-- How many accesses a call of the barrier makes from here on, at most, without
those that only look at the phase. -/
def BarrierPc.steps : BarrierPc → Nat
  | .outside => 7
  | .readPhase _ => 6
  | .fetchAdd _ _ => 5
  | .resetCount _ _ => 4
  | .flipPhase _ _ => 3
  | .race | .spin _ _ => 2
  | .done _ => 1

theorem BarrierPc.steps_bounds (pc : BarrierPc) :
    0 < pc.steps ∧ pc.steps ≤ 7 := by
  cases pc <;> simp [steps]

/-- The distance of a process from the end of its part. -/
def CollectiveConfig.away (rank : Fin N → Nat → ℓ → Nat)
    (config : CollectiveConfig N σ ℓ)
    (p : Fin N) : Nat :=
  if config.rank rank p = 0 then 0
  else 8 * config.rank rank p + (config.control p).barrier.pc.steps

def CollectiveConfig.distance (rank : Fin N → Nat → ℓ → Nat)
    (config : CollectiveConfig N σ ℓ) :
    Nat :=
  ∑ p, config.away rank p

section Distance

variable {rank : Fin N → Nat → ℓ → Nat}
  {config next : CollectiveConfig N σ ℓ} {p : Fin N}

theorem CollectiveConfig.away_of_same {q : Fin N}
    (same : next.control q = config.control q) :
    next.away rank q = config.away rank q := by
  simp only [CollectiveConfig.away, CollectiveConfig.rank, same]

theorem CollectiveConfig.distance_lt
    (others : ∀ q, q ≠ p → next.control q = config.control q)
    (less : next.away rank p < config.away rank p) :
    next.distance rank < config.distance rank := by
  refine Finset.sum_lt_sum (fun q _ => ?_) ⟨p, Finset.mem_univ p, less⟩
  by_cases same : q = p
  · subst same
    exact less.le
  · exact (CollectiveConfig.away_of_same (others q same)).le

theorem CollectiveConfig.distance_eq
    (others : ∀ q, q ≠ p → next.control q = config.control q)
    (equal : next.away rank p = config.away rank p) :
    next.distance rank = config.distance rank := by
  refine Finset.sum_congr rfl fun q _ => ?_
  by_cases same : q = p
  · subst same
    exact equal
  · exact CollectiveConfig.away_of_same (others q same)

theorem CollectiveConfig.away_lt_of_rank
    (less : next.rank rank p < config.rank rank p) :
    next.away rank p < config.away rank p := by
  have bounds := (config.control p).barrier.pc.steps_bounds
  have bounds' := (next.control p).barrier.pc.steps_bounds
  unfold CollectiveConfig.away
  split_ifs <;> omega

theorem CollectiveConfig.away_lt_of_steps
    (same : next.rank rank p = config.rank rank p)
    (some : config.rank rank p ≠ 0)
    (less : (next.control p).barrier.pc.steps <
      (config.control p).barrier.pc.steps) :
    next.away rank p < config.away rank p := by
  unfold CollectiveConfig.away
  rw [same, if_neg some, if_neg some]
  omega

end Distance

/-! ## What others do to an urgent process -/

section Urgent

variable {ready : σ → Fin N → ℓ → Prop}
  {config next : CollectiveConfig N σ ℓ} {p : Fin N}

theorem CollectiveConfig.urgent_kept
    (urgent : config.urgent ready p) (same : next.control p = config.control p)
    (stays : ready config.shared.rest p (config.control p).state →
      ready next.shared.rest p (config.control p).state)
    (phase : ∀ timeout barPhase,
      (config.control p).barrier.pc = .spin timeout barPhase →
      next.shared.barrier.bufInt32 EMS_CB_BARPHASE =
        config.shared.barrier.bufInt32 EMS_CB_BARPHASE) :
    next.urgent ready p := by
  unfold CollectiveConfig.urgent at urgent ⊢
  rw [same]
  cases pcEq : (config.control p).barrier.pc with
  | outside =>
      rw [pcEq] at urgent
      exact stays urgent
  | spin timeout barPhase =>
      rw [pcEq] at urgent
      simp only [phase timeout barPhase pcEq]
      exact urgent
  | _ => trivial

theorem BarrierInvariant.phase_kept {round : Nat}
    {config : Config (Fin N) (BarrierMemory N) BarrierProcess}
    (invariant : BarrierInvariant round config) {q : Fin N} (different : q ≠ p)
    {timeout barPhase : Int}
    (spinning : (config.control q).pc = .spin timeout barPhase)
    (changed : config.shared.bufInt32 EMS_CB_BARPHASE ≠ barPhase) :
    (EMSbarrier config.shared.bufInt32 (config.control p).pc).1
      EMS_CB_BARPHASE =
      config.shared.bufInt32 EMS_CB_BARPHASE := by
  have phases := phaseOf_cases round
  have fits := invariant.fits p
  cases pcEq : (config.control p).pc with
  | fetchAdd timeout barPhase | resetCount timeout barPhase =>
      simp only [BarrierProcess.Fits, pcEq] at fits
      obtain ⟨-, -, rfl⟩ := fits
      apply Function.update_of_ne
      simp only [EMS_CB_BARPHASE, EMS_CB_NBAR0]
      omega
  | flipPhase =>
      have waiting :=
        invariant.closing p (by simp [pcEq, BarrierPc.isClosing]) q different
      have here := invariant.fits q
      simp only [BarrierProcess.Fits, spinning] at here
      simp only [BarrierProcess.isWaiting, spinning,
        decide_eq_true_eq] at waiting
      exact absurd (invariant.phase.trans (by omega)) changed
  | _ => rfl

end Urgent

/-! ## Progress -/

section Progress

variable {client : BarrierClient N σ ℓ α} {ready : σ → Fin N → ℓ → Prop}
  {counts : α → Prop}
  {inv : CollectiveConfig N σ ℓ → Prop} {rank : Fin N → Nat → ℓ → Nat}

/-- A process in its part helps if it need not wait. -/
def CollectiveConfig.helps (ready : σ → Fin N → ℓ → Prop)
    (rank : Fin N → Nat → ℓ → Nat)
    (config : CollectiveConfig N σ ℓ) (p : Fin N) : Prop :=
  config.rank rank p ≠ 0 ∧ config.urgent ready p

/-- Somebody need not wait before all have come to the end. -/
theorem BarrierClient.Advances.somebody
    (advances : client.Advances ready counts inv rank)
    {config : CollectiveConfig N σ ℓ} (holds : inv config)
    (unfinished : ¬ ∀ p, config.rank rank p = 0) :
    ∃ p, config.helps ready rank p := by
  by_contra nobody
  have invariant := advances.barrier holds
  have stand : ∀ p, config.rank rank p = 0 ∨ config.waits p ∨
      (config.control p).barrier.pc = .outside ∧
        ¬ ready config.shared.rest p (config.control p).state := by
    intro p
    by_cases done : config.rank rank p = 0
    · exact .inl done
    · have stands : ¬ config.urgent ready p :=
        fun urgent => nobody ⟨p, done, urgent⟩
      have fits := invariant.fits p
      have phase := invariant.phase
      simp only [CollectiveConfig.barrier] at fits phase
      unfold CollectiveConfig.urgent at stands
      cases pcEq : (config.control p).barrier.pc with
      | outside =>
          rw [pcEq] at stands
          exact .inr (.inr ⟨rfl, stands⟩)
      | spin timeout barPhase =>
          simp only [BarrierProcess.Fits, pcEq] at fits
          simp only [pcEq, ne_eq, not_not, phase] at stands
          have arrived : (config.control p).barrier.entered =
              config.shared.barrier.flips.length + 1 := by
            rcases fits with here | gone
            · exact here.1
            · exact absurd stands.symm gone.2.2
          refine .inr (.inl ?_)
          simp [CollectiveConfig.waits, BarrierProcess.isWaiting, pcEq, arrived]
      | _ => simp [pcEq] at stands
  rcases advances.together holds stand with finished | waiting
  · exact unfinished finished
  · -- whoever came last closes the round
    have nobodyMissing :
        missing config.shared.barrier.flips.length
            config.barrier.control = ∅ := by
      simp only [missing, Finset.filter_eq_empty_iff]
      intro p _ absent
      have here := waiting p
      simp only [CollectiveConfig.waits] at here
      simp [BarrierProcess.hasArrived, CollectiveConfig.barrier, here] at absent
    obtain ⟨p, closing⟩ := invariant.complete nobodyMissing
    have here := waiting p
    simp only [CollectiveConfig.waits] at here
    simp only [CollectiveConfig.barrier] at closing
    cases pcEq : (config.control p).barrier.pc <;>
      simp_all [BarrierPc.isClosing, BarrierProcess.isWaiting]

private theorem EMSbarrier_steps {bufInt32 : ControlBlock} {pc : BarrierPc}
    (notOutside : pc ≠ .outside)
    (notDone : ∀ retval, pc ≠ .done retval)
    (inTime : ∀ timeout barPhase, pc = .spin timeout barPhase → 0 < timeout) :
    (EMSbarrier bufInt32 pc).2.steps < pc.steps ∨
      ∃ timeout barPhase, pc = .spin timeout barPhase ∧
        (EMSbarrier bufInt32 pc).2 = .spin (timeout - 1) barPhase ∧
        bufInt32 EMS_CB_BARPHASE = barPhase := by
  cases pc with
  | outside => exact absurd rfl notOutside
  | done retval => exact absurd rfl (notDone retval)
  | spin timeout barPhase =>
      have positive := inTime timeout barPhase rfl
      by_cases current : barPhase = bufInt32 EMS_CB_BARPHASE
      · exact .inr ⟨timeout, barPhase,
          rfl, by simp [EMSbarrier, positive, current], current.symm⟩
      · left
        simp [EMSbarrier, current, BarrierPc.steps]
  | fetchAdd timeout barPhase =>
      left
      simp only [EMSbarrier]
      split_ifs <;> simp [BarrierPc.steps]
  | _ => simp [EMSbarrier, BarrierPc.steps]

/-- What a step must show that brings the end no nearer. -/
theorem CollectiveConfig.stays
    {config next : CollectiveConfig N σ ℓ} {p : Fin N}
    (others : ∀ q, q ≠ p → next.control q = config.control q)
    (equal : next.away rank p = config.away rank p)
    (mine : config.helps ready rank p → next.helps ready rank p)
    (theirs : ∀ q, q ≠ p → config.urgent ready q → next.urgent ready q) :
    next.distance rank = config.distance rank ∧
      ∀ q, config.helps ready rank q → next.helps ready rank q := by
  refine ⟨CollectiveConfig.distance_eq others equal, fun q helpful => ?_⟩
  by_cases same : q = p
  · subst same
    exact mine helpful
  · refine ⟨?_, theirs q same helpful.2⟩
    have sameRank : next.rank rank q = config.rank rank q := by
      simp only [CollectiveConfig.rank, others q same]
    rw [sameRank]
    exact helpful.1

theorem CollectiveConfig.stays_done
    {config next : CollectiveConfig N σ ℓ} {p : Fin N}
    (others : ∀ q, q ≠ p → next.control q = config.control q)
    (done : config.rank rank p = 0) (done' : next.rank rank p = 0)
    (theirs : ∀ q, q ≠ p → config.urgent ready q → next.urgent ready q)
    (moves : Prop) :
    next.distance rank = config.distance rank ∧
      (moves → ¬ config.helps ready rank p) ∧
      ∀ q, config.helps ready rank q → next.helps ready rank q := by
  have equal : next.away rank p = config.away rank p := by
    rw [CollectiveConfig.away, CollectiveConfig.away, if_pos done, if_pos done']
  obtain ⟨same, kept⟩ := CollectiveConfig.stays others equal
    (fun helpful => absurd done helpful.1) theirs
  exact ⟨same, fun _ helpful => helpful.1 done, kept⟩

/-- The step of a process brings the end nearer, or leaves those who help as
they are; one that counts does not come from a process that helps. -/
def CollectiveConfig.Nears (ready : σ → Fin N → ℓ → Prop)
    (rank : Fin N → Nat → ℓ → Nat)
    (counted : Prop) (p : Fin N)
    (config next : CollectiveConfig N σ ℓ) : Prop :=
  next.distance rank < config.distance rank ∨
    next.distance rank = config.distance rank ∧
      (counted → ¬ config.helps ready rank p) ∧
      ∀ q, config.helps ready rank q → next.helps ready rank q

section Steps

variable {memory : BarrierMemory N} {rest : σ}
  {control : Fin N → CollectiveProcess ℓ}
  {p : Fin N} {state : ℓ} {counted : Prop}

private theorem BarrierClient.Advances.nearer_code
    (advances : client.Advances ready counts inv rank) {rest' : σ}
    {bufInt32 : ControlBlock}
    {process : BarrierProcess} {state' : ℓ} {act : α}
    (holds : inv ⟨⟨memory, rest⟩, control⟩)
    (here : control p = ⟨process, state⟩) (outside : process.pc = .outside)
    (moves : client.code p (memory.bufInt32, rest) state act
      (bufInt32, rest') state') :
    CollectiveConfig.Nears ready rank (counts act) p ⟨⟨memory, rest⟩, control⟩
      ⟨⟨⟨bufInt32, memory.flips⟩, rest'⟩,
        Function.update control p ⟨process, state'⟩⟩ := by
  obtain ⟨next, nextEq⟩ : ∃ next : CollectiveConfig N σ ℓ,
      next = ⟨⟨⟨bufInt32, memory.flips⟩, rest'⟩,
        Function.update control p ⟨process, state'⟩⟩ := ⟨_, rfl⟩
  rw [← nextEq]
  have own : next.control p = ⟨process, state'⟩ := by simp [nextEq]
  have others : ∀ q, q ≠ p → next.control q = control q := by
    intro q different
    simp [nextEq, different]
  obtain ⟨kept, nearer⟩ := advances.code holds here outside moves
  have phase : bufInt32 EMS_CB_BARPHASE = memory.bufInt32 EMS_CB_BARPHASE :=
    client.apart moves _ (by decide)
  have theirs : ∀ q,
      q ≠ p → CollectiveConfig.urgent ready ⟨⟨memory, rest⟩, control⟩ q →
      next.urgent ready q := by
    intro q different urgent
    refine CollectiveConfig.urgent_kept urgent (others q different) ?_ ?_
    · rw [nextEq]
      exact kept q _ different
    · intro _ _ _
      rw [nextEq]
      exact phase
  rcases nearer with less | ⟨equal, done | ⟨idle, stays⟩⟩
  · refine .inl (CollectiveConfig.distance_lt others
      (CollectiveConfig.away_lt_of_rank ?_))
    simpa only [CollectiveConfig.rank, own, here] using less
  · refine .inr (CollectiveConfig.stays_done others ?_ ?_ theirs _)
    · simpa only [CollectiveConfig.rank, here] using done
    · simpa only [CollectiveConfig.rank, own, here, equal] using done
  · have sameRank : next.rank rank p =
        CollectiveConfig.rank rank ⟨⟨memory, rest⟩, control⟩ p := by
      simpa only [CollectiveConfig.rank, own, here] using equal
    have equalAway : next.away rank p =
        CollectiveConfig.away rank ⟨⟨memory, rest⟩, control⟩ p := by
      simp only [CollectiveConfig.away, sameRank, own, here]
    have mine : CollectiveConfig.helps ready rank ⟨⟨memory, rest⟩, control⟩ p →
        next.helps ready rank p := by
      rintro ⟨some, urgent⟩
      refine ⟨sameRank ▸ some, ?_⟩
      simp only [CollectiveConfig.urgent, own, here, outside] at urgent ⊢
      rw [nextEq]
      exact stays urgent
    obtain ⟨same, helpers⟩ :=
      CollectiveConfig.stays others equalAway mine theirs
    exact .inr ⟨same, fun counted => absurd counted idle, helpers⟩

/-- An access inside the barrier; who spins on the current phase helps
nobody. -/
private theorem nearer_access {pc : BarrierPc} {entered returned : Nat}
    (invariant : BarrierInvariant memory.flips.length
      (CollectiveConfig.barrier ⟨⟨memory, rest⟩, control⟩))
    (timely : ∀ timeout barPhase, pc = .spin timeout barPhase → 0 < timeout)
    (here : control p = ⟨⟨pc, entered, returned⟩, state⟩)
    (notOutside : pc ≠ .outside)
    (notDone : ∀ retval, pc ≠ .done retval) :
    CollectiveConfig.Nears ready rank counted p ⟨⟨memory, rest⟩, control⟩
      ⟨⟨⟨(EMSbarrier memory.bufInt32 pc).1,
          if pc.isFlip then memory.flips ++ [(p, entered)] else memory.flips⟩,
            rest⟩,
        Function.update control p
          ⟨⟨(EMSbarrier memory.bufInt32 pc).2, entered, returned⟩, state⟩⟩ := by
  obtain ⟨next, nextEq⟩ : ∃ next : CollectiveConfig N σ ℓ,
      next = ⟨⟨⟨(EMSbarrier memory.bufInt32 pc).1,
          if pc.isFlip then memory.flips ++ [(p, entered)] else memory.flips⟩,
            rest⟩,
        Function.update control p
          ⟨⟨(EMSbarrier memory.bufInt32 pc).2, entered, returned⟩, state⟩⟩ :=
            ⟨_, rfl⟩
  rw [← nextEq]
  have own : next.control p =
      ⟨⟨(EMSbarrier memory.bufInt32 pc).2, entered, returned⟩, state⟩ := by
    simp [nextEq]
  have others : ∀ q, q ≠ p → next.control q = control q := by
    intro q different
    simp [nextEq, different]
  have theirs : ∀ q,
      q ≠ p → CollectiveConfig.urgent ready ⟨⟨memory, rest⟩, control⟩ q →
      next.urgent ready q := by
    intro q different urgent
    refine CollectiveConfig.urgent_kept urgent (others q different) ?_ ?_
    · rw [nextEq]
      exact id
    · intro timeout barPhase spinning
      have changed : memory.bufInt32 EMS_CB_BARPHASE ≠ barPhase := by
        unfold CollectiveConfig.urgent at urgent
        simp only at spinning
        simpa only [spinning] using urgent
      have kept := invariant.phase_kept different spinning changed
      rw [nextEq]
      simpa only [CollectiveConfig.barrier, here] using kept
  have sameRank : next.rank rank p =
      CollectiveConfig.rank rank ⟨⟨memory, rest⟩, control⟩ p := by
    simp only [CollectiveConfig.rank, own, here]
  by_cases done : CollectiveConfig.rank rank ⟨⟨memory, rest⟩, control⟩ p = 0
  · exact .inr (CollectiveConfig.stays_done others done
      (sameRank.trans done) theirs _)
  · rcases EMSbarrier_steps notOutside notDone timely with less |
      ⟨timeout, barPhase, rfl, same, phase⟩
    · refine .inl (CollectiveConfig.distance_lt others
        (CollectiveConfig.away_lt_of_steps sameRank done ?_))
      simpa only [own, here] using less
    · have idle : ¬ CollectiveConfig.urgent ready
          ⟨⟨memory, rest⟩, control⟩ p := by
        simp [CollectiveConfig.urgent, here, phase]
      have equalAway : next.away rank p =
          CollectiveConfig.away rank ⟨⟨memory, rest⟩, control⟩ p := by
        simp only [CollectiveConfig.away, CollectiveConfig.rank,
          own, here, same,
          BarrierPc.steps]
      obtain ⟨equal, helpers⟩ := CollectiveConfig.stays others equalAway
        (fun helpful => absurd helpful.2 idle) theirs
      exact .inr ⟨equal, fun _ helpful => idle helpful.2, helpers⟩

end Steps

/-- A step brings the end nearer, or leaves those who help as they are. -/
theorem BarrierClient.Advances.nearer
    (advances : client.Advances ready counts inv rank)
    {config next : CollectiveConfig N σ ℓ} {p : Fin N} {act : CollectiveAct α}
    (holds : inv config) (step : CollectiveStep client config (p, act) next) :
    config.Nears ready rank (act.counts counts) p next := by
  have invariant := advances.barrier holds
  obtain ⟨inTime, step⟩ := step
  obtain ⟨⟨memory, rest⟩, control⟩ := config
  cases step with
  | @mk _ _ memory' process' moved =>
      have others : ∀ q, q ≠ p → Function.update control p process' q =
          control q :=
        fun q different => Function.update_of_ne different _ _
      simp only at moved
      generalize here : control p = before at moved
      cases moved with
      | code outside moves =>
          exact advances.nearer_code holds here outside moves
      | @barrier _ memory' _ process process' state act moves calls =>
          have theirs : memory' = memory → ∀ q, q ≠ p →
              CollectiveConfig.urgent ready ⟨⟨memory, rest⟩, control⟩ q →
              CollectiveConfig.urgent ready
                ⟨⟨memory', rest⟩, Function.update control p
                ⟨process', client.proceed act state⟩⟩ q := by
            rintro rfl q different urgent
            exact CollectiveConfig.urgent_kept urgent (others q different) id
              fun _ _ _ => rfl
          cases moves with
          | @call entered returned timeout =>
              by_cases done : rank p returned state = 0
              · refine .inr (CollectiveConfig.stays_done others ?_ ?_
                  (theirs rfl) _)
                · simpa only [CollectiveConfig.rank, here] using done
                · simpa only [CollectiveConfig.rank, Function.update_self,
                    BarrierClient.proceed] using done
              · refine .inl (CollectiveConfig.distance_lt others
                  (CollectiveConfig.away_lt_of_steps ?_ ?_ ?_))
                · simp only [CollectiveConfig.rank, Function.update_self, here,
                    BarrierClient.proceed]
                · simpa only [CollectiveConfig.rank, here] using done
                · simp [Function.update_self, here, BarrierPc.steps]
          | @ret entered returned retval =>
              rcases advances.resume holds here rfl with less | ⟨done, done'⟩
              · refine .inl (CollectiveConfig.distance_lt others
                  (CollectiveConfig.away_lt_of_rank ?_))
                simpa only [CollectiveConfig.rank, Function.update_self, here,
                  BarrierClient.proceed] using less
              · refine .inr (CollectiveConfig.stays_done others ?_ ?_
                  (theirs rfl) _)
                · simpa only [CollectiveConfig.rank, here] using done
                · simpa only [CollectiveConfig.rank, Function.update_self,
                    BarrierClient.proceed] using done'
          | access notOutside notDone =>
              have timely := inTime
              simp only [CollectiveConfig.barrier, InTime, here] at timely
              exact nearer_access invariant timely here notOutside notDone

/-- Everybody comes to the end of his part in a fair run. -/
theorem BarrierClient.Advances.eventually
    (advances : client.Advances ready counts inv rank)
    {future : Nat → CollectiveConfig N σ ℓ}
    (run : FairCollectiveRun client ready counts future)
    {i : Nat} (initially : inv (future i)) :
    ∃ j, i ≤ j ∧ inv (future j) ∧ ∀ p, (future j).rank rank p = 0 := by
  have progress : Progress (CollectiveStep client)
      (CollectiveConfig.urgent ready)
      (CollectiveAct.counts counts) inv
        (fun config => ∀ p, config.rank rank p = 0)
      (CollectiveConfig.helps ready rank) (CollectiveConfig.distance rank) := {
    keeps := advances.keeps
    urgent := fun helpful => helpful.2
    somebody := advances.somebody
    nearer := fun holds _ step => advances.nearer holds step }
  obtain ⟨j, later, finished⟩ := progress.eventually run initially
  obtain ⟨d, rfl⟩ := Nat.exists_eq_add_of_le later
  exact ⟨i + d, later, run.invariant advances.keeps initially d, finished⟩

end Progress

end EMS
