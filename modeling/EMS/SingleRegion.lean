import EMS.BarrierProgress

/-!
# Single-execution regions

`single` executes a function on the process that comes first.  Every process
adds one to a counter in the control block, the last one stores zero, and a
barrier keeps the processes out of the next region until all are through.
-/

namespace EMS

open Interleaving BulkSynchronous

def EMS_CB_SINGLE : Int := 5

/-! ## The code -/

/-- Control points of `single`: the accesses of `EMSsingleTask` with its
`retval`, the function that is about to be called or has been called, the
barrier, and the return. -/
inductive SinglePc where
  | outside
  | fetchAdd
  | loadThreads (retval : Int)
  | reset (retval : Int)
  | func
  | inFunc
  | barrier
  | leaving
  deriving DecidableEq, Repr

/-- `single` goes on with the result of `EMSsingleTask`, which is true for the
thread that was first to the counter. -/
def SinglePc.decide (retval : Int) : SinglePc :=
  if retval = 0 then .func else .barrier

/-- One atomic access of `EMSsingleTask`. -/
def EMSsingleTask (bufInt32 : ControlBlock) : SinglePc → ControlBlock × SinglePc
  | .fetchAdd =>
      let retval := bufInt32 EMS_CB_SINGLE
      (Function.update bufInt32 EMS_CB_SINGLE (retval + 1), .loadThreads retval)
  | .loadThreads retval =>
      (bufInt32, if retval = bufInt32 EMS_CB_NTHREADS - 1 then .reset retval
        else .decide retval)
  -- "If all threads have passed through the counter, reset fo next time"
  | .reset retval => (Function.update bufInt32 EMS_CB_SINGLE 0, .decide retval)
  | pc => (bufInt32, pc)

/-- The access is one of `EMSsingleTask`. -/
def SinglePc.isTask : SinglePc → Bool
  | .fetchAdd | .loadThreads _ | .reset _ => true
  | _ => false

/-- A process with the number of its calls of `single`. -/
structure SingleProcess where
  pc : SinglePc
  calls : Nat
  deriving DecidableEq, Repr

/-- What happens to the function of the `k`-th call. -/
inductive SingleEvent (N : Nat) where
  | began (p : Fin N) (k : Nat)
  | finished (p : Fin N) (k : Nat)
  | returned (p : Fin N) (k : Nat)
  deriving DecidableEq, Repr

inductive SingleAct where
  | call
  | access
  | start
  | finish
  | ret

variable {N : Nat}

/-- The code of `single` apart from its barrier, with the list of what
happened. -/
inductive SingleCode (p : Fin N) : ControlBlock × List (SingleEvent N) →
    SingleProcess →
    SingleAct → ControlBlock × List (SingleEvent N) → SingleProcess → Prop where
  | call {memory : ControlBlock × List (SingleEvent N)} {calls : Nat} :
      SingleCode p memory ⟨.outside, calls⟩ .call memory ⟨.fetchAdd, calls + 1⟩
  | access {bufInt32 : ControlBlock} {log : List (SingleEvent N)}
      {pc : SinglePc} {calls : Nat} :
      pc.isTask = true →
      SingleCode p (bufInt32, log) ⟨pc, calls⟩ .access
        ((EMSsingleTask bufInt32 pc).1, log)
          ⟨(EMSsingleTask bufInt32 pc).2, calls⟩
  | start {bufInt32 : ControlBlock} {log : List (SingleEvent N)} {calls : Nat} :
      SingleCode p (bufInt32, log) ⟨.func, calls⟩ .start
        (bufInt32, log ++ [.began p calls]) ⟨.inFunc, calls⟩
  | finish {bufInt32 : ControlBlock} {log : List (SingleEvent N)}
      {calls : Nat} :
      SingleCode p (bufInt32, log) ⟨.inFunc, calls⟩ .finish
        (bufInt32, log ++ [.finished p calls]) ⟨.barrier, calls⟩
  | ret {bufInt32 : ControlBlock} {log : List (SingleEvent N)} {calls : Nat} :
      SingleCode p (bufInt32, log) ⟨.leaving, calls⟩ .ret
        (bufInt32, log ++ [.returned p calls]) ⟨.outside, calls⟩

/-- Processes that call `single` again and again. -/
def single (N : Nat) :
    BarrierClient N (List (SingleEvent N)) SingleProcess SingleAct where
  code := SingleCode
  atBarrier process := process.pc = .barrier
  resume process := { process with pc := .leaving }
  apart := by
    intro p memory state act memory' state' moved word control
    cases moved with
    | @access bufInt32 log pc calls isTask =>
        have other : ∀ value, Function.update bufInt32 EMS_CB_SINGLE value
            word = bufInt32 word := by
          intro value
          apply Function.update_of_ne
          simp only [EMS_CB_SINGLE]
          omega
        cases pc with
        | fetchAdd | reset => exact other _
        | _ => rfl
    | _ => rfl

/-- Nobody has called `single` yet. -/
def initialSingle (N : Nat) :
    CollectiveConfig N (List (SingleEvent N)) SingleProcess :=
  initialCollective N [] fun _ => ⟨.outside, 0⟩

/-! ## The promise -/

def SingleEvent.isBegan (k : Nat) : SingleEvent N → Bool
  | .began _ call => call = k
  | _ => false

def SingleEvent.isFinished (k : Nat) : SingleEvent N → Bool
  | .finished _ call => call = k
  | _ => false

/-- What must have happened before an event. -/
def SingleEvent.After (before : List (SingleEvent N)) : SingleEvent N → Prop
  | .began _ k => k = 1 ∨ ∃ q, .finished q (k - 1) ∈ before
  | .finished p k => .began p k ∈ before
  | .returned _ k => ∃ q, .finished q k ∈ before

/-- A fair run without timeouts, in which every function ends.  Whoever has
called `single` goes on. -/
abbrev FairSingleRun
    (future : Nat → CollectiveConfig N (List (SingleEvent N)) SingleProcess) :
    Prop :=
  FairCollectiveRun (single N) (fun _ _ process => process.pc ≠ .outside)
    (fun _ => True) future

/-- What `single` promises. -/
structure SingleSafe
    (config : CollectiveConfig N (List (SingleEvent N)) SingleProcess) :
    Prop where
  /-- No two processes execute the function of a call, and no process twice. -/
  once : ∀ k, config.shared.rest.countP (SingleEvent.isBegan k) ≤ 1
  /-- When a process has returned from a call, one process has executed it. -/
  executed : ∀ p k, .returned p k ∈ config.shared.rest →
    config.shared.rest.countP (SingleEvent.isBegan k) = 1
  /-- A function has finished before the next one begins and before anybody
  returns from the call. -/
  ordered : Ordered SingleEvent.After config.shared.rest
  /-- The counter is zero between the regions. -/
  counter : (∀ p, (config.control p).state.pc = .outside) →
    config.shared.barrier.bufInt32 EMS_CB_SINGLE = 0
  /-- When everybody has called `single` for the `k`-th time, one process will
  have executed the function and everybody will have returned. -/
  completes : ∀ k, 0 < k → (∀ p, k ≤ (config.control p).state.calls) →
    ∀ future, future 0 = config → FairSingleRun future →
      ∃ j, (future j).shared.rest.countP (SingleEvent.isBegan k) = 1 ∧
        ∀ p, .returned p k ∈ (future j).shared.rest

/-! ## The invariant -/

abbrev SingleMember := Member SingleProcess

/-- The number of calls by where a process is. -/
def SinglePlaced (member : SingleMember) : Prop :=
  match member.state.pc with
  | .outside => member.status = .running ∧ member.state.calls = member.left
  | .leaving =>
      member.status = .running ∧ member.state.calls = member.left ∧
        0 < member.left
  | .barrier => member.state.calls = member.left + 1
  | _ => member.status = .running ∧ member.state.calls = member.left + 1

/-- The process has been counted in the current region. -/
def singlePassed (member : SingleMember) : Nat :=
  match member.state.pc with
  | .loadThreads _ | .reset _ | .func | .inFunc => 1
  | .barrier => if member.status = .released then 0 else 1
  | _ => 0

/-- The process came last and has still to reset the counter. -/
def singleClosing (N : Nat) (member : SingleMember) : Nat :=
  match member.state.pc with
  | .loadThreads retval => if retval = N - 1 then 1 else 0
  | .reset _ => 1
  | _ => 0

/-- The process came first and has still to call the function. -/
def singleChosen (member : SingleMember) : Nat :=
  match member.state.pc with
  | .loadThreads retval | .reset retval => if retval = 0 then 1 else 0
  | .func => 1
  | _ => 0

def singleInFunc (member : SingleMember) : Nat :=
  match member.state.pc with
  | .inFunc => 1
  | _ => 0

/-- How the numbers of the current region belong together. -/
structure SingleCounts (N : Nat) (counter : Int)
    (passed closing chosen inFunc began finished : Nat) :
    Prop where
  counter : counter = if closing = 0 then
    (if passed = N then 0 else passed) else N
  closes : 0 < closing → passed = N ∧ closing = 1
  begins : chosen + began = if passed = 0 then 0 else 1
  runs : began = inFunc + finished

abbrev SingleState (N : Nat) :=
  State (Fin N) (ControlBlock × List (SingleEvent N)) SingleProcess

/-- The numbers of the region that the processes are in. -/
def SingleCounted (bufInt32 : ControlBlock) (log : List (SingleEvent N))
    (members : Fin N → SingleMember) (round : Nat) : Prop :=
  SingleCounts N (bufInt32 EMS_CB_SINGLE) (tally singlePassed members)
    (tally (singleClosing N) members) (tally singleChosen members)
      (tally singleInFunc members)
    (log.countP (SingleEvent.isBegan (round + 1)))
      (log.countP (SingleEvent.isFinished (round + 1)))

/-- The events of the regions before the current one, and of none after it. -/
structure SingleHistory (log : List (SingleEvent N)) (round : Nat) : Prop where
  past : ∀ k, 0 < k → k ≤ round → log.countP (SingleEvent.isBegan k) = 1 ∧
    log.countP (SingleEvent.isFinished k) = 1
  future : ∀ k, k = 0 ∨ round + 1 < k → log.countP (SingleEvent.isBegan k) = 0 ∧
    log.countP (SingleEvent.isFinished k) = 0
  returned : ∀ p k, .returned p k ∈ log → 0 < k ∧ k ≤ round
  ordered : Ordered SingleEvent.After log

structure SingleInvariant (state : SingleState N) : Prop where
  placed : ∀ p, SinglePlaced (state.members p)
  threads : state.shared.1 EMS_CB_NTHREADS = N
  counted : SingleCounted state.shared.1 state.shared.2
    state.members state.round
  history : SingleHistory state.shared.2 state.round
  own : ∀ p, (state.members p).state.pc = .inFunc →
    .began p (state.members p).state.calls ∈ state.shared.2

theorem initialSingle_invariant :
    SingleInvariant (initialSingle N).rounds := by
  have none : ∀ weight : SingleMember → Nat,
      (∀ left, weight ⟨.running, left, ⟨.outside, 0⟩⟩ = 0) →
      tally weight (initialSingle N).rounds.members = 0 := by
    intro weight zero
    apply tally_zero
    intro p
    exact zero 0
  constructor
  · intro p
    exact ⟨rfl, rfl⟩
  · rfl
  · unfold SingleCounted
    rw [none _ fun _ => rfl, none _ fun _ => rfl, none _ fun _ => rfl,
      none _ fun _ => rfl]
    constructor
    · rw [if_pos rfl]
      split_ifs <;> rfl
    · intro impossible
      cases impossible
    · rfl
    · rfl
  · constructor
    · intro k some none
      simp [initialSingle, CollectiveConfig.rounds, initialCollective] at none
      omega
    · intro k _
      exact ⟨rfl, rfl⟩
    · intro p k member
      cases member
    · exact Ordered.nil
  · intro p atFunc
    cases atFunc

section Moves

variable {bufInt32 bufInt32' : ControlBlock} {log : List (SingleEvent N)}
  {members : Fin N → SingleMember} {round : Nat} {p : Fin N}
    {member : SingleMember}

/-- A process moves that keeps its share of every number. -/
theorem SingleCounted.same (counted : SingleCounted bufInt32 log members round)
    (passed : singlePassed member = singlePassed (members p))
    (closing : singleClosing N member = singleClosing N (members p))
    (chosen : singleChosen member = singleChosen (members p))
    (inFunc : singleInFunc member = singleInFunc (members p)) :
    SingleCounted bufInt32 log (Function.update members p member) round := by
  have still : ∀ weight : SingleMember → Nat,
      weight member = weight (members p) →
      tally weight (Function.update members p member) =
          tally weight members := by
    intro weight equal
    have moved := tally_update weight members p member
    omega
  unfold SingleCounted
  rw [still _ passed, still _ closing, still _ chosen, still _ inFunc]
  exact counted

private theorem singlePassed_lt (absent : singlePassed (members p) = 0) :
    tally singlePassed members < N := by
  have moved := tally_update singlePassed members p ⟨.running, 0, ⟨.func, 0⟩⟩
  have bound := @tally_le (Fin N) _ _ singlePassed
    (Function.update members p ⟨.running, 0, ⟨.func, 0⟩⟩) (by
      intro member
      unfold singlePassed
      split
      all_goals try split_ifs
      all_goals omega)
  have one : singlePassed ⟨.running, 0, ⟨.func, 0⟩⟩ = 1 := rfl
  rw [Fintype.card_fin] at bound
  omega

theorem SingleCounted.fetchAdd {left calls : Nat}
    (counted : SingleCounted bufInt32 log members round)
    (here : members p = ⟨.running, left, ⟨.fetchAdd, calls⟩⟩) :
    SingleCounted (Function.update bufInt32 EMS_CB_SINGLE
      (bufInt32 EMS_CB_SINGLE + 1)) log
      (Function.update members p
        ⟨.running, left, ⟨.loadThreads (bufInt32 EMS_CB_SINGLE), calls⟩⟩)
          round := by
  have absent : singlePassed (members p) = 0 := by rw [here]; rfl
  have less := singlePassed_lt absent
  have open' : tally (singleClosing N) members = 0 := by
    by_contra closing
    have full := (counted.closes (Nat.pos_of_ne_zero closing)).1
    omega
  have counter := counted.counter
  rw [open', if_pos rfl, if_neg less.ne] at counter
  have passed := tally_update singlePassed members p
    ⟨.running, left, ⟨.loadThreads (bufInt32 EMS_CB_SINGLE), calls⟩⟩
  have closing := tally_update (singleClosing N) members p
    ⟨.running, left, ⟨.loadThreads (bufInt32 EMS_CB_SINGLE), calls⟩⟩
  have chosen := tally_update singleChosen members p
    ⟨.running, left, ⟨.loadThreads (bufInt32 EMS_CB_SINGLE), calls⟩⟩
  have inFunc := tally_update singleInFunc members p
    ⟨.running, left, ⟨.loadThreads (bufInt32 EMS_CB_SINGLE), calls⟩⟩
  simp only [here, singlePassed, singleClosing, singleChosen, singleInFunc,
    open', counter]
    at passed closing chosen inFunc
  have begins := counted.begins
  have runs := counted.runs
  simp only [SingleCounted, Function.update_self, counter]
  constructor
  · split_ifs at closing ⊢ <;> omega
  · intro _
    split_ifs at closing <;> omega
  · split_ifs at begins chosen ⊢ <;> omega
  · omega

theorem SingleCounted.reset {left calls : Nat} {retval : Int}
    (counted : SingleCounted bufInt32 log members round)
    (here : members p = ⟨.running, left, ⟨.reset retval, calls⟩⟩) :
    SingleCounted (Function.update bufInt32 EMS_CB_SINGLE 0) log
      (Function.update members p ⟨.running, left, ⟨.decide retval, calls⟩⟩)
      round := by
  have last := le_tally (singleClosing N) members p
  have one : singleClosing N (members p) = 1 := by rw [here]; rfl
  obtain ⟨full, alone⟩ := counted.closes (by omega)
  have passed :=
    tally_update singlePassed members p
      ⟨.running, left, ⟨.decide retval, calls⟩⟩
  have closing := tally_update (singleClosing N) members p
    ⟨.running, left, ⟨.decide retval, calls⟩⟩
  have chosen :=
    tally_update singleChosen members p
      ⟨.running, left, ⟨.decide retval, calls⟩⟩
  have inFunc :=
    tally_update singleInFunc members p
      ⟨.running, left, ⟨.decide retval, calls⟩⟩
  have begins := counted.begins
  have runs := counted.runs
  simp only [SingleCounted, Function.update_self]
  by_cases first : retval = 0
  all_goals
    simp only [here, SinglePc.decide, first, if_true, if_false, singlePassed,
      singleClosing,
      singleChosen, singleInFunc, reduceCtorEq] at passed closing chosen inFunc ⊢
    constructor
    · split_ifs <;> omega
    · intro open'
      omega
    · split_ifs at begins ⊢ <;> omega
    · omega

theorem countP_append_one {β : Type} (test : β → Bool) (log : List β)
    (event : β) :
    (log ++ [event]).countP test = log.countP test + if test event then 1
      else 0 := by
  rw [List.countP_append, List.countP_singleton]

theorem SingleCounted.start {left : Nat}
    (counted : SingleCounted bufInt32 log members round)
    (here : members p = ⟨.running, left, ⟨.func, round + 1⟩⟩) :
    SingleCounted bufInt32 (log ++ [.began p (round + 1)])
      (Function.update members p ⟨.running, left, ⟨.inFunc, round + 1⟩⟩)
        round := by
  have passed :=
    tally_update singlePassed members p ⟨.running, left, ⟨.inFunc, round + 1⟩⟩
  have closing :=
    tally_update (singleClosing N) members p
      ⟨.running, left, ⟨.inFunc, round + 1⟩⟩
  have chosen :=
    tally_update singleChosen members p ⟨.running, left, ⟨.inFunc, round + 1⟩⟩
  have inFunc :=
    tally_update singleInFunc members p ⟨.running, left, ⟨.inFunc, round + 1⟩⟩
  obtain ⟨counter, closes, begins, runs⟩ := counted
  simp only [here, singlePassed, singleClosing, singleChosen, singleInFunc]
    at passed closing chosen inFunc
  simp only [SingleCounted, countP_append_one, SingleEvent.isBegan,
    SingleEvent.isFinished,
    decide_true, if_true, Bool.false_eq_true, if_false]
  constructor
  · split_ifs at counter ⊢ <;> omega
  · intro open'
    have := closes (by omega)
    omega
  · split_ifs at begins ⊢ <;> omega
  · omega

theorem SingleCounted.finish {left : Nat}
    (counted : SingleCounted bufInt32 log members round)
    (here : members p = ⟨.running, left, ⟨.inFunc, round + 1⟩⟩) :
    SingleCounted bufInt32 (log ++ [.finished p (round + 1)])
      (Function.update members p ⟨.running, left, ⟨.barrier, round + 1⟩⟩)
        round := by
  have passed :=
    tally_update singlePassed members p ⟨.running, left, ⟨.barrier, round + 1⟩⟩
  have closing :=
    tally_update (singleClosing N) members p
      ⟨.running, left, ⟨.barrier, round + 1⟩⟩
  have chosen :=
    tally_update singleChosen members p ⟨.running, left, ⟨.barrier, round + 1⟩⟩
  have inFunc :=
    tally_update singleInFunc members p ⟨.running, left, ⟨.barrier, round + 1⟩⟩
  obtain ⟨counter, closes, begins, runs⟩ := counted
  simp only [here, singlePassed, singleClosing, singleChosen, singleInFunc,
    reduceCtorEq, if_false]
    at passed closing chosen inFunc
  simp only [SingleCounted, countP_append_one, SingleEvent.isBegan,
    SingleEvent.isFinished,
    decide_true, if_true, Bool.false_eq_true, if_false]
  constructor
  · split_ifs at counter ⊢ <;> omega
  · intro open'
    have := closes (by omega)
    omega
  · split_ifs at begins ⊢ <;> omega
  · omega

/-- A region is over: the counter is zero and the function has been executed. -/
theorem SingleCounted.release (positive : 0 < N)
    (counted : SingleCounted bufInt32 log members round)
    (barrier : ∀ q, (members q).state.pc = .barrier)
    (waiting : ∀ q, (members q).status = .waiting) :
    bufInt32 EMS_CB_SINGLE = 0 ∧
      log.countP (SingleEvent.isBegan (round + 1)) = 1 ∧
      log.countP (SingleEvent.isFinished (round + 1)) = 1 := by
  have passed : tally singlePassed members = N := by
    rw [@tally_constant _ _ _ _ _ 1, Fintype.card_fin, Nat.mul_one]
    intro q
    simp [singlePassed, barrier, waiting]
  have none : ∀ weight : SingleMember → Nat, (∀ q, weight (members q) = 0) →
      tally weight members = 0 := fun _ nobody => tally_zero nobody
  obtain ⟨counter, -, begins, runs⟩ := counted
  rw [none (singleClosing N)
    fun q => by simp [singleClosing, barrier], passed, if_pos rfl,
    if_pos rfl] at counter
  rw [none singleChosen fun q => by simp [singleChosen, barrier], passed,
    if_neg positive.ne'] at begins
  rw [none singleInFunc fun q => by simp [singleInFunc, barrier]] at runs
  exact ⟨counter, by omega, by omega⟩

end Moves

section History

variable {log : List (SingleEvent N)} {round : Nat}

/-- An event of the current region. -/
theorem SingleHistory.append {event : SingleEvent N}
    (history : SingleHistory log round)
    (after : event.After log)
    (begins : ∀ k, event.isBegan k = true → k = round + 1)
    (finishes : ∀ k, event.isFinished k = true → k = round + 1)
    (returns : ∀ p k, event = .returned p k → 0 < k ∧ k ≤ round) :
    SingleHistory (log ++ [event]) round := by
  have other : ∀ k, k ≠ round + 1 →
      (log ++ [event]).countP (SingleEvent.isBegan k) =
        log.countP (SingleEvent.isBegan k) ∧
      (log ++ [event]).countP (SingleEvent.isFinished k) =
        log.countP (SingleEvent.isFinished k) := by
    intro k different
    rw [countP_append_one, countP_append_one, if_neg (mt (begins k) different),
      if_neg (mt (finishes k) different)]
    exact ⟨rfl, rfl⟩
  constructor
  · intro k positive inside
    rw [(other k (by omega)).1, (other k (by omega)).2]
    exact history.past k positive inside
  · intro k outside
    rw [(other k (by omega)).1, (other k (by omega)).2]
    exact history.future k outside
  · intro p k member
    rcases List.mem_append.mp member with earlier | last
    · exact history.returned p k earlier
    · exact returns p k (List.mem_singleton.mp last).symm
  · exact history.ordered.append after

theorem SingleHistory.release (history : SingleHistory log round)
    (began : log.countP (SingleEvent.isBegan (round + 1)) = 1)
    (finished : log.countP (SingleEvent.isFinished (round + 1)) = 1) :
    SingleHistory log (round + 1) := by
  constructor
  · intro k positive inside
    rcases Nat.lt_or_eq_of_le inside with earlier | rfl
    · exact history.past k positive (by omega)
    · exact ⟨began, finished⟩
  · intro k outside
    exact history.future k (by omega)
  · intro p k member
    have bounds := history.returned p k member
    omega
  · exact history.ordered

theorem SingleHistory.finished (history : SingleHistory log round) {k : Nat}
    (positive : 0 < k)
    (past : k ≤ round) : ∃ q, .finished q k ∈ log := by
  have once := (history.past k positive past).2
  obtain ⟨event, member, isFinished⟩ :=
    List.countP_pos_iff.mp
      (by omega : 0 < log.countP (SingleEvent.isFinished k))
  cases event with
  | finished q call =>
      obtain rfl : call = k := by
        simpa [SingleEvent.isFinished] using isFinished
      exact ⟨q, member⟩
  | began => cases isFinished
  | returned => cases isFinished

end History

/-! ## Every step -/

section Steps

variable {bufInt32 bufInt32' : ControlBlock} {log log' : List (SingleEvent N)}
  {members : Fin N → SingleMember} {round : Nat} {p : Fin N}
    {member : SingleMember}

theorem SingleInvariant.moves
    (invariant : SingleInvariant ⟨(bufInt32, log), members, round⟩)
    (placed : SinglePlaced member)
    (threads : bufInt32' EMS_CB_NTHREADS = bufInt32 EMS_CB_NTHREADS)
    (counted : SingleCounted bufInt32' log'
      (Function.update members p member) round)
    (history : SingleHistory log' round) (kept : ∀ event ∈ log, event ∈ log')
    (own : member.state.pc = .inFunc → .began p member.state.calls ∈ log') :
    SingleInvariant ⟨(bufInt32', log'), Function.update members p member,
      round⟩ := by
  constructor
  · intro q
    by_cases same : q = p
    · subst same
      simpa using placed
    · simpa [same] using invariant.placed q
  · exact threads.trans invariant.threads
  · exact counted
  · exact history
  · intro q inFunc
    by_cases same : q = p
    · subst same
      simp only [Function.update_self] at inFunc ⊢
      exact own inFunc
    · simp only [ne_eq, same, not_false_eq_true,
        Function.update_of_ne] at inFunc ⊢
      exact kept _ (invariant.own q inFunc)

theorem SingleInvariant.code {left : Nat} {state state' : SingleProcess}
    {act : SingleAct}
    (invariant : SingleInvariant ⟨(bufInt32, log), members, round⟩)
    (inRound : (members p).InRound round)
    (here : members p = ⟨.running, left, state⟩)
    (moved : SingleCode p (bufInt32, log) state act (bufInt32', log') state') :
    SingleInvariant ⟨(bufInt32', log'),
      Function.update members p ⟨.running, left, state'⟩,
      round⟩ := by
  have placed : SinglePlaced (members p) := invariant.placed p
  have history : SingleHistory log round := invariant.history
  obtain rfl : left = round := by
    have left := inRound.left_eq (by rw [here]; simp)
    rwa [here] at left
  rw [here] at placed
  have threads : bufInt32' EMS_CB_NTHREADS = bufInt32 EMS_CB_NTHREADS :=
    (single N).apart moved EMS_CB_NTHREADS (by decide)
  cases moved with
  | @call _ calls =>
      obtain ⟨-, callsEq⟩ : _ ∧ calls = left := placed
      subst callsEq
      refine invariant.moves (show SinglePlaced _ from ⟨rfl, rfl⟩)
        threads ?_ history
        (fun _ old => old) (fun impossible => by cases impossible)
      · apply invariant.counted.same <;> simp [here, singlePassed,
          singleClosing, singleChosen,
          singleInFunc]
  | @access _ _ pc calls isTask =>
      cases pc with
      | fetchAdd =>
          refine invariant.moves placed threads
            (invariant.counted.fetchAdd here) history
            (fun _ old => old) ?_
          intro impossible
          cases impossible
      | loadThreads retval =>
          have same : bufInt32 EMS_CB_NTHREADS = N := invariant.threads
          by_cases last : retval = N - 1
          · simp only [EMSsingleTask, same, last, if_true]
            refine invariant.moves placed rfl ?_ history (fun _ old => old) ?_
            · apply invariant.counted.same <;> simp [here, singlePassed,
                singleClosing,
                singleChosen, singleInFunc, last]
            · intro impossible
              cases impossible
          · simp only [EMSsingleTask, same, last, if_false, SinglePc.decide]
            by_cases first : retval = 0
            · simp only [first, if_true]
              refine invariant.moves placed rfl ?_ history (fun _ old => old) ?_
              · subst first
                apply invariant.counted.same <;> simp [here, singlePassed,
                  singleClosing,
                  singleChosen, singleInFunc, last]
              · intro impossible
                cases impossible
            · simp only [first, if_false]
              refine invariant.moves placed.2 rfl ?_ history
                (fun _ old => old) ?_
              · apply invariant.counted.same <;> simp [here, singlePassed,
                  singleClosing,
                  singleChosen, singleInFunc, last, first]
              · intro impossible
                cases impossible
      | reset retval =>
          refine invariant.moves ?_ threads
            (invariant.counted.reset here) history
            (fun _ old => old) ?_
          · simp only [EMSsingleTask, SinglePc.decide]
            split_ifs
            · exact placed
            · exact placed.2
          · intro impossible
            simp only [EMSsingleTask, SinglePc.decide] at impossible
            split_ifs at impossible
      | _ => cases isTask
  | @start _ _ calls =>
      obtain ⟨-, callsEq⟩ : _ ∧ calls = left + 1 := placed
      subst callsEq
      refine invariant.moves (show SinglePlaced _ from ⟨rfl, rfl⟩) rfl
        (invariant.counted.start here) ?_
        (fun _ old => List.mem_append_left _ old) fun _ =>
          List.mem_append_right _ (by simp)
      apply history.append
      · rcases Nat.eq_zero_or_pos left with rfl | positive
        · exact .inl rfl
        · exact .inr (history.finished positive (by omega))
      · intro k isBegan
        simpa [SingleEvent.isBegan, eq_comm] using isBegan
      · intro k isFinished
        cases isFinished
      · intro q k impossible
        cases impossible
  | @finish _ _ calls =>
      obtain ⟨-, callsEq⟩ : _ ∧ calls = left + 1 := placed
      subst callsEq
      have began : .began p (left + 1) ∈ log := by
        have own : (members p).state.pc = .inFunc →
            .began p (members p).state.calls ∈ log :=
          invariant.own p
        rw [here] at own
        exact own rfl
      refine invariant.moves (show SinglePlaced _ from rfl) rfl
        (invariant.counted.finish here) ?_
        (fun _ old => List.mem_append_left _ old) ?_
      · refine history.append
          (show SingleEvent.After log (.finished p (left + 1)) from began)
          ?_ ?_ ?_
        · intro k isBegan
          cases isBegan
        · intro k isFinished
          simpa [SingleEvent.isFinished, eq_comm] using isFinished
        · intro q k impossible
          cases impossible
      · intro impossible
        cases impossible
  | @ret _ _ calls =>
      obtain ⟨-, callsEq, positive⟩ : _ ∧ calls = left ∧ 0 < left := placed
      subst callsEq
      have counted : SingleCounted bufInt32 (log ++ [.returned p calls])
          members calls := by
        simpa [SingleCounted, countP_append_one, SingleEvent.isBegan,
          SingleEvent.isFinished]
          using invariant.counted
      refine invariant.moves (show SinglePlaced _ from ⟨rfl, rfl⟩) rfl ?_ ?_
        (fun _ old => List.mem_append_left _ old) (fun impossible => by
          cases impossible)
      · apply counted.same <;> simp [here, singlePassed, singleClosing,
          singleChosen, singleInFunc]
      · refine history.append
          (show SingleEvent.After log (.returned p calls) from
          history.finished positive le_rfl) ?_ ?_ ?_
        · intro k isBegan
          cases isBegan
        · intro k isFinished
          cases isFinished
        · intro q k same
          obtain ⟨-, rfl⟩ := SingleEvent.returned.inj same
          exact ⟨positive, le_rfl⟩

theorem SinglePlaced.barrier (placed : SinglePlaced member)
    (inside : member.status ≠ .running) :
    member.state.pc = .barrier := by
  obtain ⟨status, left, ⟨pc, calls⟩⟩ := member
  cases pc with
  | barrier => rfl
  | _ => exact absurd placed.1 inside

theorem SingleInvariant.release (positive : 0 < N)
    (invariant : SingleInvariant ⟨(bufInt32, log), members, round⟩)
    (waiting : ∀ q, (members q).status = .waiting) :
    SingleInvariant ⟨(bufInt32, log),
      fun q => { members q with status := .released },
      round + 1⟩ := by
  have placed : ∀ q, SinglePlaced (members q) := invariant.placed
  have history : SingleHistory log round := invariant.history
  have barrier : ∀ q, (members q).state.pc = .barrier := by
    intro q
    apply (placed q).barrier
    simp [waiting]
  obtain ⟨zero, began, finished⟩ :=
    SingleCounted.release positive invariant.counted barrier waiting
  simp only at zero
  have none : ∀ weight : SingleMember → Nat,
      (∀ left calls, weight ⟨.released, left, ⟨.barrier, calls⟩⟩ = 0) →
      tally weight (fun q => { members q with status := .released }) = 0 := by
    intro weight free
    apply tally_zero
    intro q
    have same : (members q).state = ⟨.barrier, (members q).state.calls⟩ := by
      rw [← barrier q]
    exact (congrArg (fun state => weight ⟨_, _, state⟩) same).trans (free _ _)
  obtain ⟨futureBegan, futureFinished⟩ :=
    history.future (round + 1 + 1) (by omega)
  refine ⟨?_, invariant.threads, ?_, history.release began finished, ?_⟩
  · intro q
    have here := placed q
    simp only [SinglePlaced, barrier] at here ⊢
    exact here
  · simp only [SingleCounted, zero, futureBegan, futureFinished]
    rw [none singlePassed fun _ _ => rfl, none (singleClosing N) fun _ _ => rfl,
      none singleChosen fun _ _ => rfl, none singleInFunc fun _ _ => rfl]
    constructor
    · rw [if_pos rfl]
      split_ifs <;> rfl
    · intro impossible
      cases impossible
    · rfl
    · rfl
  · intro q inFunc
    have here := barrier q
    simp only [here, reduceCtorEq] at inFunc

theorem SingleInvariant.step (positive : 0 < N) {state next : SingleState N}
    {label : Label (Fin N) SingleAct} (inRound : state.InRound)
    (invariant : SingleInvariant state)
    (step : (single N).client.Step state label next) :
    SingleInvariant next := by
  cases step with
  | @code memory memory' _ _ _ _ _ _ _ here moved =>
      obtain ⟨bufInt32, log⟩ := memory
      obtain ⟨bufInt32', log'⟩ := memory'
      exact invariant.code (inRound _) here moved
  | @arrive memory members _ _ p process here atBarrier =>
      obtain ⟨bufInt32, log⟩ := memory
      have placed : SinglePlaced (members p) := invariant.placed p
      obtain ⟨pc, calls⟩ := process
      obtain rfl : pc = .barrier := atBarrier
      rw [here] at placed
      refine invariant.moves placed rfl ?_ invariant.history (fun _ old => old)
        (fun impossible => by cases impossible)
      apply invariant.counted.same <;> simp [here, singlePassed, singleClosing,
        singleChosen,
        singleInFunc]
  | @leave memory members _ left p process here =>
      obtain ⟨bufInt32, log⟩ := memory
      have placed : SinglePlaced (members p) := invariant.placed p
      rw [here] at placed
      obtain ⟨pc, calls⟩ := process
      obtain rfl : pc = .barrier := placed.barrier (by simp)
      refine invariant.moves ⟨rfl, placed, Nat.succ_pos left⟩ rfl ?_
        invariant.history
        (fun _ old => old) (fun impossible => by cases impossible)
      apply invariant.counted.same <;> simp [here, single, BarrierClient.client,
        singlePassed,
        singleClosing, singleChosen, singleInFunc]
  | @release memory members round waiting =>
      obtain ⟨bufInt32, log⟩ := memory
      exact invariant.release positive waiting
  | @scratch memory memory' members round scratch =>
      obtain ⟨bufInt32, log⟩ := memory
      obtain ⟨bufInt32', log'⟩ := memory'
      obtain ⟨rfl, words⟩ : log' = log ∧ ∀ word, ¬ BarrierWord word →
        bufInt32' word = bufInt32 word := scratch
      have threads := words EMS_CB_NTHREADS (by decide)
      have counter := words EMS_CB_SINGLE (by decide)
      refine ⟨invariant.placed, threads.trans invariant.threads, ?_,
        invariant.history,
        invariant.own⟩
      have counted := invariant.counted
      simp only [SingleCounted, counter] at counted ⊢
      exact counted

end Steps

/-! ## Progress -/

section Progress

variable {config next : CollectiveConfig N (List (SingleEvent N)) SingleProcess}
  {trace : List (Fin N × CollectiveAct SingleAct)}
    {label : Fin N × CollectiveAct SingleAct}

private theorem EMSsingleTask_inside {bufInt32 : ControlBlock} {pc : SinglePc}
    (isTask : pc.isTask = true) :
    (EMSsingleTask bufInt32 pc).2 ≠ .outside := by
  cases pc with
  | loadThreads retval =>
      simp only [EMSsingleTask, SinglePc.decide]
      split_ifs <;> simp
  | reset retval =>
      simp only [EMSsingleTask, SinglePc.decide]
      split_ifs <;> simp
  | fetchAdd => simp [EMSsingleTask]
  | _ => cases isTask

/-- The process has returned from its `k`-th call. -/
def SingleProcess.hasReturned (process : SingleProcess) (k : Nat) : Prop :=
  k < process.calls ∨ k = process.calls ∧ process.pc = .outside

/-- What a step of a process does to its calls and returns. -/
theorem single_program_calls
    {memory memory' : CollectiveMemory N (List (SingleEvent N))}
    {process process' : CollectiveProcess SingleProcess} {p : Fin N}
    {act : CollectiveAct SingleAct}
    (moved : CollectiveProgram
      (single N) p memory process act memory' process') :
    process.state.calls ≤ process'.state.calls ∧
      (∀ event ∈ memory.rest, event ∈ memory'.rest) ∧
      ∀ k, process'.state.hasReturned k →
        process.state.hasReturned k ∨ .returned p k ∈ memory'.rest := by
  cases moved with
  | code outside moves =>
      cases moves with
      | call =>
          refine ⟨Nat.le_succ _, fun _ old => old, fun k returned => .inl ?_⟩
          simp only [SingleProcess.hasReturned, reduceCtorEq, and_false,
            or_false] at returned
          simp only [SingleProcess.hasReturned, and_true]
          omega
      | @access _ _ pc calls isTask =>
          refine ⟨le_rfl, fun _ old => old, fun k returned => .inl ?_⟩
          rcases returned with less | ⟨-, outside'⟩
          · exact .inl less
          · exact absurd outside' (EMSsingleTask_inside isTask)
      | start | finish =>
          refine ⟨le_rfl, fun _ old => List.mem_append_left _ old,
            fun k returned => .inl ?_⟩
          simpa [SingleProcess.hasReturned] using returned
      | ret =>
          refine ⟨le_rfl, fun _ old => List.mem_append_left _ old,
            fun k returned => ?_⟩
          rcases returned with less | ⟨rfl, -⟩
          · exact .inl (.inl less)
          · exact .inr (List.mem_append_right _ (List.mem_singleton_self _))
  | @barrier _ _ _ _ _ state act moves calls =>
      refine ⟨?_, fun _ old => old, fun k returned => .inl ?_⟩
      · cases act <;> exact le_rfl
      · cases act with
        | call | access => exact returned
        | ret =>
            simp only [BarrierClient.proceed, single, SingleProcess.hasReturned,
              reduceCtorEq, and_false, or_false] at returned
            exact .inl returned

theorem single_step_calls (step : CollectiveStep (single N) config label next)
    (p : Fin N) :
    (config.control p).state.calls ≤ (next.control p).state.calls ∧
      (∀ event ∈ config.shared.rest, event ∈ next.shared.rest) ∧
      ∀ k, (next.control p).state.hasReturned k →
        (config.control p).state.hasReturned k ∨
          .returned p k ∈ next.shared.rest := by
  obtain ⟨-, step⟩ := step
  cases step with
  | @mk q act memory' process' moved =>
      obtain ⟨more, kept, returns⟩ := single_program_calls moved
      by_cases same : p = q
      · subst same
        simp only [Function.update_self]
        exact ⟨more, kept, returns⟩
      · simp only [Function.update_of_ne same]
        exact ⟨le_rfl, kept, fun k returned => .inl returned⟩

private theorem single_returned
    (run : Run (CollectiveStep (single N)) (initialSingle N) trace config)
    {p : Fin N} {k : Nat} (positive : 0 < k)
    (returned : (config.control p).state.hasReturned k) :
    .returned p k ∈ config.shared.rest := by
  induction run with
  | nil =>
      simp only [initialSingle, initialCollective,
        SingleProcess.hasReturned] at returned
      omega
  | snoc before step induction =>
      obtain ⟨-, kept, returns⟩ := single_step_calls step p
      rcases returns k returned with earlier | now
      · exact kept _ (induction earlier)
      · exact now

/-- How far a process is from its return from the `k`-th call. -/
def singleRank (k left : Nat) (process : SingleProcess) : Nat :=
  if left < k then
    match process.pc with
    | .fetchAdd => 7
    | .loadThreads _ => 6
    | .reset _ => 5
    | .func => 4
    | .inFunc => 3
    | _ => 2
  else if left = k ∧ process.pc = .leaving then 1
  else 0

/-- An access of `EMSsingleTask` brings a process nearer to the barrier. -/
private theorem EMSsingleTask_rank {bufInt32 : ControlBlock} {pc : SinglePc}
    (isTask : pc.isTask = true)
    (k left calls : Nat) :
    singleRank k left ⟨(EMSsingleTask bufInt32 pc).2, calls⟩ <
      singleRank k left ⟨pc, calls⟩ ∨
      singleRank k left ⟨(EMSsingleTask bufInt32 pc).2, calls⟩ =
        singleRank k left ⟨pc, calls⟩ ∧
        singleRank k left ⟨pc, calls⟩ = 0 := by
  by_cases early : left < k
  · left
    cases pc with
    | fetchAdd => simp [EMSsingleTask, singleRank, early]
    | loadThreads retval =>
        simp only [EMSsingleTask, SinglePc.decide, singleRank, if_pos early]
        split_ifs <;> simp
    | reset retval =>
        simp only [EMSsingleTask, SinglePc.decide, singleRank, if_pos early]
        split_ifs <;> simp
    | _ => cases isTask
  · right
    cases pc with
    | fetchAdd => simp [EMSsingleTask, singleRank, early]
    | loadThreads retval =>
        simp only [EMSsingleTask, SinglePc.decide, singleRank, if_neg early]
        split_ifs <;> simp_all
    | reset retval =>
        simp only [EMSsingleTask, SinglePc.decide, singleRank, if_neg early]
        split_ifs <;> simp_all
    | _ => cases isTask

/-- What is reached by processes that have all called `single` so often. -/
def SingleReached (k : Nat)
    (config : CollectiveConfig N (List (SingleEvent N)) SingleProcess) : Prop :=
  (∃ trace, Run (CollectiveStep (single N)) (initialSingle N) trace config) ∧
    ∀ p, k ≤ (config.control p).state.calls

theorem SingleReached.invariant {k : Nat} (positive : 0 < N)
    (reached : SingleReached k config) :
    config.rounds.InRound ∧ SingleInvariant config.rounds := by
  obtain ⟨⟨trace, run⟩, -⟩ := reached
  obtain ⟨labels, rounds⟩ := collective_rounds positive run
  exact Client.invariant SingleInvariant
    (fun _ _ _ => SingleInvariant.step positive) rounds
    initialSingle_invariant

/-- The code of `single` brings a process nearer to its barrier, or to the
return. -/
private theorem SingleReached.code {k : Nat} (positive : 0 < N)
    {p : Fin N} {process : BarrierProcess} {state state' : SingleProcess}
    {act : SingleAct} {bufInt32 : ControlBlock} {rest : List (SingleEvent N)}
    (reached : SingleReached k config)
    (here : config.control p = ⟨process, state⟩)
    (outside : process.pc = .outside)
    (moves : (single N).code p
      (config.shared.barrier.bufInt32, config.shared.rest) state act
      (bufInt32, rest) state') :
    singleRank k process.returned state' <
        singleRank k process.returned state ∨
      singleRank k process.returned state' =
          singleRank k process.returned state ∧
        (singleRank k process.returned state = 0 ∨
          ¬ True ∧ (state.pc ≠ .outside → state'.pc ≠ .outside)) := by
  have placed := (reached.invariant positive).2.placed p
  have called := reached.2 p
  rw [rounds_member_outside here outside] at placed
  rw [here] at called
  generalize process.returned = left at placed ⊢
  cases moves with
  | @call _ calls =>
      obtain ⟨-, same⟩ : _ ∧ calls = left := placed
      simp only at called
      right
      have late : ¬ left < k := by omega
      simp [singleRank, late]
  | @access _ _ pc calls isTask =>
      rcases EMSsingleTask_rank isTask k left calls with less | ⟨equal, done⟩
      · exact .inl less
      · exact .inr ⟨equal, .inl done⟩
  | @start _ _ calls =>
      by_cases early : left < k
      · left
        simp [singleRank, early]
      · right
        simp [singleRank, early]
  | @finish _ _ calls =>
      by_cases early : left < k
      · left
        simp [singleRank, early]
      · right
        simp [singleRank, early]
  | @ret _ _ calls =>
      obtain ⟨-, same, -⟩ : _ ∧ calls = left ∧ 0 < left := placed
      simp only at called
      have late : ¬ left < k := by omega
      by_cases last : left = k
      · left
        simp [singleRank, last]
      · right
        simp [singleRank, late, last]

/-- Where those who are not through all stand in the barrier or outside of it,
all are in the barrier. -/
private theorem SingleReached.together {k : Nat} (positive : 0 < N)
    (reached : SingleReached k config)
    (stand : ∀ p, config.rank (fun _ => singleRank k) p = 0 ∨
      config.waits p ∨
      (config.control p).barrier.pc = .outside ∧
        ¬ (config.control p).state.pc ≠ .outside) :
    (∀ p, config.rank (fun _ => singleRank k) p = 0) ∨
      ∀ p, config.waits p := by
  obtain ⟨inRound, invariant⟩ := reached.invariant positive
  have waits : ∀ p, config.rank (fun _ => singleRank k) p ≠ 0 →
      config.waits p := by
    intro p some
    rcases stand p with done | waiting | ⟨outside, notReady⟩
    · exact absurd done some
    · exact waiting
    · have placed := invariant.placed p
      have called := reached.2 p
      simp only [ne_eq, not_not] at notReady
      simp only [CollectiveConfig.rounds, CollectiveProcess.member,
        SinglePlaced,
        notReady] at placed
      have late : ¬ (config.control p).barrier.returned < k := by omega
      simp [CollectiveConfig.rank, singleRank, late, notReady] at some
  by_cases finished : ∀ p, config.rank (fun _ => singleRank k) p = 0
  · exact .inl finished
  · right
    obtain ⟨p, some⟩ := not_forall.mp finished
    intro q
    apply waits
    -- the round is that of a process that waits, and nobody is beyond it
    have waiting := waits p some
    have status := CollectiveConfig.waits_member waiting
    have atBarrier : (config.control p).state.pc = .barrier :=
      SinglePlaced.barrier (invariant.placed p) (by simp [status])
    have early : (config.control p).barrier.returned < k := by
      simp only [CollectiveConfig.rank, singleRank, atBarrier] at some
      by_contra late
      simp [late] at some
    have behind := CollectiveConfig.behind_waiting inRound waiting q
    simp only [CollectiveConfig.rank, singleRank,
      if_pos (behind.trans_lt early)]
    split <;> simp

/-- The code of `single` brings everybody to its barrier, and to the return. -/
theorem single_advances (positive : 0 < N) (k : Nat) :
    (single N).Advances (fun _ _ process => process.pc ≠ .outside)
    (fun _ => True)
      (SingleReached k) (fun _ => singleRank k) where
  keeps := by
    rintro config label next ⟨⟨trace, run⟩, called⟩ step
    exact ⟨⟨_, run.snoc step⟩,
      fun p => (called p).trans (single_step_calls step p).1⟩
  barrier := by
    rintro config ⟨⟨trace, run⟩, -⟩
    exact collective_barrier positive run
  code := fun reached here outside moves =>
    ⟨fun _ _ _ ready => ready,
      SingleReached.code positive reached here outside moves⟩
  resume := by
    intro config p process state retval reached here done
    have placed := (reached.invariant positive).2.placed p
    have called := reached.2 p
    rw [rounds_member_done here done] at placed
    rw [here] at called
    obtain ⟨pc, calls⟩ := state
    obtain rfl : pc = .barrier := SinglePlaced.barrier placed (by simp)
    have same : calls = process.returned + 1 := placed
    by_cases early : process.returned < k
    · left
      have last : process.returned + 1 = k := by simp only at called; omega
      simp [single, singleRank, early, last]
    · right
      have late : ¬ process.returned + 1 < k := by omega
      have beyond : process.returned + 1 ≠ k := by omega
      simp [single, singleRank, early, late, beyond]
  together := fun reached stand =>
    SingleReached.together positive reached stand

theorem SingleReached.hasReturned {k : Nat} (positive : 0 < N)
    (reached : SingleReached k config)
    {p : Fin N} (done : config.rank (fun _ => singleRank k) p = 0) :
    (config.control p).state.hasReturned k := by
  have placed := (reached.invariant positive).2.placed p
  have called := reached.2 p
  simp only [CollectiveConfig.rounds, CollectiveProcess.member,
    SinglePlaced] at placed
  simp only [CollectiveConfig.rank, singleRank] at done
  unfold SingleProcess.hasReturned
  by_cases early : (config.control p).barrier.returned < k
  · rw [if_pos early] at done
    split at done <;> cases done
  · rw [if_neg early] at done
    cases pcEq : (config.control p).state.pc with
    | outside =>
        rw [pcEq] at placed
        exact (Nat.lt_or_eq_of_le called).imp id fun same => ⟨same, rfl⟩
    | leaving =>
        simp only [pcEq, and_true, ite_eq_right_iff, one_ne_zero,
          imp_false] at placed done
        omega
    | _ =>
        simp only [pcEq] at placed
        omega

end Progress

/-- In every run of processes that call `single` again and again, every function
is executed once, one after the other. -/
theorem single_once (positive : 0 < N)
    {config : CollectiveConfig N (List (SingleEvent N)) SingleProcess}
    {trace : List (Fin N × CollectiveAct SingleAct)}
    (run : Run (CollectiveStep (single N)) (initialSingle N) trace config) :
    SingleSafe config := by
  obtain ⟨labels, rounds⟩ := collective_rounds positive run
  obtain ⟨inRound, invariant⟩ := Client.invariant SingleInvariant
    (fun _ _ _ => SingleInvariant.step positive) rounds initialSingle_invariant
  have history : SingleHistory config.shared.rest config.rounds.round :=
    invariant.history
  have counts := invariant.counted.begins
  constructor
  · intro k
    rcases Nat.eq_zero_or_pos k with rfl | some
    · rw [(history.future 0 (.inl rfl)).1]
      exact Nat.zero_le 1
    rcases Nat.lt_trichotomy k (config.rounds.round + 1) with past |
      rfl | future
    · exact (history.past k some (by omega)).1.le
    · have bound : (if tally singlePassed config.rounds.members = 0 then 0
          else 1) ≤ 1 := by
        split_ifs <;> omega
      exact (Nat.le_add_left _ _).trans (counts.trans_le bound)
    · rw [(history.future k (.inr future)).1]
      exact Nat.zero_le 1
  · intro p k returned
    obtain ⟨some, past⟩ := history.returned p k returned
    exact (history.past k some past).1
  · exact history.ordered
  · intro outside
    have none : ∀ weight : SingleMember → Nat,
        (∀ status left calls, weight ⟨status, left, ⟨.outside, calls⟩⟩ = 0) →
        tally weight config.rounds.members = 0 := by
      intro weight free
      apply tally_zero
      intro p
      have same : (config.rounds.members p).state =
          ⟨.outside, (config.rounds.members p).state.calls⟩ := by
        rw [← outside p]
        rfl
      exact (congrArg (fun state => weight ⟨_, _, state⟩) same).trans
        (free _ _ _)
    have counter := invariant.counted.counter
    rw [none (singleClosing N) fun _ _ _ => rfl,
      none singlePassed fun _ _ _ => rfl, if_pos rfl,
      ite_self] at counter
    exact counter
  · rintro k some called future rfl fair
    obtain ⟨j, -, reached, done⟩ := (single_advances positive k).eventually fair
      (⟨⟨trace, run⟩, called⟩ : SingleReached k (future 0))
    obtain ⟨trace', run'⟩ := reached.1
    have returned :=
      fun p => single_returned run' some (reached.hasReturned positive (done p))
    obtain ⟨-, invariant'⟩ := reached.invariant positive
    have past := (invariant'.history.returned ⟨0, positive⟩ k (returned _)).2
    exact ⟨j, (invariant'.history.past k some past).1, returned⟩

/-! ## A run -/

/-- The step of the code that a process takes, where it can take it. -/
def singleNext (p : Fin N) (memory : ControlBlock × List (SingleEvent N)) :
    SingleProcess → SingleAct →
      Option ((ControlBlock × List (SingleEvent N)) × SingleProcess)
  | ⟨.outside, calls⟩, .call => some (memory, ⟨.fetchAdd, calls + 1⟩)
  | ⟨.func, calls⟩, .start =>
      some ((memory.1, memory.2 ++ [.began p calls]), ⟨.inFunc, calls⟩)
  | ⟨.inFunc, calls⟩, .finish =>
      some ((memory.1, memory.2 ++ [.finished p calls]), ⟨.barrier, calls⟩)
  | ⟨.leaving, calls⟩, .ret =>
      some ((memory.1, memory.2 ++ [.returned p calls]), ⟨.outside, calls⟩)
  | ⟨pc, calls⟩, .access =>
      if pc.isTask = true then
        some (((EMSsingleTask memory.1 pc).1, memory.2),
          ⟨(EMSsingleTask memory.1 pc).2, calls⟩)
      else none
  | _, _ => none

private theorem singleNext_code {p : Fin N}
    {memory memory' : ControlBlock × List (SingleEvent N)}
    {process process' : SingleProcess} {act : SingleAct}
    (taken : singleNext p memory process act = some (memory', process')) :
    SingleCode p memory process act memory' process' := by
  unfold singleNext at taken
  split at taken
  case h_1 =>
    cases taken
    exact .call
  case h_2 =>
    cases taken
    exact .start
  case h_3 =>
    cases taken
    exact .finish
  case h_4 =>
    cases taken
    exact .ret
  case h_5 =>
    obtain ⟨isTask, moved⟩ := Option.ite_none_right_eq_some.mp taken
    cases moved
    exact .access isTask
  case h_6 => cases taken

/-- Process 1 executes the first function while process 0 waits in the barrier,
and process 0 the second. -/
def twoRegions : List (Fin 2 × CollectiveAct SingleAct) :=
  [(1, .code .call), (0, .code .call), (1, .code .access), (0, .code .access),
    (0, .code .access), (0, .code .access), (1, .code .access),
    (0, .barrier (.call 9)),
    (0, .barrier .access), (0, .barrier .access), (1, .code .start),
    (1, .code .finish),
    (1, .barrier (.call 9)), (1, .barrier .access), (1, .barrier .access),
    (1, .barrier .access), (1, .barrier .access), (0, .barrier .access),
    (0, .barrier (.ret 9)), (0, .code .ret), (0, .code .call),
    (0, .code .access),
    (0, .code .access), (0, .code .start), (1, .barrier (.ret 9)),
    (1, .code .ret),
    (0, .code .finish)]

theorem single_once_twoRegions :
    ∃ config : CollectiveConfig 2 (List (SingleEvent 2)) SingleProcess,
      Run (CollectiveStep (single 2)) (initialSingle 2) twoRegions config ∧
        config.shared.rest =
          [.began 1 1, .finished 1 1, .returned 0 1, .began 0 2,
          .returned 1 1, .finished 0 2] ∧ SingleSafe config := by
  obtain ⟨config, run, checked⟩ :=
    exists_collective (single 2) singleNext (·.pc == .barrier)
    singleNext_code (fun there => (beq_iff_eq.mp there))
      (initialSingle 2) twoRegions
    (fun config => config.shared.rest =
      [.began 1 1, .finished 1 1, .returned 0 1, .began 0 2,
      .returned 1 1, .finished 0 2]) (by decide)
  exact ⟨config, run, of_decide_eq_true checked, single_once (by decide) run⟩

end EMS
