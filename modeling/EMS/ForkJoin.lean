import EMS.BarrierProgress

/-!
# Fork-join regions of JavaScript

`EMSparallel` sends every other task a function with its arguments, and then a
function that calls the barrier.  It calls the function itself, and the barrier.
A task handles its messages one after the other, in the order in which they
were sent.
-/

namespace EMS

open Interleaving BulkSynchronous

/-! ## The code -/

section Code

variable {φ α : Type}

/-- A call of `EMSparallel`: the function is the last of its arguments. -/
structure ParallelCall (φ α : Type) where
  func : φ
  args : List α
  deriving DecidableEq, Repr

/-- The function of a message: that of the user, or one that calls the
barrier. -/
inductive Handler (φ : Type) where
  | user (func : φ)
  | barrier
  deriving DecidableEq, Repr

structure Message (φ α : Type) where
  taskN : Nat
  args : List α
  func : Handler φ
  deriving DecidableEq, Repr

/-- Control points of `EMSparallel` and of the handler of a task.  `left` is the
number of barriers that the function has still to call. -/
inductive ForkPc where
  | outside
  | sendFunc (taskN : Nat)
  | sendBarrier (taskN : Nat)
  | func (left : Nat)
  | join
  | leaving
  | receive
  | handler
  deriving DecidableEq, Repr

/-- A task, with the number of functions that it has begun. -/
structure ForkProcess where
  pc : ForkPc
  inParallelContext : Bool
  begun : Nat
  deriving DecidableEq, Repr

/-- What happens to the function of the `k`-th region. -/
inductive ForkEvent (N : Nat) (φ α : Type) where
  | began (p : Fin N) (k : Nat) (call : ParallelCall φ α)
  | finished (p : Fin N) (k : Nat)
  | returned (k : Nat)
  deriving DecidableEq

/-- The messages that are on their way to each task, and what happened. -/
structure ForkMemory (N : Nat) (φ α : Type) where
  messages : Fin N → List (Message φ α)
  log : List (ForkEvent N φ α)

inductive ForkAct where
  | call
  | send
  | start
  | work
  | finish
  | receive
  | skipBarrier
  | ret

variable {N : Nat}

/-- `task.send`: the task with the index `taskN` is process `taskN + 1`. -/
def ForkMemory.send (memory : ForkMemory N φ α) (taskN : Nat) (args : List α)
    (func : Handler φ) :
    ForkMemory N φ α :=
  { memory with
    messages := fun p =>
      if p.val = taskN + 1 then memory.messages p ++ [⟨taskN + 1, args, func⟩]
      else memory.messages p }

def ForkMemory.record (memory : ForkMemory N φ α) (event : ForkEvent N φ α) :
    ForkMemory N φ α :=
  { memory with log := memory.log ++ [event] }

/-- The control point after a barrier. -/
def ForkProcess.resume (process : ForkProcess) : ForkProcess :=
  match process.pc with
  | .func (left + 1) => { process with pc := .func left }
  | .join => { process with pc := .leaving }
  | .handler => { process with pc := .receive }
  | _ => process

def ForkPc.callsBarrier : ForkPc → Bool
  | .func (_ + 1) | .join | .handler => true
  | _ => false

/-- The code of the master, which is process 0, and of the other tasks.  The
master calls `EMSparallel` with `regions 0`, `regions 1` and so on, and a
function calls the barrier `barriers call` times.  Outside of a parallel context
the wrapper `EMSbarrier` does nothing. -/
inductive ForkCode (regions : Nat → ParallelCall φ α)
    (barriers : ParallelCall φ α → Nat)
    (p : Fin N) : ControlBlock × ForkMemory N φ α → ForkProcess → ForkAct →
      ControlBlock × ForkMemory N φ α → ForkProcess → Prop where
  | call {memory : ControlBlock × ForkMemory N φ α} {context : Bool}
      {begun : Nat} :
      p.val = 0 →
      ForkCode regions barriers p memory ⟨.outside, context, begun⟩ .call
        memory ⟨.sendFunc 0, true, begun⟩
  | sendFunc {bufInt32 : ControlBlock} {memory : ForkMemory N φ α}
      {context : Bool}
      {begun taskN : Nat} :
      taskN + 1 < N →
      ForkCode regions barriers p (bufInt32, memory) ⟨.sendFunc taskN, context,
        begun⟩ .send
        (bufInt32, memory.send taskN (regions begun).args
          (.user (regions begun).func))
        ⟨.sendBarrier taskN, context, begun⟩
  | sendBarrier {bufInt32 : ControlBlock} {memory : ForkMemory N φ α}
      {context : Bool}
      {begun taskN : Nat} :
      ForkCode regions barriers p (bufInt32, memory)
        ⟨.sendBarrier taskN, context, begun⟩ .send
        (bufInt32, memory.send taskN [] .barrier)
          ⟨.sendFunc (taskN + 1), context, begun⟩
  | start {bufInt32 : ControlBlock} {memory : ForkMemory N φ α} {context : Bool}
      {begun taskN : Nat} :
      ¬ taskN + 1 < N →
      ForkCode regions barriers p (bufInt32, memory) ⟨.sendFunc taskN, context,
        begun⟩ .start
        (bufInt32, memory.record (.began p begun (regions begun)))
        ⟨.func (barriers (regions begun)), context, begun + 1⟩
  | work {memory : ControlBlock × ForkMemory N φ α} {context : Bool}
      {begun left : Nat} :
      ForkCode regions barriers p memory ⟨.func left, context, begun⟩ .work
        memory ⟨.func left, context, begun⟩
  | finish {bufInt32 : ControlBlock} {memory : ForkMemory N φ α}
      {context : Bool} {begun : Nat} :
      ForkCode regions barriers p (bufInt32, memory)
        ⟨.func 0, context, begun⟩ .finish
        (bufInt32, memory.record (.finished p (begun - 1)))
        ⟨if p.val = 0 then .join else .receive, context, begun⟩
  | receiveFunc {bufInt32 : ControlBlock} {memory : ForkMemory N φ α}
      {context : Bool}
      {begun taskN : Nat} {args : List α} {func : φ}
      {rest : List (Message φ α)} :
      memory.messages p = ⟨taskN, args, .user func⟩ :: rest →
      ForkCode regions barriers p (bufInt32, memory)
        ⟨.receive, context, begun⟩ .receive
        (bufInt32, ForkMemory.record
          { memory with messages := Function.update memory.messages p rest }
          (.began p begun ⟨func, args⟩))
        ⟨.func (barriers ⟨func, args⟩), context, begun + 1⟩
  | receiveBarrier {bufInt32 : ControlBlock} {memory : ForkMemory N φ α}
      {context : Bool}
      {begun taskN : Nat} {args : List α} {rest : List (Message φ α)} :
      memory.messages p = ⟨taskN, args, .barrier⟩ :: rest →
      ForkCode regions barriers p (bufInt32, memory)
        ⟨.receive, context, begun⟩ .receive
        (bufInt32, { memory
          with messages := Function.update memory.messages p rest })
        ⟨.handler, context, begun⟩
  | skipBarrier {memory : ControlBlock × ForkMemory N φ α}
      {process : ForkProcess} :
      process.pc.callsBarrier = true → process.inParallelContext = false →
      ForkCode regions barriers p memory process .skipBarrier memory
        process.resume
  | ret {bufInt32 : ControlBlock} {memory : ForkMemory N φ α} {context : Bool}
      {begun : Nat} :
      ForkCode regions barriers p (bufInt32, memory)
        ⟨.leaving, context, begun⟩ .ret
        (bufInt32, memory.record (.returned (begun - 1)))
          ⟨.outside, false, begun⟩

/-- The master and the tasks. -/
def forkJoin (N : Nat) (regions : Nat → ParallelCall φ α)
    (barriers : ParallelCall φ α → Nat) :
    BarrierClient N (ForkMemory N φ α) ForkProcess ForkAct where
  code := ForkCode regions barriers
  atBarrier process :=
    process.pc.callsBarrier = true ∧ process.inParallelContext = true
  resume := ForkProcess.resume
  apart := by
    intro p memory state act memory' state' moved word _
    cases moved <;> rfl

/-- The master is outside of a parallel region.  The stub of a task has required
`ems` without a threading type, which is a parallel context. -/
def initialForkJoin (N : Nat) (φ α : Type) :
    CollectiveConfig N (ForkMemory N φ α) ForkProcess :=
  initialCollective N ⟨fun _ => [], []⟩ fun p =>
    if p.val = 0 then ⟨.outside, false, 0⟩ else ⟨.receive, true, 0⟩

/-! ## The promise -/

/-- What must have happened before an event, and what must not. -/
def ForkEvent.After (regions : Nat → ParallelCall φ α)
    (before : List (ForkEvent N φ α)) :
    ForkEvent N φ α → Prop
  | .began p k call =>
      call = regions k ∧ (∀ call, .began p k call ∉ before) ∧
        -- all tasks have finished the region before
        (k = 0 ∨ ∀ q, .finished q (k - 1) ∈ before)
  | .finished p k => .began p k (regions k) ∈ before ∧ .finished p k ∉ before
  | .returned k => ∀ q, .finished q k ∈ before

/-- The number of calls of `EMSparallel` that the master has made. -/
def ForkProcess.calls (process : ForkProcess) : Nat :=
  match process.pc with
  | .sendFunc _ | .sendBarrier _ => process.begun + 1
  | _ => process.begun

/-- The process need not wait: the master has called `EMSparallel`, a task has a
message. -/
def forkReady (memory : ForkMemory N φ α) (p : Fin N)
    (process : ForkProcess) : Prop :=
  match process.pc with
  | .outside => False
  | .receive => memory.messages p ≠ []
  | _ => True

/-- A step that brings a function to its end or to its next barrier. -/
def ForkAct.counts : ForkAct → Prop
  | .work => False
  | _ => True

/-- A fair run without timeouts, in which no function works for ever. -/
abbrev FairForkRun (regions : Nat → ParallelCall φ α)
    (barriers : ParallelCall φ α → Nat)
    (future : Nat → CollectiveConfig N (ForkMemory N φ α) ForkProcess) : Prop :=
  FairCollectiveRun (forkJoin N regions barriers) forkReady
    ForkAct.counts future

/-- What `EMSparallel` promises. -/
structure ForkSafe (regions : Nat → ParallelCall φ α)
    (barriers : ParallelCall φ α → Nat)
    (config : CollectiveConfig N (ForkMemory N φ α) ForkProcess) : Prop where
  /-- No function is begun twice, or before the last is finished everywhere. -/
  ordered : Ordered (ForkEvent.After regions) config.shared.rest.log
  /-- When the master has returned, every task has executed the function. -/
  joined : ∀ k, .returned k ∈ config.shared.rest.log → ∀ p,
    .began p k (regions k) ∈ config.shared.rest.log ∧
      .finished p k ∈ config.shared.rest.log
  /-- When the master has called `EMSparallel`, it will have returned. -/
  completes : ∀ root : Fin N, root.val = 0 → ∀ k,
    k < (config.control root).state.calls →
    ∀ future, future 0 = config → FairForkRun regions barriers future →
      ∃ j, .returned k ∈ (future j).shared.rest.log

end Code

/-! ## Barriers and messages of the regions -/

section Regions

variable {φ α : Type} (regions : Nat → ParallelCall φ α)
  (barriers : ParallelCall φ α → Nat)

/-- The number of barriers before the `k`-th region. -/
def joins : Nat → Nat
  | 0 => 0
  | k + 1 => joins k + barriers (regions k) + 1

/-- The `n`-th message to a process. -/
def messageOf (p n : Nat) : Message φ α :=
  if n % 2 = 0 then ⟨p, (regions (n / 2)).args, .user (regions (n / 2)).func⟩
  else ⟨p, [], .barrier⟩

/-- The messages to a process from one on and up to another. -/
def messagesOf (p first last : Nat) : List (Message φ α) :=
  (List.range' first (last - first)).map (messageOf regions p)

variable {regions barriers}

theorem joins_le {k k' : Nat} (less : k < k') :
    joins regions barriers k + barriers (regions k) + 1 ≤
      joins regions barriers k' := by
  induction less with
  | refl => exact le_rfl
  | step _ induction => exact induction.trans (by simp only [joins]; omega)

theorem le_of_joins {k k' left : Nat} (enough : joins regions barriers k ≤ left)
    (inside : left ≤ joins regions barriers k' + barriers (regions k')) :
    k ≤ k' := by
  by_contra less
  have bound := @joins_le φ α regions barriers k' k (by omega)
  omega

private theorem messagesOf_append {p first last : Nat} (order : first ≤ last) :
    messagesOf regions p first last ++ [messageOf regions p last] =
      messagesOf regions p first (last + 1) := by
  have more : last + 1 - first = (last - first) + 1 := by omega
  have at_last : first + (last - first) = last := by omega
  simp only [messagesOf, more, List.range'_concat, List.map_append,
    List.map_cons, List.map_nil,
    Nat.one_mul, at_last]

theorem messagesOf_cons {p first last : Nat} {message : Message φ α}
    {rest : List (Message φ α)}
    (split : messagesOf regions p first last = message :: rest) :
    first < last ∧ message = messageOf regions p first ∧
      rest = messagesOf regions p (first + 1) last := by
  have more : first < last := by
    by_contra none
    have zero : last - first = 0 := by omega
    simp [messagesOf, zero] at split
  have count : last - first = (last - (first + 1)) + 1 := by omega
  rw [messagesOf, count, List.range'_succ, List.map_cons] at split
  obtain ⟨head, tail⟩ := List.cons.inj split
  exact ⟨more, head.symm, tail.symm⟩

private theorem messageOf_user {p n taskN : Nat} {args : List α} {func : φ}
    (same : ⟨taskN, args, .user func⟩ = messageOf regions p n) :
    n % 2 = 0 ∧ ParallelCall.mk func args = regions (n / 2) := by
  unfold messageOf at same
  split_ifs at same with even
  · obtain ⟨-, rfl, func⟩ := Message.mk.inj same
    rw [Handler.user.inj func]
    exact ⟨even, rfl⟩
  · cases (Message.mk.inj same).2.2

private theorem messageOf_barrier {p n taskN : Nat} {args : List α}
    (same : ⟨taskN, args, .barrier⟩ = messageOf regions p n) : n % 2 = 1 := by
  unfold messageOf at same
  split_ifs at same with even
  · cases (Message.mk.inj same).2.2
  · omega

end Regions

/-! ## The invariant -/

section Invariant

variable {φ α : Type} {N : Nat} (regions : Nat → ParallelCall φ α)
  (barriers : ParallelCall φ α → Nat)

abbrev ForkMember := Member ForkProcess

/-- The number of functions that a process has finished. -/
def ForkProcess.completed (process : ForkProcess) : Nat :=
  match process.pc with
  | .func _ => process.begun - 1
  | _ => process.begun

/-- The number of messages that the master has sent to a process. -/
def ForkProcess.sent (process : ForkProcess) (p : Nat) : Nat :=
  match process.pc with
  | .sendFunc taskN =>
      if p ≤ taskN then 2 * process.begun + 2 else 2 * process.begun
  | .sendBarrier taskN =>
      if p ≤ taskN then 2 * process.begun + 2
      else if p = taskN + 1 then 2 * process.begun + 1 else 2 * process.begun
  | _ => 2 * process.begun

/-- The number of messages that a process has received. -/
def forkReceived (member : ForkMember) : Nat :=
  match member.state.pc with
  | .func _ => 2 * member.state.begun - 1
  | .receive =>
      if member.left = joins regions barriers member.state.begun then
        2 * member.state.begun
      else 2 * member.state.begun - 1
  | _ => 2 * member.state.begun

/-- The number of barriers that a process has left, by where it is. -/
def ForkLocated (member : ForkMember) : Prop :=
  let begun := member.state.begun
  match member.state.pc with
  | .outside | .sendFunc _ | .sendBarrier _ =>
      member.status = .running ∧ member.left = joins regions barriers begun
  | .func left => ∃ k, begun = k + 1 ∧
      member.left + left = joins regions barriers k + barriers (regions k) ∧
      (member.status ≠ .running → 0 < left)
  | .join | .handler => ∃ k, begun = k + 1 ∧
      member.left = joins regions barriers k + barriers (regions k)
  | .leaving =>
      member.status = .running ∧ 0 < begun ∧
        member.left = joins regions barriers begun
  | .receive => member.status = .running ∧
      (member.left = joins regions barriers begun ∨ ∃ k, begun = k + 1 ∧
        member.left = joins regions barriers k + barriers (regions k))

/-- Where the master can be, and where a task. -/
def ForkRole (p : Fin N) (process : ForkProcess) : Prop :=
  match process.pc with
  | .outside => p.val = 0
  | .sendFunc taskN =>
      p.val = 0 ∧ taskN + 1 ≤ N ∧ process.inParallelContext = true
  | .sendBarrier taskN =>
      p.val = 0 ∧ taskN + 1 < N ∧ process.inParallelContext = true
  | .func _ => process.inParallelContext = true
  | .join | .leaving => p.val = 0 ∧ process.inParallelContext = true
  | .receive | .handler => p.val ≠ 0 ∧ process.inParallelContext = true

/-- The messages on their way to a task. -/
def ForkQueued (p : Fin N) (messages : List (Message φ α)) (member : ForkMember)
    (master : ForkProcess) : Prop :=
  forkReceived regions barriers member ≤ master.sent p ∧
    messages = messagesOf regions p (forkReceived regions barriers member)
      (master.sent p)

abbrev ForkState (N : Nat) (φ α : Type) :=
  State (Fin N) (ControlBlock × ForkMemory N φ α) ForkProcess

/-- What has happened to the functions, as far as each process has come. -/
structure ForkHistory (log : List (ForkEvent N φ α))
    (processes : Fin N → ForkProcess) : Prop where
  began : ∀ p k call, .began p k call ∈ log → k < (processes p).begun
  started : ∀ p k, k < (processes p).begun → .began p k (regions k) ∈ log
  finished : ∀ p k, .finished p k ∈ log ↔ k < (processes p).completed
  ordered : Ordered (ForkEvent.After regions) log

structure ForkInvariant (state : ForkState N φ α) : Prop where
  located : ∀ p, ForkLocated regions barriers (state.members p)
  roles : ∀ p, ForkRole p (state.members p).state
  queued : ∀ root : Fin N, root.val = 0 → ∀ p : Fin N, p.val ≠ 0 →
    ForkQueued regions barriers p (state.shared.2.messages p) (state.members p)
      (state.members root).state
  history : ForkHistory regions state.shared.2.log fun p =>
    (state.members p).state

variable {regions barriers}

theorem initialForkJoin_invariant :
    ForkInvariant regions barriers (initialForkJoin N φ α).rounds := by
  have state : ∀ p, ((initialForkJoin N φ α).rounds.members p) =
      ⟨.running, 0, if p.val = 0 then ⟨.outside, false, 0⟩
          else ⟨.receive, true, 0⟩⟩ :=
    fun _ => rfl
  constructor
  · intro p
    rw [state]
    split_ifs
    · exact ⟨rfl, rfl⟩
    · exact ⟨rfl, .inl rfl⟩
  · intro p
    rw [state]
    split_ifs with root
    · exact root
    · exact ⟨root, rfl⟩
  · intro root isRoot p notRoot
    rw [state, state, if_pos isRoot, if_neg notRoot]
    exact ⟨le_rfl, rfl⟩
  · have none : ∀ p, ((initialForkJoin N φ α).rounds.members p).state.begun =
        0 ∧
        ((initialForkJoin N φ α).rounds.members p).state.completed = 0 := by
      intro p
      rw [state]
      split_ifs <;> exact ⟨rfl, rfl⟩
    constructor
    · intro p k call member
      cases member
    · intro p k less
      rw [(none p).1] at less
      exact absurd less (Nat.not_lt_zero k)
    · intro p k
      rw [(none p).2]
      exact ⟨fun member => (by cases member),
        fun less => absurd less (Nat.not_lt_zero k)⟩
    · exact Ordered.nil

/-- Once all barriers of a region are left, everybody has finished its
function. -/
theorem ForkInvariant.everybody {state : ForkState N φ α} {k : Nat}
    (invariant : ForkInvariant regions barriers state) (inRound : state.InRound)
    (done : state.round = joins regions barriers (k + 1)) (q : Fin N) :
    k < (state.members q).state.completed := by
  have located := invariant.located q
  have here := inRound q
  have next : joins regions barriers (k + 1) =
      joins regions barriers k + barriers (regions k) + 1 := rfl
  rw [done] at here
  generalize state.members q = member at located here
  obtain ⟨status, left, ⟨pc, context, begun⟩⟩ := member
  simp only [Member.InRound] at here
  -- a process that runs outside of its functions
  have running : status = .running → left = joins regions barriers begun →
      k < begun := by
    intro isRunning leftEq
    simp only [isRunning, reduceCtorEq, false_and, ne_eq,
      not_false_eq_true, true_and,
      false_or] at here
    exact le_of_joins (k := k + 1) here.ge (by omega)
  cases pc with
  | outside => exact running located.1 located.2
  | sendFunc => exact running located.1 located.2
  | sendBarrier => exact running located.1 located.2
  | leaving => exact running located.1 located.2.2
  | func remaining =>
      obtain ⟨k', beguns, total, inside⟩ := located
      simp only at beguns total inside
      have bound : k + 1 ≤ k' := by
        apply le_of_joins _ total.le
        rcases here with ⟨released, leftEq⟩ | ⟨-, leftEq⟩
        · have some := inside (by rw [released]; simp)
          omega
        · omega
      simp only [ForkProcess.completed]
      omega
  | join =>
      obtain ⟨k', beguns, leftEq⟩ := located
      simp only at beguns leftEq
      have bound : k ≤ k' := le_of_joins (by omega) leftEq.le
      simp only [ForkProcess.completed]
      omega
  | handler =>
      obtain ⟨k', beguns, leftEq⟩ := located
      simp only at beguns leftEq
      have bound : k ≤ k' := le_of_joins (by omega) leftEq.le
      simp only [ForkProcess.completed]
      omega
  | receive =>
      obtain ⟨isRunning, leftEq | ⟨k', beguns, leftEq⟩⟩ := located
      · exact running isRunning leftEq
      · simp only at beguns leftEq
        have bound : k ≤ k' := le_of_joins (by omega) leftEq.le
        simp only [ForkProcess.completed]
        omega

section History

variable {log : List (ForkEvent N φ α)}
  {processes : Fin N → ForkProcess} {p : Fin N}
  {process : ForkProcess}

/-- A process moves within its functions. -/
theorem ForkHistory.same (history : ForkHistory regions log processes)
    (begun : process.begun = (processes p).begun)
    (completed : process.completed = (processes p).completed) :
    ForkHistory regions log (Function.update processes p process) := by
  have still : ∀ q, (Function.update processes p process q).begun =
      (processes q).begun ∧
      (Function.update processes p process q).completed =
          (processes q).completed := by
    intro q
    by_cases same : q = p
    · subst same
      simpa using ⟨begun, completed⟩
    · simp [same]
  constructor
  · intro q k call member
    rw [(still q).1]
    exact history.began q k call member
  · intro q k less
    rw [(still q).1] at less
    exact history.started q k less
  · intro q k
    rw [(still q).2]
    exact history.finished q k
  · exact history.ordered

theorem ForkHistory.begins (history : ForkHistory regions log processes)
    (begun : process.begun = (processes p).begun + 1)
    (outside : (processes p).completed = (processes p).begun)
    (inside : process.completed = (processes p).begun)
    (together : (processes p).begun = 0 ∨ ∀ q,
      .finished q ((processes p).begun - 1) ∈ log) :
    ForkHistory regions
      (log ++ [.began p (processes p).begun (regions (processes p).begun)])
      (Function.update processes p process) := by
  constructor
  · intro q k call member
    by_cases same : q = p
    · subst same
      rw [Function.update_self, begun]
      rcases List.mem_append.mp member with earlier | last
      · exact (history.began q k call earlier).trans (Nat.lt_succ_self _)
      · obtain ⟨-, rfl, -⟩ := ForkEvent.began.inj (List.mem_singleton.mp last)
        exact Nat.lt_succ_self _
    · rw [Function.update_of_ne same]
      rcases List.mem_append.mp member with earlier | last
      · exact history.began q k call earlier
      · exact absurd (ForkEvent.began.inj (List.mem_singleton.mp last)).1 same
  · intro q k less
    by_cases same : q = p
    · subst same
      rw [Function.update_self, begun] at less
      rcases Nat.lt_succ_iff_lt_or_eq.mp less with earlier | rfl
      · exact List.mem_append_left _ (history.started q k earlier)
      · exact List.mem_append_right _ (List.mem_singleton_self _)
    · rw [Function.update_of_ne same] at less
      exact List.mem_append_left _ (history.started q k less)
  · intro q k
    have sameLog : .finished q k ∈ log ++ [.began p (processes p).begun
        (regions (processes p).begun)] ↔ .finished q k ∈ log := by
      simp
    rw [sameLog, history.finished]
    by_cases same : q = p
    · subst same
      rw [Function.update_self, inside, outside]
    · rw [Function.update_of_ne same]
  · apply history.ordered.append
    refine ⟨rfl, ?_, together⟩
    intro call member
    exact absurd (history.began p _ call member) (Nat.lt_irrefl _)

theorem ForkHistory.finishes {k : Nat}
    (history : ForkHistory regions log processes)
    (before : (processes p).begun = k + 1) (begun : process.begun = k + 1)
    (inside : (processes p).completed = k)
    (outside : process.completed = k + 1) :
    ForkHistory regions (log ++ [.finished p k])
      (Function.update processes p process) := by
  have still : ∀ q, (Function.update processes p process q).begun =
      (processes q).begun := by
    intro q
    by_cases same : q = p
    · subst same
      rw [Function.update_self, begun, before]
    · rw [Function.update_of_ne same]
  constructor
  · intro q j call member
    rw [still q]
    apply history.began q j call
    simpa using member
  · intro q j less
    rw [still q] at less
    exact List.mem_append_left _ (history.started q j less)
  · intro q j
    by_cases same : q = p
    · subst same
      rw [Function.update_self, outside, List.mem_append,
        history.finished, inside]
      simp only [List.mem_singleton, ForkEvent.finished.injEq, true_and]
      omega
    · have sameLog : .finished q j ∈ log ++ [.finished p k] ↔
          .finished q j ∈ log := by
        simp [same]
      rw [sameLog, history.finished, Function.update_of_ne same]
  · apply history.ordered.append
    constructor
    · exact history.started p k (by omega)
    · rw [history.finished, inside]
      exact Nat.lt_irrefl k

theorem ForkHistory.returns {k : Nat}
    (history : ForkHistory regions log processes)
    (begun : process.begun = (processes p).begun)
    (completed : process.completed = (processes p).completed)
    (together : ∀ q, .finished q k ∈ log) :
    ForkHistory regions (log ++ [.returned k])
      (Function.update processes p process) := by
  obtain ⟨began, started, finished, ordered⟩ := history.same begun completed
  constructor
  · intro q j call member
    apply began q j call
    simpa using member
  · intro q j less
    exact List.mem_append_left _ (started q j less)
  · intro q j
    have sameLog : .finished q j ∈ log ++ [.returned k] ↔
        .finished q j ∈ log := by
      simp
    rw [sameLog, finished]
  · exact ordered.append together

end History

/-! ### Every step -/

section Steps

variable {bufInt32 bufInt32' : ControlBlock}
  {messages messages' : Fin N → List (Message φ α)}
  {log log' : List (ForkEvent N φ α)} {members : Fin N → ForkMember}
    {round : Nat} {p : Fin N}
  {member : ForkMember}

theorem ForkInvariant.moves
    (invariant : ForkInvariant regions barriers ⟨(bufInt32, ⟨messages, log⟩),
      members, round⟩)
    (located : ForkLocated regions barriers member)
    (role : ForkRole p member.state)
    (queued : ∀ root : Fin N, root.val = 0 → ∀ q : Fin N, q.val ≠ 0 →
      ForkQueued regions barriers q (messages' q)
        (Function.update members p member q)
        (Function.update members p member root).state)
    (history : ForkHistory regions log'
      (Function.update (fun q => (members q).state) p member.state)) :
    ForkInvariant regions barriers
      ⟨(bufInt32', ⟨messages', log'⟩), Function.update members p member,
        round⟩ := by
  refine ⟨?_, ?_, queued, ?_⟩
  · intro q
    by_cases same : q = p
    · subst same
      simpa using located
    · simpa [same] using invariant.located q
  · intro q
    by_cases same : q = p
    · subst same
      simpa using role
    · simpa [same] using invariant.roles q
  · have states : (fun q => (Function.update members p member q).state) =
        Function.update (fun q => (members q).state) p member.state := by
      funext q
      by_cases same : q = p
      · subst same
        simp
      · simp [same]
    simp only [states]
    exact history

theorem ForkInvariant.queued_master
    (invariant : ForkInvariant regions barriers ⟨(bufInt32, ⟨messages, log⟩),
      members, round⟩)
    (isMaster : p.val = 0)
    (sends : ∀ q : Fin N, q.val ≠ 0 →
      ((members p).state.sent q = member.state.sent q ∧
        messages' q = messages q) ∨
      ((members p).state.sent q + 1 = member.state.sent q ∧
        messages' q = messages q ++
          [messageOf regions q ((members p).state.sent q)])) :
    ∀ root : Fin N, root.val = 0 → ∀ q : Fin N, q.val ≠ 0 →
      ForkQueued regions barriers q (messages' q)
        (Function.update members p member q)
        (Function.update members p member root).state := by
  intro root isRoot q notRoot
  obtain rfl : root = p := Fin.ext (isRoot.trans isMaster.symm)
  have different : q ≠ root := fun same => notRoot (same ▸ isMaster)
  rw [Function.update_self, Function.update_of_ne different]
  obtain ⟨order, queue⟩ := invariant.queued root isRoot q notRoot
  simp only at order queue
  rcases sends q notRoot with ⟨sent, same⟩ | ⟨sent, more⟩
  · rw [ForkQueued, ← sent, same]
    exact ⟨order, queue⟩
  · rw [ForkQueued, ← sent, more, queue]
    exact ⟨order.trans (Nat.le_succ _), messagesOf_append order⟩

theorem ForkInvariant.queued_task
    (invariant : ForkInvariant regions barriers ⟨(bufInt32, ⟨messages, log⟩),
      members, round⟩)
    (isTask : p.val ≠ 0) (others : ∀ q, q ≠ p → messages' q = messages q)
    (receives : ∀ sent, forkReceived regions barriers (members p) ≤ sent →
      messages p = messagesOf regions p
        (forkReceived regions barriers (members p)) sent →
      forkReceived regions barriers member ≤ sent ∧
        messages' p = messagesOf regions p
          (forkReceived regions barriers member) sent) :
    ∀ root : Fin N, root.val = 0 → ∀ q : Fin N, q.val ≠ 0 →
      ForkQueued regions barriers q (messages' q)
        (Function.update members p member q)
        (Function.update members p member root).state := by
  intro root isRoot q notRoot
  have different : root ≠ p := fun same => isTask (same ▸ isRoot)
  rw [Function.update_of_ne different]
  have before := invariant.queued root isRoot q notRoot
  by_cases same : q = p
  · subst same
    rw [Function.update_self]
    exact receives _ before.1 before.2
  · rw [Function.update_of_ne same, others q same]
    exact before

theorem ForkInvariant.queued_still
    (invariant : ForkInvariant regions barriers ⟨(bufInt32, ⟨messages, log⟩),
      members, round⟩)
    (sent : ∀ q : Fin N, q.val ≠ 0 → member.state.sent q =
      (members p).state.sent q)
    (received : p.val ≠ 0 →
      forkReceived regions barriers member =
        forkReceived regions barriers (members p)) :
    ∀ root : Fin N, root.val = 0 → ∀ q : Fin N, q.val ≠ 0 →
      ForkQueued regions barriers q (messages q)
        (Function.update members p member q)
        (Function.update members p member root).state := by
  by_cases isMaster : p.val = 0
  · exact invariant.queued_master isMaster fun q notRoot =>
      .inl ⟨(sent q notRoot).symm, rfl⟩
  · apply invariant.queued_task isMaster (fun _ _ => rfl)
    intro count order queue
    rw [received isMaster]
    exact ⟨order, queue⟩

/-! ### What a process does in its code -/

section Code

variable {left begun : Nat} {context : Bool}

theorem ForkInvariant.located_at
    (invariant : ForkInvariant regions barriers ⟨(bufInt32, ⟨messages, log⟩),
      members, round⟩)
    (here : members p = member) : ForkLocated regions barriers member :=
  here ▸ invariant.located p

theorem ForkInvariant.role_at
    (invariant : ForkInvariant regions barriers ⟨(bufInt32, ⟨messages, log⟩),
      members, round⟩)
    (here : members p = member) : ForkRole p member.state :=
  here ▸ invariant.roles p

theorem ForkInvariant.together
    (invariant : ForkInvariant regions barriers ⟨(bufInt32, ⟨messages, log⟩),
      members, round⟩)
    (inRound : State.InRound ⟨(bufInt32, ForkMemory.mk messages log), members,
      round⟩) {k : Nat}
    (leftEq : round = joins regions barriers k) : k = 0 ∨ ∀ q,
      .finished q (k - 1) ∈ log := by
  cases k with
  | zero => exact .inl rfl
  | succ k =>
      refine .inr fun q => ?_
      apply (invariant.history.finished q k).mpr
      exact invariant.everybody inRound leftEq q

theorem ForkInvariant.receiveFunc_at
    (invariant : ForkInvariant regions barriers ⟨(bufInt32, ⟨messages, log⟩),
      members, round⟩)
    (here : members p = ⟨.running, left, ⟨.receive, context, begun⟩⟩)
    {taskN : Nat}
    {args : List α} {func : φ} {rest : List (Message φ α)}
    (head : messages p = ⟨taskN, args, .user func⟩ :: rest) :
    left = joins regions barriers begun ∧ ParallelCall.mk func args =
      regions begun := by
  have located := invariant.located_at here
  obtain ⟨isTask, -⟩ := invariant.role_at here
  obtain ⟨-, queue⟩ := invariant.queued ⟨0, Fin.pos p⟩ rfl p isTask
  obtain ⟨-, message, -⟩ := messagesOf_cons (queue.symm.trans head)
  obtain ⟨even, same⟩ := messageOf_user message
  have leftEq : left = joins regions barriers begun := by
    rcases located.2 with leftEq | ⟨k, beguns, leftEq⟩
    · exact leftEq
    · simp only at beguns leftEq
      have before : left ≠ joins regions barriers begun := by
        rw [beguns, joins]
        omega
      simp only [here, forkReceived, before, if_false] at even
      omega
  have half : forkReceived regions barriers (members p) / 2 = begun := by
    simp only [here, forkReceived, leftEq, if_true]
    omega
  exact ⟨leftEq, half ▸ same⟩

theorem ForkInvariant.receiveBarrier_at
    (invariant : ForkInvariant regions barriers ⟨(bufInt32, ⟨messages, log⟩),
      members, round⟩)
    (here : members p = ⟨.running, left, ⟨.receive, context, begun⟩⟩)
    {taskN : Nat}
    {args : List α} {rest : List (Message φ α)}
    (head : messages p = ⟨taskN, args, .barrier⟩ :: rest) :
    ∃ k, begun = k + 1 ∧
      left = joins regions barriers k + barriers (regions k) := by
  have located := invariant.located_at here
  obtain ⟨isTask, -⟩ := invariant.role_at here
  obtain ⟨-, queue⟩ := invariant.queued ⟨0, Fin.pos p⟩ rfl p isTask
  obtain ⟨-, message, -⟩ := messagesOf_cons (queue.symm.trans head)
  have odd := messageOf_barrier message
  simp only [here, forkReceived] at odd
  rcases located.2 with leftEq | after
  · simp only at leftEq
    simp only [leftEq, if_true] at odd
    omega
  · exact after

theorem ForkInvariant.sends {process process' : ForkProcess} {taskN : Nat}
    {args : List α}
    {func : Handler φ}
    (invariant : ForkInvariant regions barriers ⟨(bufInt32, ⟨messages, log⟩),
      members, round⟩)
    (here : members p = ⟨.running, left, process⟩) (isMaster : p.val = 0)
    (located : ForkLocated regions barriers ⟨.running, left, process'⟩)
    (role : ForkRole p process')
    (begun : process'.begun = process.begun)
    (completed : process'.completed = process.completed)
    (next : process.sent (taskN + 1) + 1 = process'.sent (taskN + 1) ∧
      (⟨taskN + 1, args, func⟩ : Message φ α) =
        messageOf regions (taskN + 1) (process.sent (taskN + 1)))
    (others : ∀ q, q ≠ taskN + 1 → process.sent q = process'.sent q) :
    ForkInvariant regions barriers
      ⟨(bufInt32, ForkMemory.send ⟨messages, log⟩ taskN args func),
      Function.update members p ⟨.running, left, process'⟩, round⟩ := by
  refine invariant.moves located role ?_ ?_
  · apply invariant.queued_master isMaster
    intro q notRoot
    rw [here]
    by_cases target : q.val = taskN + 1
    · right
      simp only [target, if_true]
      exact ⟨next.1, by rw [next.2]⟩
    · left
      simp only [target, if_false]
      exact ⟨others q target, trivial⟩
  · exact invariant.history.same (by simp [here, begun])
      (by simp [here, completed])

theorem ForkInvariant.start {taskN : Nat}
    (invariant : ForkInvariant regions barriers ⟨(bufInt32, ⟨messages, log⟩),
      members, left⟩)
    (inRound : State.InRound ⟨(bufInt32, ForkMemory.mk messages log),
      members, left⟩)
    (here : members p = ⟨.running, left, ⟨.sendFunc taskN, context, begun⟩⟩)
    (last : ¬ taskN + 1 < N) :
    ForkInvariant regions barriers
      ⟨(bufInt32, ⟨messages, log ++ [.began p begun (regions begun)]⟩),
        Function.update members p
          ⟨.running, left, ⟨.func (barriers (regions begun)), context,
            begun + 1⟩⟩, left⟩ := by
  obtain ⟨isMaster, -, inContext⟩ := invariant.role_at here
  obtain ⟨-, leftEq⟩ : _ ∧ left = joins regions barriers begun :=
    invariant.located_at here
  refine invariant.moves (by exact ⟨begun, rfl, by rw [leftEq], by simp⟩)
    (by exact inContext)
    ?_ ?_
  · apply invariant.queued_master isMaster
    intro q notRoot
    left
    have sent : q.val ≤ taskN := by omega
    simp only [here, ForkProcess.sent, if_pos sent]
    exact ⟨by omega, trivial⟩
  · have begins := @ForkHistory.begins _ _ _ _ _ _ p
      ⟨.func (barriers (regions begun)), context, begun + 1⟩ invariant.history
    simp only [here, ForkProcess.completed, Nat.add_sub_cancel,
      forall_const] at begins
    exact begins (invariant.together inRound leftEq)

theorem ForkInvariant.finish
    (invariant : ForkInvariant regions barriers ⟨(bufInt32, ⟨messages, log⟩),
      members, round⟩)
    (here : members p = ⟨.running, left, ⟨.func 0, context, begun⟩⟩) :
    ForkInvariant regions barriers
      ⟨(bufInt32, ⟨messages, log ++ [.finished p (begun - 1)]⟩),
        Function.update members p
        ⟨.running, left, ⟨if p.val = 0 then .join else .receive, context,
          begun⟩⟩, round⟩ := by
  have role := invariant.role_at here
  obtain ⟨k, rfl, leftEq, -⟩ : ∃ k, begun = k + 1 ∧
      left + 0 = joins regions barriers k + barriers (regions k) ∧ _ :=
        invariant.located_at here
  refine invariant.moves ?_ ?_ ?_ ?_
  · split_ifs with isMaster
    · exact ⟨k, rfl, leftEq⟩
    · exact ⟨rfl, .inr ⟨k, rfl, leftEq⟩⟩
  · split_ifs with isMaster
    · exact ⟨isMaster, role⟩
    · exact ⟨isMaster, role⟩
  · apply invariant.queued_still
    · intro q notRoot
      split_ifs <;> simp [here, ForkProcess.sent]
    · have before : left ≠ joins regions barriers (k + 1) := by
        simp only [joins]
        omega
      intro isTask
      simp [here, forkReceived, before, isTask]
  · refine invariant.history.finishes (by simp [here]) rfl
      (by simp [here, ForkProcess.completed]) ?_
    split_ifs <;> rfl

theorem ForkInvariant.receiveFunc {taskN : Nat} {args : List α} {func : φ}
    {rest : List (Message φ α)}
    (invariant : ForkInvariant regions barriers ⟨(bufInt32, ⟨messages, log⟩),
      members, left⟩)
    (inRound : State.InRound ⟨(bufInt32, ForkMemory.mk messages log),
      members, left⟩)
    (here : members p = ⟨.running, left, ⟨.receive, context, begun⟩⟩)
    (head : messages p = ⟨taskN, args, .user func⟩ :: rest) :
    ForkInvariant regions barriers
      ⟨(bufInt32, ⟨Function.update messages p rest,
        log ++ [.began p begun ⟨func, args⟩]⟩),
        Function.update members p
          ⟨.running, left, ⟨.func (barriers ⟨func, args⟩), context, begun + 1⟩⟩,
            left⟩ := by
  obtain ⟨isTask, inContext⟩ := invariant.role_at here
  obtain ⟨leftEq, same⟩ := invariant.receiveFunc_at here head
  refine invariant.moves ?_ (by exact inContext) ?_ ?_
  · refine ⟨begun, rfl, ?_, fun outside => absurd rfl outside⟩
    rw [same, leftEq]
  · apply invariant.queued_task isTask
    · intro q different
      exact Function.update_of_ne different _ _
    · intro sent order queue
      obtain ⟨more, -, rest⟩ := messagesOf_cons (queue.symm.trans head)
      have received : forkReceived regions barriers (members p) =
          2 * begun := by
        simp only [here, forkReceived, leftEq, if_true]
      have received' : forkReceived regions barriers
          ⟨.running, left, ⟨.func (barriers ⟨func, args⟩), context,
            begun + 1⟩⟩ =
            2 * begun + 1 := by
        simp only [forkReceived]
        omega
      rw [received] at more rest
      rw [received']
      exact ⟨more, (Function.update_self _ _ _).trans rest⟩
  · have begins := @ForkHistory.begins _ _ _ _ _ _ p
      ⟨.func (barriers ⟨func, args⟩), context, begun + 1⟩ invariant.history
    simp only [here, ForkProcess.completed, Nat.add_sub_cancel,
      forall_const] at begins
    rw [same]
    rw [same] at begins
    exact begins (invariant.together inRound leftEq)

theorem ForkInvariant.receiveBarrier {taskN : Nat} {args : List α}
    {rest : List (Message φ α)}
    (invariant : ForkInvariant regions barriers ⟨(bufInt32, ⟨messages, log⟩),
      members, round⟩)
    (here : members p = ⟨.running, left, ⟨.receive, context, begun⟩⟩)
    (head : messages p = ⟨taskN, args, .barrier⟩ :: rest) :
    ForkInvariant regions barriers
      ⟨(bufInt32, ⟨Function.update messages p rest, log⟩),
        Function.update members p ⟨.running, left, ⟨.handler, context, begun⟩⟩,
          round⟩ := by
  obtain ⟨isTask, inContext⟩ := invariant.role_at here
  obtain ⟨k, beguns, leftEq⟩ := invariant.receiveBarrier_at here head
  refine invariant.moves (by exact ⟨k, beguns, leftEq⟩)
    (by exact ⟨isTask, inContext⟩) ?_ ?_
  · apply invariant.queued_task isTask
    · intro q different
      exact Function.update_of_ne different _ _
    · intro sent order queue
      obtain ⟨more, -, rest⟩ := messagesOf_cons (queue.symm.trans head)
      have before : left ≠ joins regions barriers begun := by
        rw [beguns, joins]
        omega
      have received : forkReceived regions barriers (members p) =
          2 * begun - 1 := by
        simp only [here, forkReceived, before, if_false]
      have next : 2 * begun - 1 + 1 = 2 * begun := by omega
      rw [received] at more rest
      rw [next] at rest
      rw [Function.update_self]
      exact ⟨by simp only [forkReceived]; omega, rest⟩
  · exact invariant.history.same (by simp [here])
      (by simp [here, ForkProcess.completed])

theorem ForkInvariant.returns
    (invariant : ForkInvariant regions barriers ⟨(bufInt32, ⟨messages, log⟩),
      members, left⟩)
    (inRound : State.InRound ⟨(bufInt32, ForkMemory.mk messages log),
      members, left⟩)
    (here : members p = ⟨.running, left, ⟨.leaving, context, begun⟩⟩) :
    ForkInvariant regions barriers
      ⟨(bufInt32, ⟨messages, log ++ [.returned (begun - 1)]⟩),
        Function.update members p ⟨.running, left, ⟨.outside, false, begun⟩⟩,
          left⟩ := by
  obtain ⟨isMaster, -⟩ := invariant.role_at here
  obtain ⟨-, some, leftEq⟩ : _ ∧ 0 < begun ∧
      left = joins regions barriers begun :=
    invariant.located_at here
  refine invariant.moves (by exact ⟨rfl, leftEq⟩) (by exact isMaster) ?_ ?_
  · apply invariant.queued_still
    · intro q notRoot
      simp only [here, ForkProcess.sent]
    · exact fun isTask => absurd isMaster isTask
  · refine invariant.history.returns (by simp [here])
      (by simp [here, ForkProcess.completed]) ?_
    rcases invariant.together inRound leftEq with zero | finished
    · omega
    · exact finished

theorem ForkRole.inContext {process : ForkProcess} (role : ForkRole p process)
    (calls : process.pc.callsBarrier = true) :
    process.inParallelContext = true := by
  obtain ⟨pc, context, begun⟩ := process
  cases pc with
  | func => exact role
  | join => exact role.2
  | handler => exact role.2
  | _ => cases calls

theorem ForkInvariant.code {process process' : ForkProcess} {act : ForkAct}
    (invariant : ForkInvariant regions barriers ⟨(bufInt32, ⟨messages, log⟩),
      members, round⟩)
    (inRound : State.InRound ⟨(bufInt32, ForkMemory.mk messages log),
      members, round⟩)
    (here : members p = ⟨.running, left, process⟩)
    (moved : ForkCode regions barriers p (bufInt32, ⟨messages, log⟩) process act
      (bufInt32', ⟨messages', log'⟩) process') :
    ForkInvariant regions barriers
      ⟨(bufInt32', ⟨messages', log'⟩),
        Function.update members p ⟨.running, left, process'⟩,
        round⟩ := by
  have located := invariant.located_at here
  have role := invariant.role_at here
  have history : ForkHistory regions log fun q => (members q).state :=
    invariant.history
  obtain rfl : left = round := by
    have own : (members p).InRound round := inRound p
    have leftEq := own.left_eq (by rw [here]; simp)
    rwa [here] at leftEq
  cases moved with
  | @call _ context begun isMaster =>
      refine invariant.moves (by exact located)
        (by exact ⟨isMaster, by omega, rfl⟩) ?_ ?_
      · apply invariant.queued_still
        · intro q notRoot
          simp only [here, ForkProcess.sent]
          rw [if_neg (by omega)]
        · simp only [here, forkReceived, implies_true]
      · exact history.same (by simp [here])
          (by simp [here, ForkProcess.completed])
  | @sendFunc _ _ context begun taskN more =>
      obtain ⟨isMaster, -, inContext⟩ := role
      refine invariant.sends here isMaster located ⟨isMaster, more, inContext⟩
        rfl rfl ?_ ?_
      · simp [ForkProcess.sent, messageOf]
      · intro q other
        simp [ForkProcess.sent, other]
  | @sendBarrier _ _ context begun taskN =>
      obtain ⟨isMaster, more, inContext⟩ := role
      refine invariant.sends here isMaster located ⟨isMaster, more, inContext⟩
        rfl rfl ?_ ?_
      · simp [ForkProcess.sent, messageOf, Nat.add_mod]
      · intro q other
        have same : q ≤ taskN + 1 ↔ q ≤ taskN := by omega
        simp [ForkProcess.sent, other, same]
  | start last => exact invariant.start inRound here last
  | work =>
      refine invariant.moves (by exact located) (by exact role) ?_ ?_
      · exact invariant.queued_still (fun _ _ => by rw [here])
          (fun _ => by rw [here])
      · exact history.same (by simp [here]) (by simp [here])
  | finish => exact invariant.finish here
  | receiveFunc head => exact invariant.receiveFunc inRound here head
  | receiveBarrier head => exact invariant.receiveBarrier here head
  | skipBarrier calls skips =>
      exact absurd (role.inContext calls) (by simp [skips])
  | ret => exact invariant.returns inRound here

end Code

theorem ForkInvariant.step {state next : ForkState N φ α}
    {label : Label (Fin N) ForkAct}
    (inRound : state.InRound) (invariant : ForkInvariant regions barriers state)
    (step : (forkJoin N regions barriers).client.Step state label next) :
    ForkInvariant regions barriers next := by
  cases step with
  | @code memory memory' _ _ _ _ _ _ _ here moved =>
      obtain ⟨bufInt32, messages, log⟩ := memory
      obtain ⟨bufInt32', messages', log'⟩ := memory'
      exact invariant.code inRound here moved
  | @arrive memory members _ left p process here atBarrier =>
      obtain ⟨bufInt32, messages, log⟩ := memory
      have located : ForkLocated regions barriers (members p) :=
        invariant.located p
      have role : ForkRole p (members p).state := invariant.roles p
      rw [here] at located role
      obtain ⟨pc, context, begun⟩ := process
      obtain ⟨calls, -⟩ := atBarrier
      refine invariant.moves ?_ (by exact role) ?_ ?_
      · cases pc with
        | func remaining =>
            obtain ⟨k, beguns, total, -⟩ := located
            refine ⟨k, beguns, total, fun _ => ?_⟩
            cases remaining with
            | zero => cases calls
            | succ remaining => exact Nat.succ_pos remaining
        | join => exact located
        | handler => exact located
        | _ => cases calls
      · apply invariant.queued_still
        · intro q _
          rw [here]
        · intro _
          rw [here]
          rfl
      · exact invariant.history.same (by simp [here]) (by simp [here])
  | @leave memory members _ left p process here =>
      obtain ⟨bufInt32, messages, log⟩ := memory
      have located : ForkLocated regions barriers (members p) :=
        invariant.located p
      have role : ForkRole p (members p).state := invariant.roles p
      have history : ForkHistory regions log fun q => (members q).state :=
        invariant.history
      rw [here] at located role
      obtain ⟨pc, context, begun⟩ := process
      cases pc with
      | func remaining =>
          obtain ⟨k, beguns, total, inside⟩ := located
          cases remaining with
          | zero => exact absurd (inside (by simp)) (Nat.lt_irrefl 0)
          | succ remaining =>
              refine invariant.moves ?_ (by exact role) ?_ ?_
              · refine ⟨k, beguns, ?_, fun outside => absurd rfl outside⟩
                simp only at total ⊢
                omega
              · apply invariant.queued_still
                · intro q _
                  rw [here]
                  rfl
                · intro _
                  rw [here]
                  rfl
              · exact history.same (by simp only [here]; rfl)
                  (by simp only [here]; rfl)
      | join =>
          obtain ⟨k, beguns, leftEq⟩ := located
          simp only at beguns leftEq
          subst beguns
          refine invariant.moves
            (by exact ⟨rfl, Nat.succ_pos k, congrArg (· + 1) leftEq⟩)
            (by exact role) ?_ ?_
          · apply invariant.queued_still
            · intro q _
              rw [here]
              rfl
            · exact fun isTask => absurd role.1 isTask
          · exact history.same (by simp only [here]; rfl)
              (by simp only [here]; rfl)
      | handler =>
          obtain ⟨k, beguns, leftEq⟩ := located
          simp only at beguns leftEq
          subst beguns
          have next : left + 1 = joins regions barriers (k + 1) :=
            congrArg (· + 1) leftEq
          refine invariant.moves (by exact ⟨rfl, .inl next⟩)
            (by exact role) ?_ ?_
          · apply invariant.queued_still
            · intro q _
              rw [here]
              rfl
            · intro _
              rw [here]
              exact if_pos next
          · exact history.same (by simp only [here]; rfl)
              (by simp only [here]; rfl)
      | outside => exact absurd located.1 (by simp)
      | sendFunc => exact absurd located.1 (by simp)
      | sendBarrier => exact absurd located.1 (by simp)
      | leaving => exact absurd located.1 (by simp)
      | receive => exact absurd located.1 (by simp)
  | @release memory members round waiting =>
      obtain ⟨bufInt32, messages, log⟩ := memory
      refine ⟨?_, invariant.roles, invariant.queued, invariant.history⟩
      intro p
      have located : ForkLocated regions barriers (members p) :=
        invariant.located p
      have inside := waiting p
      change ForkLocated regions barriers ⟨.released, (members p).left,
        (members p).state⟩
      generalize members p = member at located inside
      obtain ⟨status, left, ⟨pc, context, begun⟩⟩ := member
      obtain rfl : status = .waiting := inside
      cases pc with
      | func remaining =>
          obtain ⟨k, beguns, total, some⟩ := located
          exact ⟨k, beguns, total, fun _ => some (by simp)⟩
      | join => exact located
      | handler => exact located
      | outside => exact absurd located.1 (by simp)
      | sendFunc => exact absurd located.1 (by simp)
      | sendBarrier => exact absurd located.1 (by simp)
      | leaving => exact absurd located.1 (by simp)
      | receive => exact absurd located.1 (by simp)
  | @scratch memory memory' members round scratch =>
      obtain ⟨bufInt32, log⟩ := memory
      obtain ⟨bufInt32', log'⟩ := memory'
      obtain rfl : log' = log := scratch.1
      exact ⟨invariant.located, invariant.roles, invariant.queued,
        invariant.history⟩

end Steps

end Invariant

/-! ## Progress -/

section Progress

variable {φ α : Type} {N : Nat} {regions : Nat → ParallelCall φ α}
  {barriers : ParallelCall φ α → Nat}
  {config next : CollectiveConfig N (ForkMemory N φ α) ForkProcess}
  {trace : List (Fin N × CollectiveAct ForkAct)}
    {label : Fin N × CollectiveAct ForkAct}

/-- The number of calls from which the master has returned. -/
def ForkProcess.returns (process : ForkProcess) : Nat :=
  match process.pc with
  | .func _ | .join | .leaving => process.begun - 1
  | _ => process.begun

theorem ForkProcess.resume_calls (process : ForkProcess) :
    process.resume.calls = process.calls ∧ process.resume.returns =
      process.returns := by
  obtain ⟨pc, context, begun⟩ := process
  cases pc with
  | func left => cases left <;> exact ⟨rfl, rfl⟩
  | _ => exact ⟨rfl, rfl⟩

/-- What a step of the master does to its calls and returns. -/
theorem fork_program_calls
    {memory memory' : CollectiveMemory N (ForkMemory N φ α)}
    {process process' : CollectiveProcess ForkProcess} {p : Fin N}
    {act : CollectiveAct ForkAct}
    (moved : CollectiveProgram
      (forkJoin N regions barriers) p memory process act memory' process') :
    (∀ event ∈ memory.rest.log, event ∈ memory'.rest.log) ∧
      (p.val = 0 → process.state.calls ≤ process'.state.calls ∧
        ∀ k, k < process'.state.returns →
          k < process.state.returns ∨ .returned k ∈ memory'.rest.log) := by
  cases moved with
  | code outside moves =>
      cases moves with
      | call | sendFunc | sendBarrier | work | receiveBarrier =>
          refine ⟨fun _ old => old,
            fun isMaster => ⟨?_, fun k less => .inl less⟩⟩
          simp [ForkProcess.calls]
      | start | receiveFunc =>
          refine ⟨fun _ old => List.mem_append_left _ old,
            fun isMaster => ⟨?_, ?_⟩⟩
          · simp [ForkProcess.calls]
          · exact fun k less => .inl less
      | finish =>
          refine ⟨fun _ old => List.mem_append_left _ old, fun isMaster => ?_⟩
          simp only [isMaster, if_true]
          exact ⟨le_rfl, fun k less => .inl less⟩
      | skipBarrier =>
          refine ⟨fun _ old => old,
            fun isMaster => ⟨(ForkProcess.resume_calls _).1.ge, ?_⟩⟩
          exact fun k less => .inl ((ForkProcess.resume_calls _).2 ▸ less)
      | @ret _ _ context begun =>
          refine ⟨fun _ old => List.mem_append_left _ old,
            fun isMaster => ⟨le_rfl, ?_⟩⟩
          intro k less
          by_cases last : k = begun - 1
          · subst last
            exact .inr (List.mem_append_right _ (List.mem_singleton_self _))
          · left
            simp only [ForkProcess.returns] at less ⊢
            omega
  | @barrier _ _ _ _ _ state act moves calls =>
      refine ⟨fun _ old => old, fun isMaster => ?_⟩
      cases act with
      | call | access => exact ⟨le_rfl, fun k less => .inl less⟩
      | ret =>
          refine ⟨(ForkProcess.resume_calls state).1.ge, fun k less => .inl ?_⟩
          exact (ForkProcess.resume_calls state).2 ▸ less

theorem fork_step_calls
    (step : CollectiveStep (forkJoin N regions barriers) config label next) :
    (∀ event ∈ config.shared.rest.log, event ∈ next.shared.rest.log) ∧
      ∀ root : Fin N, root.val = 0 →
        (config.control root).state.calls ≤ (next.control root).state.calls ∧
        ∀ k, k < (next.control root).state.returns →
          k < (config.control root).state.returns ∨
            .returned k ∈ next.shared.rest.log := by
  obtain ⟨-, step⟩ := step
  cases step with
  | @mk q act memory' process' moved =>
      obtain ⟨kept, calls⟩ := fork_program_calls moved
      refine ⟨kept, fun root isRoot => ?_⟩
      by_cases same : root = q
      · subst same
        simp only [Function.update_self]
        exact calls isRoot
      · simp only [Function.update_of_ne same]
        exact ⟨le_rfl, fun k less => .inl less⟩

private theorem fork_returned
    (run : Run (CollectiveStep (forkJoin N regions barriers))
      (initialForkJoin N φ α) trace config)
    {root : Fin N} (isRoot : root.val = 0) {k : Nat}
    (less : k < (config.control root).state.returns) :
    .returned k ∈ config.shared.rest.log := by
  induction run with
  | nil =>
      simp [initialForkJoin, initialCollective, isRoot,
        ForkProcess.returns] at less
  | snoc before step induction =>
      obtain ⟨kept, calls⟩ := fork_step_calls step
      rcases (calls root isRoot).2 k less with earlier | now
      · exact kept _ (induction earlier)
      · exact now

/-- What is reached after the master has made its `k + 1`-th call. -/
def ForkReached (regions : Nat → ParallelCall φ α)
    (barriers : ParallelCall φ α → Nat) (k : Nat)
    (config : CollectiveConfig N (ForkMemory N φ α) ForkProcess) : Prop :=
  (∃ trace, Run (CollectiveStep (forkJoin N regions barriers))
    (initialForkJoin N φ α) trace
    config) ∧
    ∀ root : Fin N, root.val = 0 → k < (config.control root).state.calls

theorem ForkReached.invariant {k : Nat} (positive : 0 < N)
    (reached : ForkReached regions barriers k config) :
    config.rounds.InRound ∧ ForkInvariant regions barriers config.rounds := by
  obtain ⟨⟨trace, run⟩, -⟩ := reached
  obtain ⟨labels, rounds⟩ := collective_rounds positive run
  exact Client.invariant (ForkInvariant regions barriers)
    (fun _ _ _ => ForkInvariant.step) rounds
    initialForkJoin_invariant

/-- How far a process is from its next barrier. -/
def forkWork (regions : Nat → ParallelCall φ α)
    (barriers : ParallelCall φ α → Nat) (N left : Nat)
    (process : ForkProcess) : Nat :=
  match process.pc with
  | .sendFunc taskN => 2 * (N - taskN) + 3
  | .sendBarrier taskN => 2 * (N - taskN) + 2
  | .func 0 => 2
  | .receive => if left = joins regions barriers process.begun then 3 else 1
  | _ => 0

/-- How far a process is from the last barrier of the `k`-th region, and the
master from its return. -/
def forkRank (regions : Nat → ParallelCall φ α)
    (barriers : ParallelCall φ α → Nat) (N k left : Nat)
    (process : ForkProcess) : Nat :=
  if left < joins regions barriers (k + 1) then
    (joins regions barriers (k + 1) - left) * (2 * N + 8) + forkWork regions
      barriers N left process
  else if left = joins regions barriers (k + 1) ∧ process.pc = .leaving then 1
  else 0

private theorem forkWork_lt (left : Nat) (process : ForkProcess) :
    forkWork regions barriers N left process < 2 * N + 8 := by
  unfold forkWork
  split
  case h_4 => split_ifs <;> omega
  all_goals omega

theorem forkWork_func (left remaining begun : Nat) (context : Bool) :
    forkWork regions barriers N left ⟨.func remaining, context, begun⟩ ≤ 2 := by
  cases remaining <;> simp [forkWork]

private theorem forkRank_resume {k left : Nat} {process process' : ForkProcess}
    (inside : process.pc ≠ .leaving) :
    forkRank regions barriers N k (left + 1) process' <
      forkRank regions barriers N k left process ∨
      forkRank regions barriers N k left process = 0 ∧
        forkRank regions barriers N k (left + 1) process' = 0 := by
  have bound := @forkWork_lt φ α N regions barriers (left + 1) process'
  unfold forkRank
  generalize joins regions barriers (k + 1) = last
  by_cases early : left < last
  · left
    rw [if_pos early]
    have more : last - left = (last - (left + 1)) + 1 := by omega
    rw [more, Nat.add_mul]
    split_ifs <;> omega
  · right
    have late : ¬ left + 1 < last := by omega
    have beyond : left + 1 ≠ last := by omega
    simp [early, late, beyond, inside]

theorem forkRank_ne_zero {k left : Nat} {process : ForkProcess}
    (early : left < joins regions barriers (k + 1)) :
    forkRank regions barriers N k left process ≠ 0 := by
  have more : 0 < joins regions barriers (k + 1) - left := by omega
  have product := Nat.mul_pos more (by omega : 0 < 2 * N + 8)
  unfold forkRank
  rw [if_pos early]
  omega

private theorem forkRank_code {k left : Nat} {process process' : ForkProcess}
    (nearer : left < joins regions barriers (k + 1) →
      forkWork regions barriers N left process' <
        forkWork regions barriers N left process)
    (inside : process'.pc ≠ .leaving) :
    forkRank regions barriers N k left process' <
      forkRank regions barriers N k left process ∨
      forkRank regions barriers N k left process' =
        forkRank regions barriers N k left process ∧
        forkRank regions barriers N k left process = 0 := by
  unfold forkRank
  by_cases early : left < joins regions barriers (k + 1)
  · left
    rw [if_pos early, if_pos early]
    exact Nat.add_lt_add_left (nearer early) _
  · simp only [early, if_false, inside, and_false]
    split_ifs <;> simp

theorem ForkCode.messages {memory memory' : ControlBlock × ForkMemory N φ α}
    {process process' : ForkProcess} {p q : Fin N} {act : ForkAct}
    (moves : ForkCode regions barriers p memory process act memory' process')
    (different : q ≠ p)
    (some : memory.2.messages q ≠ []) : memory'.2.messages q ≠ [] := by
  cases moves with
  | sendFunc | sendBarrier =>
      simp only [ForkMemory.send]
      split_ifs
      · exact List.append_ne_nil_of_left_ne_nil some _
      · exact some
  | receiveFunc | receiveBarrier =>
      simpa [ForkMemory.record, Function.update_of_ne different] using some
  | _ => exact some

theorem ForkInvariant.all_received
    (invariant : ForkInvariant regions barriers config.rounds) {root p : Fin N}
    (isRoot : root.val = 0) (isTask : p.val ≠ 0)
    (none : config.shared.rest.messages p = []) :
    (config.control root).state.sent p =
      forkReceived regions barriers (config.rounds.members p) := by
  obtain ⟨order, queue⟩ := invariant.queued root isRoot p isTask
  have same : messagesOf regions p
      (forkReceived regions barriers (config.rounds.members p))
      ((config.control root).state.sent p) = [] := queue.symm.trans none
  simp only [messagesOf, List.map_eq_nil_iff, List.range'_eq_nil_iff] at same
  have order : forkReceived regions barriers (config.rounds.members p) ≤
      (config.control root).state.sent p := order
  omega

/-- While a task waits for a message of the `k`-th region, the master is sending
them. -/
theorem ForkReached.sending {k : Nat} (positive : 0 < N)
    (reached : ForkReached regions barriers k config) {root p : Fin N}
    (isRoot : root.val = 0)
    (receives : (config.control p).state.pc = .receive)
    (early : (config.control p).barrier.returned <
      joins regions barriers (k + 1))
    (none : config.shared.rest.messages p = []) :
    (config.control root).state.begun = k ∧ ∃ taskN,
      (config.control root).state.pc = .sendFunc taskN ∨
        (config.control root).state.pc = .sendBarrier taskN := by
  have invariant := (reached.invariant positive).2
  have located : ForkLocated regions barriers (config.rounds.members p) :=
    invariant.located p
  have isTask : p.val ≠ 0 := by
    have role : ForkRole p (config.control p).state := invariant.roles p
    simp only [ForkRole, receives] at role
    exact role.1
  have sent := invariant.all_received isRoot isTask none
  have called := reached.2 root isRoot
  -- no more has been received than the two messages of the region
  have received : forkReceived regions barriers
      (config.rounds.members p) ≤ 2 * k + 1 ∧
      ((forkReceived regions barriers (config.rounds.members p)) % 2 = 0 →
        forkReceived regions barriers (config.rounds.members p) ≤ 2 * k) := by
    have same : (config.rounds.members p).state = (config.control p).state :=
      rfl
    have left : (config.rounds.members p).left =
      (config.control p).barrier.returned := rfl
    simp only [ForkLocated, same, receives, left] at located
    simp only [forkReceived, same, receives, left]
    rcases located.2 with leftEq | ⟨j, beguns, leftEq⟩
    · have bound : (config.control p).state.begun ≤ k := by
        apply le_of_joins leftEq.ge
        simp only [joins] at early
        omega
      rw [if_pos leftEq]
      omega
    · have bound : j ≤ k := by
        apply @le_of_joins φ α regions barriers j k
          (config.control p).barrier.returned (by omega)
        simp only [joins] at early
        omega
      have before : (config.control p).barrier.returned ≠
          joins regions barriers (config.control p).state.begun := by
        rw [beguns, joins]
        omega
      rw [if_neg before]
      omega
  generalize (config.control root).state = master at sent called ⊢
  obtain ⟨pc, context, begun⟩ := master
  cases pc with
  | sendFunc taskN =>
      simp only [ForkProcess.calls] at called
      refine ⟨?_, taskN, .inl rfl⟩
      simp only [ForkProcess.sent] at sent
      split_ifs at sent <;> simp only <;> omega
  | sendBarrier taskN =>
      simp only [ForkProcess.calls] at called
      refine ⟨?_, taskN, .inr rfl⟩
      simp only [ForkProcess.sent] at sent
      split_ifs at sent <;> simp only <;> omega
  | _ =>
      simp only [ForkProcess.calls, ForkProcess.sent] at called sent
      omega

/-- As long as the others have come to their ends or wait in the barrier, a
process that is not through need not wait outside of it. -/
theorem ForkReached.ready {k : Nat} (positive : 0 < N)
    (reached : ForkReached regions barriers k config)
    (stand : ∀ p, config.rank (fun _ => forkRank regions barriers N k) p = 0 ∨
      config.waits p ∨
      (config.control p).barrier.pc = .outside ∧
        ¬ forkReady config.shared.rest p (config.control p).state)
    {p : Fin N} (some :
      config.rank (fun _ => forkRank regions barriers N k) p ≠ 0)
    (outside : (config.control p).barrier.pc = .outside) :
    forkReady config.shared.rest p (config.control p).state := by
  have invariant := (reached.invariant positive).2
  have member : config.rounds.members p =
      ⟨.running, (config.control p).barrier.returned,
      (config.control p).state⟩ := rounds_member_outside rfl outside
  have located := invariant.located_at member
  have role := invariant.role_at member
  unfold forkReady
  cases pcEq : (config.control p).state.pc with
  | outside =>
      -- the master has returned from the region
      simp only [ForkLocated, pcEq] at located
      simp only [ForkRole, pcEq] at role
      have called := reached.2 p role
      simp only [ForkProcess.calls, pcEq] at called
      have late := @joins_le φ α regions barriers _ _ called
      simp only [CollectiveConfig.rank, forkRank, pcEq, located.2, joins,
        reduceCtorEq, and_false,
        if_false] at some
      rw [if_neg (by omega)] at some
      exact some rfl
  | receive =>
      intro none
      have early : (config.control p).barrier.returned <
          joins regions barriers (k + 1) := by
        by_contra late
        simp [CollectiveConfig.rank, forkRank, late, pcEq] at some
      let root : Fin N := ⟨0, positive⟩
      obtain ⟨begun, taskN, sends⟩ :=
        @ForkReached.sending _ _ _ _ _ _ _ positive reached root p rfl
          pcEq early none
      have master : ForkLocated regions barriers (config.rounds.members root) :=
        invariant.located root
      have same : (config.rounds.members root).state =
        (config.control root).state := rfl
      have behind : (config.rounds.members root).status = .running ∧
          (config.control root).barrier.returned =
              joins regions barriers k := by
        rcases sends with sends | sends
        · simp only [ForkLocated, same, sends, begun] at master
          exact master
        · simp only [ForkLocated, same, sends, begun] at master
          exact master
      rcases stand root with done | waiting | ⟨-, notReady⟩
      · refine absurd done (forkRank_ne_zero ?_)
        rw [behind.2]
        simp only [joins]
        omega
      · have status := CollectiveConfig.waits_member waiting
        exact absurd (behind.1.symm.trans status) (by simp)
      · rcases sends with sends | sends <;> simp [forkReady, sends] at notReady
  | _ => trivial

/-- The code of the regions brings a process nearer to its next barrier, and
takes no message from another. -/
private theorem ForkReached.code {k : Nat} (positive : 0 < N)
    {p : Fin N} {process : BarrierProcess} {state state' : ForkProcess}
    {act : ForkAct} {bufInt32 : ControlBlock} {rest : ForkMemory N φ α}
    (reached : ForkReached regions barriers k config)
    (here : config.control p = ⟨process, state⟩)
    (outside : process.pc = .outside)
    (moves : (forkJoin N regions barriers).code p
      (config.shared.barrier.bufInt32, config.shared.rest) state act
      (bufInt32, rest) state') :
    (∀ q other, q ≠ p → forkReady config.shared.rest q other →
        forkReady rest q other) ∧
      (forkRank regions barriers N k process.returned state' <
          forkRank regions barriers N k process.returned state ∨
        forkRank regions barriers N k process.returned state' =
            forkRank regions barriers N k process.returned state ∧
          (forkRank regions barriers N k process.returned state = 0 ∨
            ¬ act.counts ∧ (forkReady config.shared.rest p state →
              forkReady rest p state'))) := by
  constructor
  · intro q other different ready
    unfold forkReady at ready ⊢
    cases pcEq : other.pc with
    | receive =>
        simp only [pcEq] at ready ⊢
        exact moves.messages different ready
    | outside => simp [pcEq] at ready
    | _ => trivial
  have invariant := (reached.invariant positive).2
  have member := rounds_member_outside here outside
  have located := invariant.located_at member
  have role := invariant.role_at member
  have called := reached.2 p
  rw [here] at called
  generalize process.returned = left at member located ⊢
  -- a step that brings the process nearer to its next barrier
  have nears : (left < joins regions barriers (k + 1) →
      forkWork regions barriers N left state' <
        forkWork regions barriers N left state) →
      state'.pc ≠ .leaving →
      forkRank regions barriers N k left state' <
        forkRank regions barriers N k left state ∨
        forkRank regions barriers N k left state' =
          forkRank regions barriers N k left state ∧
          (forkRank regions barriers N k left state = 0 ∨ ¬ act.counts ∧
            (forkReady config.shared.rest p state →
                forkReady rest p state')) :=
    fun nearer inside => (forkRank_code nearer inside).imp id fun same =>
      ⟨same.1, .inl same.2⟩
  cases moves with
  | @call _ context begun isMaster =>
      obtain ⟨-, leftEq⟩ : _ ∧ left = joins regions barriers begun := located
      have enough : k < begun := called isMaster
      have late := @joins_le φ α regions barriers _ _ enough
      refine nears (fun early => ?_) (by simp)
      simp only [joins] at early
      omega
  | @sendFunc _ _ context begun taskN more =>
      refine nears (fun _ => ?_) (by simp)
      simp [forkWork]
  | @sendBarrier _ _ context begun taskN =>
      obtain ⟨-, more, -⟩ := role
      refine nears (fun _ => ?_) (by simp)
      simp only [forkWork]
      omega
  | @start _ _ context begun taskN last =>
      refine nears (fun _ => ?_) (by simp)
      have small :=
        @forkWork_func φ α N regions barriers left (barriers (regions begun))
        (begun + 1) context
      have large : 3 ≤ forkWork regions barriers N
          left ⟨.sendFunc taskN, context, begun⟩ := by
        simp [forkWork]
      omega
  | work => exact .inr ⟨rfl, .inr ⟨id, id⟩⟩
  | @finish _ _ context begun =>
      obtain ⟨j, rfl, leftEq, -⟩ : ∃ j, begun = j + 1 ∧
        left + 0 = joins regions barriers j + barriers (regions j) ∧
          _ := located
      have before : left ≠ joins regions barriers (j + 1) := by
        simp only [joins]
        omega
      refine nears (fun _ => ?_) (by split_ifs <;> simp)
      split_ifs <;> simp [forkWork, before]
  | @receiveFunc _ _ context begun taskN args func rest head =>
      obtain ⟨leftEq, -⟩ := invariant.receiveFunc_at member head
      refine nears (fun _ => ?_) (by simp)
      have small :=
        @forkWork_func φ α N regions barriers left (barriers ⟨func, args⟩)
        (begun + 1) context
      have large : forkWork regions barriers N
          left ⟨.receive, context, begun⟩ = 3 := by
        simp [forkWork, leftEq]
      omega
  | @receiveBarrier _ _ context begun taskN args rest head =>
      refine nears (fun _ => ?_) (by simp)
      simp only [forkWork]
      split_ifs <;> omega
  | @skipBarrier _ process calls skips =>
      exact absurd (role.inContext calls) (by simp [skips])
  | @ret _ _ context begun =>
      obtain ⟨isMaster, -⟩ := role
      obtain ⟨-, -, leftEq⟩ : _ ∧ 0 < begun ∧
        left = joins regions barriers begun := located
      have enough : k < begun := called isMaster
      have late := @joins_le φ α regions barriers _ _ enough
      refine nears (fun early => ?_) (by simp)
      simp only [joins] at early
      omega

/-- Where those who are not through all stand in the barrier or outside of it,
all are in the barrier. -/
private theorem ForkReached.together {k : Nat} (positive : 0 < N)
    (reached : ForkReached regions barriers k config)
    (stand : ∀ p, config.rank (fun _ => forkRank regions barriers N k) p = 0 ∨
      config.waits p ∨
      (config.control p).barrier.pc = .outside ∧
        ¬ forkReady config.shared.rest p (config.control p).state) :
    (∀ p, config.rank (fun _ => forkRank regions barriers N k) p = 0) ∨
      ∀ p, config.waits p := by
  obtain ⟨inRound, invariant⟩ := reached.invariant positive
  have waits : ∀ p, config.rank
      (fun _ => forkRank regions barriers N k) p ≠ 0 →
      config.waits p := by
    intro p some
    rcases stand p with done | waiting | ⟨outside, notReady⟩
    · exact absurd done some
    · exact waiting
    · exact absurd (reached.ready positive stand some outside) notReady
  by_cases finished : ∀ p,
    config.rank (fun _ => forkRank regions barriers N k) p = 0
  · exact .inl finished
  · right
    obtain ⟨p, some⟩ := not_forall.mp finished
    intro q
    apply waits
    -- the round is that of a process that waits, and nobody is beyond it
    have waiting := waits p some
    have inside : (config.control p).state.pc ≠ .leaving := by
      intro leaving
      have located := invariant.located p
      have same : (config.rounds.members p).state.pc = .leaving := leaving
      simp only [ForkLocated, same] at located
      exact absurd
        (located.1.symm.trans (CollectiveConfig.waits_member waiting)) (by simp)
    have early : (config.control p).barrier.returned <
        joins regions barriers (k + 1) := by
      simp only [CollectiveConfig.rank, forkRank] at some
      by_contra late
      simp [late, inside] at some
    exact forkRank_ne_zero
      ((CollectiveConfig.behind_waiting inRound waiting q).trans_lt early)

/-- The code of the regions brings everybody to the next barrier, and the master
to its return. -/
theorem fork_advances (positive : 0 < N) (k : Nat) :
    (forkJoin N regions barriers).Advances forkReady ForkAct.counts
      (ForkReached regions barriers k)
        (fun _ => forkRank regions barriers N k) where
  keeps := by
    rintro config label next ⟨⟨trace, run⟩, called⟩ step
    refine ⟨⟨_, run.snoc step⟩, fun root isRoot => ?_⟩
    exact (called root isRoot).trans_le ((fork_step_calls step).2 root isRoot).1
  barrier := by
    rintro config ⟨⟨trace, run⟩, -⟩
    exact collective_barrier positive run
  code := fun reached here outside moves =>
    ForkReached.code positive reached here outside moves
  resume := by
    intro config p process state retval reached here done
    have invariant := (reached.invariant positive).2
    have located := invariant.located_at (rounds_member_done here done)
    apply forkRank_resume
    intro leaving
    simp only [ForkLocated, leaving] at located
    exact absurd located.1 (by simp)
  together := fun reached stand =>
    ForkReached.together positive reached stand

/-- The master that has come to the end has returned from the `k`-th region. -/
theorem ForkReached.returned {k : Nat} (positive : 0 < N)
    (reached : ForkReached regions barriers k config) {root : Fin N}
    (isRoot : root.val = 0)
    (done : config.rank (fun _ => forkRank regions barriers N k) root = 0) :
    k < (config.control root).state.returns := by
  have invariant := (reached.invariant positive).2
  have located : ForkLocated regions barriers (config.rounds.members root) :=
    invariant.located root
  have role : ForkRole root (config.control root).state := invariant.roles root
  have late : joins regions barriers (k + 1) ≤
      (config.control root).barrier.returned := by
    by_contra early
    exact forkRank_ne_zero (not_le.mp early) done
  have same : (config.rounds.members root).state =
    (config.control root).state := rfl
  have left : (config.rounds.members root).left =
    (config.control root).barrier.returned := rfl
  simp only [CollectiveConfig.rank, forkRank, if_neg (not_lt.mpr late)] at done
  simp only [ForkLocated, same, left] at located
  simp only [ForkRole] at role
  unfold ForkProcess.returns
  cases pcEq : (config.control root).state.pc with
  | outside | sendFunc | sendBarrier =>
      simp only [pcEq] at located ⊢
      rw [located.2] at late
      exact @le_of_joins φ α regions barriers (k + 1) _ _ late (by omega)
  | func remaining =>
      simp only [pcEq] at located ⊢
      obtain ⟨j, beguns, total, -⟩ := located
      have bound : k + 1 ≤ j := le_of_joins late (by omega)
      omega
  | join =>
      simp only [pcEq] at located ⊢
      obtain ⟨j, beguns, leftEq⟩ := located
      have bound : k + 1 ≤ j := le_of_joins late leftEq.le
      omega
  | leaving =>
      simp only [pcEq, and_true, ite_eq_right_iff, one_ne_zero,
        imp_false] at located done ⊢
      obtain ⟨-, some, leftEq⟩ := located
      rw [leftEq] at late done
      have bound : k + 1 ≤ (config.control root).state.begun :=
        @le_of_joins φ α regions barriers (k + 1) _ _ late (by omega)
      have beyond : (config.control root).state.begun ≠ k + 1 :=
        fun equal => done (by rw [equal])
      omega
  | receive | handler =>
      simp only [pcEq] at role
      exact absurd isRoot role.1

end Progress

/-- In every run of a master and its tasks, each of them executes every function
once, one region after the other, and `EMSparallel` returns when all have
finished. -/
theorem EMSparallel_joins {φ α : Type} {N : Nat} (positive : 0 < N)
    {regions : Nat → ParallelCall φ α} {barriers : ParallelCall φ α → Nat}
    {config : CollectiveConfig N (ForkMemory N φ α) ForkProcess}
    {trace : List (Fin N × CollectiveAct ForkAct)}
    (run : Run (CollectiveStep (forkJoin N regions barriers))
      (initialForkJoin N φ α) trace
      config) :
    ForkSafe regions barriers config := by
  obtain ⟨labels, rounds⟩ := collective_rounds positive run
  have ordered : Ordered (ForkEvent.After regions) config.shared.rest.log :=
    (Client.invariant (ForkInvariant regions barriers)
      (fun _ _ _ => ForkInvariant.step) rounds
      initialForkJoin_invariant).2.history.ordered
  refine ⟨ordered, ?_, ?_⟩
  · intro k returned p
    have finished : .finished p k ∈ config.shared.rest.log :=
      ordered.earlier returned fun all => all p
    exact ⟨ordered.earlier finished fun both => both.1, finished⟩
  · rintro root isRoot k called future rfl fair
    have start : ForkReached regions barriers k (future 0) := by
      refine ⟨⟨trace, run⟩, fun other isRoot' => ?_⟩
      obtain rfl : other = root := Fin.ext (isRoot'.trans isRoot.symm)
      exact called
    obtain ⟨j, -, reached, done⟩ :=
      (fork_advances positive k).eventually fair start
    obtain ⟨trace', run'⟩ := reached.1
    exact ⟨j, fork_returned run' isRoot
      (reached.returned positive isRoot (done root))⟩

/-! ## A run -/

section Schedule

variable {φ α : Type} {N : Nat} (regions : Nat → ParallelCall φ α)
  (barriers : ParallelCall φ α → Nat)

/-- The step of its code that a process takes, where it can take it. -/
def forkNext (p : Fin N) (memory : ControlBlock × ForkMemory N φ α) :
    ForkProcess → ForkAct →
      Option ((ControlBlock × ForkMemory N φ α) × ForkProcess)
  | ⟨.outside, _, begun⟩, .call =>
      if p.val = 0 then some (memory, ⟨.sendFunc 0, true, begun⟩) else none
  | ⟨.sendFunc taskN, context, begun⟩, .send =>
      if taskN + 1 < N then
        some ((memory.1, memory.2.send taskN (regions begun).args
          (.user (regions begun).func)),
          ⟨.sendBarrier taskN, context, begun⟩)
      else none
  | ⟨.sendBarrier taskN, context, begun⟩, .send =>
      some ((memory.1, memory.2.send taskN [] .barrier),
        ⟨.sendFunc (taskN + 1), context, begun⟩)
  | ⟨.sendFunc taskN, context, begun⟩, .start =>
      if taskN + 1 < N then none
      else some ((memory.1, memory.2.record (.began p begun (regions begun))),
        ⟨.func (barriers (regions begun)), context, begun + 1⟩)
  | ⟨.func left, context, begun⟩, .work =>
      some (memory, ⟨.func left, context, begun⟩)
  | ⟨.func 0, context, begun⟩, .finish =>
      some ((memory.1, memory.2.record (.finished p (begun - 1))),
        ⟨if p.val = 0 then .join else .receive, context, begun⟩)
  | ⟨.receive, context, begun⟩, .receive =>
      match memory.2.messages p with
      | ⟨_, args, .user func⟩ :: rest =>
          some ((memory.1, ForkMemory.record
              { memory.2 with messages :=
                Function.update memory.2.messages p rest }
              (.began p begun ⟨func, args⟩)),
            ⟨.func (barriers ⟨func, args⟩), context, begun + 1⟩)
      | ⟨_, _, .barrier⟩ :: rest =>
          some ((memory.1, { memory.2
            with messages := Function.update memory.2.messages p rest }),
            ⟨.handler, context, begun⟩)
      | [] => none
  | ⟨.leaving, _, begun⟩, .ret =>
      some ((memory.1, memory.2.record (.returned (begun - 1))),
        ⟨.outside, false, begun⟩)
  | _, _ => none

variable {regions barriers}

theorem forkNext_code {p : Fin N}
    {memory memory' : ControlBlock × ForkMemory N φ α}
    {process process' : ForkProcess} {act : ForkAct}
    (taken : forkNext regions barriers p memory process act =
      some (memory', process')) :
    ForkCode regions barriers p memory process act memory' process' := by
  unfold forkNext at taken
  split at taken
  case h_1 =>
    obtain ⟨isMaster, moved⟩ := Option.ite_none_right_eq_some.mp taken
    cases moved
    exact .call isMaster
  case h_2 =>
    obtain ⟨more, moved⟩ := Option.ite_none_right_eq_some.mp taken
    cases moved
    exact .sendFunc more
  case h_3 =>
    cases taken
    exact .sendBarrier
  case h_4 =>
    obtain ⟨last, moved⟩ := Option.ite_none_left_eq_some.mp taken
    cases moved
    exact .start last
  case h_5 =>
    cases taken
    exact .work
  case h_6 =>
    cases taken
    exact .finish
  case h_7 =>
    split at taken
    case h_1 head =>
      cases taken
      exact .receiveFunc head
    case h_2 head =>
      cases taken
      exact .receiveBarrier head
    case h_3 => cases taken
  case h_8 =>
    cases taken
    exact .ret
  case h_9 => cases taken

end Schedule

/-- Two tasks execute a function that calls the barrier once; the other task is
still to receive the barrier that joins it with the master. -/
def joinSchedule : List (Fin 2 × CollectiveAct ForkAct) :=
  [(0, .code .call), (0, .code .send), (1, .code .receive),
    (1, .barrier (.call 9)),
    (1, .barrier .access), (1, .barrier .access), (0, .code .send),
    (0, .code .start),
    (0, .barrier (.call 9)), (0, .barrier .access), (0, .barrier .access),
    (0, .barrier .access),
    (0, .barrier .access), (0, .barrier (.ret 9)), (0, .code .work),
    (0, .code .finish),
    (0, .barrier (.call 9)), (0, .barrier .access), (1, .barrier .access),
    (1, .barrier (.ret 9)),
    (1, .code .finish), (1, .code .receive), (1, .barrier (.call 9)),
    (1, .barrier .access),
    (1, .barrier .access), (0, .barrier .access), (0, .barrier .access),
    (0, .barrier .access),
    (0, .barrier (.ret 9)), (0, .code .ret)]

theorem EMSparallel_joins_both :
    ∃ config : CollectiveConfig 2 (ForkMemory 2 Unit Nat) ForkProcess,
      Run (CollectiveStep (forkJoin 2 (fun k => ⟨(), [k]⟩) fun _ => 1))
        (initialForkJoin 2 Unit Nat)
        joinSchedule config ∧
      config.shared.rest.log =
        [.began 1 0 ⟨(), [0]⟩, .began 0 0 ⟨(), [0]⟩, .finished 0 0,
        .finished 1 0, .returned 0] ∧
      ForkSafe (fun k => ⟨(), [k]⟩) (fun _ => 1) config := by
  obtain ⟨config, run, checked⟩ := exists_collective
    (forkJoin 2 (fun k => ⟨(), [k]⟩) fun _ => 1)
      (forkNext (fun k => ⟨(), [k]⟩) fun _ => 1)
    (fun process => process.pc.callsBarrier && process.inParallelContext)
      forkNext_code
    (fun there => (Bool.and_eq_true _ _).mp there) (initialForkJoin 2 Unit Nat)
      joinSchedule
    (fun config =>
      config.shared.rest.log = [.began 1 0 ⟨(), [0]⟩, .began 0 0 ⟨(), [0]⟩,
      .finished 0 0, .finished 1 0, .returned 0]) (by decide)
  exact ⟨config, run, of_decide_eq_true checked,
    EMSparallel_joins (by decide) run⟩

end EMS
