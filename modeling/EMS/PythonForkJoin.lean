import EMS.ForkJoin

/-!
# Fork-join regions of Python

`parallel` sends every child its function, receives a result from each of them,
and only then calls the function itself, and the barrier.  A child sends its
result when it has returned from the function, and goes back to receiving: it
does not call the barrier that ends the region.
-/

namespace EMS

open Interleaving

/-! ## The code -/

inductive ThreadingType where
  | bsp
  | fj
  | user
  deriving DecidableEq, Repr

/-- `inParallelContext` after `initialize`. -/
def initializeContext (threadingType : ThreadingType) (myID : Nat) : Bool :=
  match threadingType with
  | .bsp => true
  | .fj => myID ≠ 0
  | .user => false

/-- `inParallelContext` in `emsThreadStub`, which calls `initialize` before it
sets `myID`.  `EMS_Subtask` is a variable of the environment. -/
def stubContext (EMS_Subtask : Option Nat) : Bool :=
  initializeContext .fj (EMS_Subtask.getD 0)

/-- Control points of `parallel` and of the loop of `emsThreadStub`.  `left` is
the number of barriers that the function has still to call. -/
inductive PyForkPc where
  | outside
  | send (taskN : Nat)
  | recv (taskN : Nat)
  | func (left : Nat)
  | join
  | leaving
  | raised
  | receive
  | reply
  deriving DecidableEq, Repr

/-- A process, with the number of calls of `parallel` that have ended. -/
structure PyForkProcess where
  pc : PyForkPc
  inParallelContext : Bool
  ended : Nat
  deriving DecidableEq, Repr

/-- A process comes to the barrier at the end of the `k`-th region, and the
`k`-th call of `parallel` ends. -/
inductive PyForkEvent (N : Nat) where
  | joined (p : Fin N) (k : Nat)
  | ended (k : Nat)
  deriving DecidableEq, Repr

/-- What is in the pipes, and what happened. -/
structure PyForkMemory (N : Nat) (φ α : Type) where
  requests : Fin N → List (ParallelCall φ α)
  replies : Fin N → Nat
  log : List (PyForkEvent N)

def PyForkPc.callsBarrier : PyForkPc → Bool
  | .func (_ + 1) | .join => true
  | _ => false

/-- The control point after a barrier. -/
def PyForkProcess.resume (process : PyForkProcess) : PyForkProcess :=
  match process.pc with
  | .func (left + 1) => { process with pc := .func left }
  | .join => { process with pc := .leaving }
  | _ => process

section Code

variable {φ α : Type} {N : Nat}

/-- The code of the master, which is process 0, and of the children.  The child
of `tasks[taskN]` is process `taskN + 1`. -/
inductive PyForkCode (calls : Nat → ParallelCall φ α)
    (barriers : ParallelCall φ α → Nat)
    (p : Fin N) : ControlBlock × PyForkMemory N φ α → PyForkProcess → ForkAct →
      ControlBlock × PyForkMemory N φ α → PyForkProcess → Prop where
  | call {memory : ControlBlock × PyForkMemory N φ α}
      {context : Bool} {k : Nat} :
      p.val = 0 →
      PyForkCode calls barriers p memory ⟨.outside, context, k⟩ .call memory
        ⟨.send 0, true, k⟩
  | send {bufInt32 : ControlBlock} {memory : PyForkMemory N φ α}
      {context : Bool} {k taskN : Nat}
      (more : taskN + 1 < N) :
      (calls k).args ≠ [] →
      PyForkCode calls barriers p (bufInt32, memory)
        ⟨.send taskN, context, k⟩ .send
        (bufInt32, { memory with
          requests := Function.update memory.requests ⟨taskN + 1, more⟩
            (memory.requests ⟨taskN + 1, more⟩ ++ [calls k]) })
        ⟨.send (taskN + 1), context, k⟩
  -- `print("Sending to", kargs[0])` without arguments
  | raise {bufInt32 : ControlBlock} {memory : PyForkMemory N φ α}
      {context : Bool}
      {k taskN : Nat} :
      taskN + 1 < N → (calls k).args = [] →
      PyForkCode calls barriers p (bufInt32, memory)
        ⟨.send taskN, context, k⟩ .send
        (bufInt32, { memory with log := memory.log ++ [.ended k] })
          ⟨.raised, context, k⟩
  | sent {memory : ControlBlock × PyForkMemory N φ α} {context : Bool}
      {k taskN : Nat} :
      ¬ taskN + 1 < N →
      PyForkCode calls barriers p memory ⟨.send taskN, context, k⟩ .send
        memory ⟨.recv 0, context, k⟩
  | recv {bufInt32 : ControlBlock} {memory : PyForkMemory N φ α}
      {context : Bool}
      {k taskN more : Nat} (inside : taskN + 1 < N) :
      memory.replies ⟨taskN + 1, inside⟩ = more + 1 →
      PyForkCode calls barriers p (bufInt32, memory)
        ⟨.recv taskN, context, k⟩ .receive
        (bufInt32, { memory with
          replies := Function.update memory.replies ⟨taskN + 1, inside⟩ more })
        ⟨.recv (taskN + 1), context, k⟩
  | start {memory : ControlBlock × PyForkMemory N φ α} {context : Bool}
      {k taskN : Nat} :
      ¬ taskN + 1 < N →
      PyForkCode calls barriers p memory ⟨.recv taskN, context, k⟩ .start
        memory ⟨.func (barriers (calls k)), context, k⟩
  | work {memory : ControlBlock × PyForkMemory N φ α} {context : Bool}
      {k left : Nat} :
      PyForkCode calls barriers p memory ⟨.func left, context, k⟩ .work
        memory ⟨.func left, context, k⟩
  | finish {bufInt32 : ControlBlock} {memory : PyForkMemory N φ α}
      {context : Bool} {k : Nat} :
      p.val = 0 →
      PyForkCode calls barriers p (bufInt32, memory)
        ⟨.func 0, context, k⟩ .finish
        (bufInt32, { memory with log := memory.log ++ [.joined p k] })
          ⟨.join, context, k⟩
  | ret {bufInt32 : ControlBlock} {memory : PyForkMemory N φ α}
      {context : Bool} {k : Nat} :
      PyForkCode calls barriers p (bufInt32, memory) ⟨.leaving, context, k⟩ .ret
        (bufInt32, { memory with log := memory.log ++ [.ended k] })
          ⟨.outside, false, k + 1⟩
  | receive {bufInt32 : ControlBlock} {memory : PyForkMemory N φ α}
      {context : Bool} {k : Nat}
      {call : ParallelCall φ α} {rest : List (ParallelCall φ α)} :
      memory.requests p = call :: rest →
      PyForkCode calls barriers p (bufInt32, memory)
        ⟨.receive, context, k⟩ .receive
        (bufInt32, { memory
          with requests := Function.update memory.requests p rest })
        ⟨.func (barriers call), context, k⟩
  | finishChild {memory : ControlBlock × PyForkMemory N φ α}
      {context : Bool} {k : Nat} :
      p.val ≠ 0 →
      PyForkCode calls barriers p memory ⟨.func 0, context, k⟩ .finish
        memory ⟨.reply, context, k⟩
  | reply {bufInt32 : ControlBlock} {memory : PyForkMemory N φ α}
      {context : Bool} {k : Nat} :
      PyForkCode calls barriers p (bufInt32, memory) ⟨.reply, context, k⟩ .send
        (bufInt32, { memory with
          replies := Function.update memory.replies p (memory.replies p + 1) })
        ⟨.receive, context, k⟩
  -- "Return a positive non-zero integer -- as if time left on clock"
  | skipBarrier {memory : ControlBlock × PyForkMemory N φ α}
      {process : PyForkProcess} :
      process.pc.callsBarrier = true → process.inParallelContext = false →
      PyForkCode calls barriers p memory process .skipBarrier memory
        process.resume

/-- The master and the children. -/
def pyForkJoin (N : Nat) (calls : Nat → ParallelCall φ α)
    (barriers : ParallelCall φ α → Nat) :
    BarrierClient N (PyForkMemory N φ α) PyForkProcess ForkAct where
  code := PyForkCode calls barriers
  atBarrier process :=
    process.pc.callsBarrier = true ∧ process.inParallelContext = true
  resume := PyForkProcess.resume
  apart := by
    intro p memory state act memory' state' moved word _
    cases moved <;> rfl

abbrev PyForkConfig (N : Nat) (φ α : Type) :=
  CollectiveConfig N (PyForkMemory N φ α) PyForkProcess

/-- The steps of the processes; calls of the barrier may run out of their
timeout. -/
def PyForkStep (calls : Nat → ParallelCall φ α)
    (barriers : ParallelCall φ α → Nat) :
    PyForkConfig N φ α → Fin N × CollectiveAct ForkAct →
      PyForkConfig N φ α → Prop :=
  Step (CollectiveProgram (pyForkJoin N calls barriers))

/-- The master is outside of a parallel region, and the children are
receiving. -/
def initialPyForkJoin (N : Nat) (φ α : Type) (EMS_Subtask : Option Nat) :
    PyForkConfig N φ α :=
  initialCollective N ⟨fun _ => [], fun _ => 0, []⟩ fun p =>
    if p.val = 0 then ⟨.outside, initializeContext .fj 0, 0⟩
    else ⟨.receive, stubContext EMS_Subtask, 0⟩

/-! ## The promise -/

/-- The process waits in the barrier. -/
def InBarrier (config : PyForkConfig N φ α) (p : Fin N) : Prop :=
  ∃ timeout barPhase, (config.control p).barrier.pc = .spin timeout barPhase ∧
    config.shared.barrier.bufInt32 EMS_CB_BARPHASE = barPhase

/-- The master waits for a result or in a barrier, and every child waits for a
message or in a barrier that the master has not entered. -/
structure PyForkStuck (config : PyForkConfig N φ α) : Prop where
  master : ∀ root : Fin N, root.val = 0 →
    (∃ (taskN : Nat) (inside : taskN + 1 < N),
      (config.control root).state.pc = .recv taskN ∧
      config.shared.rest.replies ⟨taskN + 1, inside⟩ = 0) ∨
    InBarrier config root
  children : ∀ p : Fin N, p.val ≠ 0 →
    ((config.control p).state.pc = .receive ∧
      config.shared.rest.requests p = []) ∨
    (InBarrier config p ∧ ∀ root : Fin N, root.val = 0 →
      (config.control root).barrier.entered <
        (config.control p).barrier.entered)

def PyForkEvent.isJoined (k : Nat) : PyForkEvent N → Bool
  | .joined _ call => call = k
  | _ => false

/-- What fork-join regions should promise. -/
structure PyForkSafe (calls : Nat → ParallelCall φ α)
    (barriers : ParallelCall φ α → Nat)
    (EMS_Subtask : Option Nat) : Prop where
  notStuck : ∀ trace config,
    Run (PyForkStep calls barriers) (initialPyForkJoin N φ α EMS_Subtask)
      trace config →
    ¬ PyForkStuck config
  joined : ∀ trace config,
    Run (PyForkStep calls barriers) (initialPyForkJoin N φ α EMS_Subtask)
      trace config →
    ∀ k, .ended k ∈ config.shared.rest.log →
      config.shared.rest.log.countP (PyForkEvent.isJoined k) = N

/-! ## A run that gets stuck -/

section Stuck

variable {calls : Nat → ParallelCall φ α} {barriers : ParallelCall φ α → Nat}
  {memory : BarrierMemory N} {rest : PyForkMemory N φ α}
  {control : Fin N → CollectiveProcess PyForkProcess} {p : Fin N}

def PyForkReaches (calls : Nat → ParallelCall φ α)
    (barriers : ParallelCall φ α → Nat)
    (start finish : PyForkConfig N φ α) : Prop :=
  ∃ trace, Run (PyForkStep calls barriers) start trace finish

theorem PyForkReaches.refl (config : PyForkConfig N φ α) :
    PyForkReaches calls barriers config config := ⟨[], .nil⟩

theorem PyForkReaches.trans {first second third : PyForkConfig N φ α}
    (before : PyForkReaches calls barriers first second)
    (after : PyForkReaches calls barriers second third) :
    PyForkReaches calls barriers first third := by
  obtain ⟨trace, run⟩ := before
  obtain ⟨trace', run'⟩ := after
  exact ⟨trace ++ trace', run.append run'⟩

theorem PyForkReaches.step
    {shared shared' : CollectiveMemory N (PyForkMemory N φ α)}
    {process process' : CollectiveProcess PyForkProcess}
    {act : CollectiveAct ForkAct}
    (here : control p = process)
    (moved : CollectiveProgram
      (pyForkJoin N calls barriers) p shared process act shared' process') :
    PyForkReaches calls barriers ⟨shared, control⟩
      ⟨shared', Function.update control p process'⟩ := by
  refine ⟨[(p, act)], .cons (.mk ?_) .nil⟩
  simp only [here]
  exact moved

theorem PyForkReaches.next
    {shared shared' : CollectiveMemory N (PyForkMemory N φ α)}
    {process process' : CollectiveProcess PyForkProcess}
    {act : CollectiveAct ForkAct}
    (moved : CollectiveProgram
      (pyForkJoin N calls barriers) p shared process act shared' process') :
    PyForkReaches calls barriers ⟨shared, Function.update control p process⟩
      ⟨shared', Function.update control p process'⟩ := by
  have stepped :=
    PyForkReaches.step (Function.update_self p process control) moved
  rwa [Function.update_idem] at stepped

theorem PyForkReaches.code {rest' : PyForkMemory N φ α}
    {barrier : BarrierProcess}
    {process process' : PyForkProcess} {act : ForkAct}
    (here : control p = ⟨barrier, process⟩)
    (outside : barrier.pc = .outside)
    (moved : PyForkCode calls barriers p (memory.bufInt32, rest) process act
      (memory.bufInt32, rest') process') :
    PyForkReaches calls barriers ⟨⟨memory, rest⟩, control⟩
      ⟨⟨memory, rest'⟩, Function.update control p ⟨barrier, process'⟩⟩ :=
  .step here (.code outside moved)

/-- A process enters a barrier in which it is not the last. -/
theorem PyForkReaches.enters {entered returned : Nat} {process : PyForkProcess}
    (here : control p = ⟨⟨.outside, entered, returned⟩, process⟩)
    (calling : process.pc.callsBarrier = true)
    (inContext : process.inParallelContext = true)
    (phase : memory.bufInt32 EMS_CB_BARPHASE = 0)
    (others : 1 < memory.bufInt32 EMS_CB_NBAR0) :
    PyForkReaches calls barriers ⟨⟨memory, rest⟩, control⟩
      ⟨⟨⟨Function.update memory.bufInt32 EMS_CB_NBAR0
        (memory.bufInt32 EMS_CB_NBAR0 + -1),
        memory.flips⟩, rest⟩,
        Function.update control p ⟨⟨.spin 1 0, entered + 1, returned⟩,
          process⟩⟩ := by
  have reads : BarrierProgram p memory ⟨.readPhase 1, entered + 1, returned⟩
      .access _ _ :=
    .access (by simp) (by simp)
  have counts : BarrierProgram p memory ⟨.fetchAdd 1 0, entered + 1, returned⟩
      .access _ _ :=
    .access (by simp) (by simp)
  have notRace : ¬ memory.bufInt32 EMS_CB_NBAR0 < 0 := by omega
  have notLast : memory.bufInt32 EMS_CB_NBAR0 ≠ 1 := by omega
  simp only [EMSbarrier, phase, BarrierPc.isFlip, Bool.false_eq_true,
    if_false] at reads
  simp only [EMSbarrier, add_zero, notRace, notLast, BarrierPc.isFlip,
    Bool.false_eq_true, if_false]
    at counts
  exact (PyForkReaches.step here
    (.barrier (.call 1) fun _ _ => ⟨calling, inContext⟩)).trans
    ((PyForkReaches.next (.barrier reads (by simp))).trans
      (.next (.barrier counts (by simp))))

/-- Where everybody is before anybody is in a barrier.  The children are
receiving, with these requests and replies in their pipes. -/
structure PyForkPhase (context : Bool) (master : PyForkProcess)
    (requests : Nat → List (ParallelCall φ α)) (replies : Nat → Nat)
    (config : PyForkConfig N φ α) :
    Prop where
  memory : config.shared.barrier = ⟨initialControlBlock N, []⟩
  control : ∀ p, config.control p =
    ⟨⟨.outside, 0, 0⟩, if p.val = 0 then master else ⟨.receive, context, 0⟩⟩
  requests : ∀ p : Fin N, p.val ≠ 0 → config.shared.rest.requests p = requests p
  replies : ∀ p : Fin N, p.val ≠ 0 → config.shared.rest.replies p = replies p

section Phases

variable {context : Bool} {master master' : PyForkProcess}
  {requests requests' : Nat → List (ParallelCall φ α)}
    {replies replies' : Nat → Nat}
  {config : PyForkConfig N φ α}

/-- The master takes a step. -/
theorem PyForkPhase.moves {act : ForkAct} {rest' : PyForkMemory N φ α}
    (positive : 0 < N)
    (phase : PyForkPhase context master requests replies config)
    (moved : PyForkCode calls barriers ⟨0, positive⟩
      (initialControlBlock N, config.shared.rest) master act
      (initialControlBlock N, rest') master')
    (newRequests : ∀ p : Fin N, p.val ≠ 0 → rest'.requests p = requests' p)
    (newReplies : ∀ p : Fin N, p.val ≠ 0 → rest'.replies p = replies' p) :
    ∃ next, PyForkReaches calls barriers config next ∧
      PyForkPhase context master' requests' replies' next := by
  obtain ⟨⟨memory, rest⟩, control⟩ := config
  obtain rfl := phase.memory
  have here : control ⟨0, positive⟩ = ⟨⟨.outside, 0, 0⟩, master⟩ :=
    phase.control ⟨0, positive⟩
  refine ⟨_, .code here rfl moved, rfl, ?_, newRequests, newReplies⟩
  intro p
  by_cases isMaster : p.val = 0
  · obtain rfl : p = ⟨0, positive⟩ := Fin.ext isMaster
    simp
  · have different : p ≠ ⟨0, positive⟩ :=
      fun same => isMaster (congrArg Fin.val same)
    have others : control p = _ := phase.control p
    simp only [ne_eq, different, not_false_eq_true, Function.update_of_ne,
      others, if_neg isMaster]

theorem PyForkPhase.proceeds {act : ForkAct} {rest' : PyForkMemory N φ α}
    (positive : 0 < N)
    (phase : PyForkPhase context master requests replies config)
    (moved : PyForkCode calls barriers ⟨0, positive⟩
      (initialControlBlock N, config.shared.rest) master act
      (initialControlBlock N, rest') master')
    (sameRequests : rest'.requests = config.shared.rest.requests)
    (sameReplies : rest'.replies = config.shared.rest.replies) :
    ∃ next, PyForkReaches calls barriers config next ∧
      PyForkPhase context master' requests replies next := by
  refine phase.moves positive moved ?_ ?_
  · rw [sameRequests]
    exact phase.requests
  · rw [sameReplies]
    exact phase.replies

/-- The master sends the function to its children. -/
theorem PyForkPhase.sends (positive : 0 < N) (args : (calls 0).args ≠ [])
    (taskN : Nat)
    (inside : taskN + 1 ≤ N)
    (phase : PyForkPhase context ⟨.send 0, true, 0⟩ (fun _ => [])
      (fun _ => 0) config) :
    ∃ next, PyForkReaches calls barriers config next ∧
      PyForkPhase context ⟨.send taskN, true, 0⟩
        (fun p => if p ≤ taskN then [calls 0] else [])
        (fun _ => 0) next := by
  induction taskN with
  | zero =>
      refine ⟨config, .refl config, phase.memory, phase.control, ?_,
        phase.replies⟩
      intro p isChild
      rw [if_neg (by omega)]
      exact phase.requests p isChild
  | succ taskN induction =>
      obtain ⟨middle, reached, before⟩ := induction (by omega)
      obtain ⟨next, step, after⟩ : ∃ next,
          PyForkReaches calls barriers middle next ∧
          PyForkPhase context ⟨.send (taskN + 1), true, 0⟩
            (fun p => if p ≤ taskN + 1 then [calls 0] else [])
                (fun _ => 0) next := by
        refine before.moves positive (.send (by omega) args) ?_ before.replies
        intro p isChild
        by_cases target : p = ⟨taskN + 1, by omega⟩
        · subst target
          have old := before.requests ⟨taskN + 1, by omega⟩ isChild
          simp only [Nat.not_succ_le_self, if_false] at old
          simp [old]
        · have other : p.val ≠ taskN + 1 := fun same => target (Fin.ext same)
          have same : p.val ≤ taskN + 1 ↔ p.val ≤ taskN := by omega
          simp only [ne_eq, target, not_false_eq_true,
            Function.update_of_ne, same]
          exact before.requests p isChild
      exact ⟨next, reached.trans step, after⟩

/-- A child calls its function, in which no barrier makes it wait. -/
theorem PyForkReaches.runs {p : Fin N} {left : Nat} {barrier : BarrierProcess}
    {ended : Nat}
    (here : control p = ⟨barrier, ⟨.func left, context, ended⟩⟩)
    (outside : barrier.pc = .outside)
    (free : context = false ∨ left = 0) :
    PyForkReaches calls barriers ⟨⟨memory, rest⟩, control⟩
      ⟨⟨memory, rest⟩, Function.update control p
        ⟨barrier, ⟨.func 0, context, ended⟩⟩⟩ := by
  induction left generalizing control with
  | zero =>
      rw [Function.update_eq_self_iff.mpr here.symm]
      exact .refl _
  | succ left induction =>
      rcases free with free | impossible
      · have after :=
          @induction (Function.update control p
            ⟨barrier, ⟨.func left, context, ended⟩⟩)
          (Function.update_self _ _ _) (.inl free)
        rw [Function.update_idem] at after
        exact (PyForkReaches.code here outside (.skipBarrier rfl free)).trans
          after
      · cases impossible

/-- A child handles its request and sends a reply. -/
theorem PyForkPhase.child
    (phase : PyForkPhase context master requests replies config) {p : Fin N}
    (isChild : p.val ≠ 0) (request : requests p = [calls 0])
    (free : context = false ∨ barriers (calls 0) = 0) :
    ∃ next, PyForkReaches calls barriers config next ∧
      PyForkPhase context master (Function.update requests p [])
        (Function.update replies p (replies p + 1)) next := by
  obtain ⟨⟨memory, rest⟩, control⟩ := config
  have here : control p = ⟨⟨.outside, 0, 0⟩, ⟨.receive, context, 0⟩⟩ := by
    have own : control p = _ := phase.control p
    rwa [if_neg isChild] at own
  have still : Function.update control p
      ⟨⟨.outside, 0, 0⟩, ⟨.receive, context, 0⟩⟩ = control :=
    Function.update_eq_self_iff.mpr here.symm
  have pending : rest.requests p = [calls 0] :=
    (phase.requests p isChild).trans request
  have received : PyForkReaches calls barriers ⟨⟨memory, rest⟩, control⟩ _ :=
    .code here rfl (.receive pending)
  have ran := received.trans (.runs (Function.update_self _ _ _) rfl free)
  rw [Function.update_idem] at ran
  have finished :=
    ran.trans (.code (Function.update_self _ _ _) rfl (.finishChild isChild))
  rw [Function.update_idem] at finished
  have replied := finished.trans (.code (Function.update_self _ _ _) rfl .reply)
  rw [Function.update_idem, still] at replied
  refine ⟨_, replied, phase.memory, phase.control, ?_, ?_⟩
  · intro q other
    by_cases same : q = p
    · subst same
      simp
    · have different : q.val ≠ p.val := fun equal => same (Fin.ext equal)
      simp only [ne_eq, same, different, not_false_eq_true,
        Function.update_of_ne]
      exact phase.requests q other
  · intro q other
    by_cases same : q = p
    · subst same
      have before : rest.replies q = replies q := phase.replies q other
      simp [before]
    · have different : q.val ≠ p.val := fun equal => same (Fin.ext equal)
      simp only [ne_eq, same, different, not_false_eq_true,
        Function.update_of_ne]
      exact phase.replies q other

theorem PyForkPhase.congr
    (phase : PyForkPhase context master requests replies config)
    (sameRequests : ∀ p, p ≠ 0 → p < N → requests p = requests' p)
    (sameReplies : ∀ p, p ≠ 0 → p < N → replies p = replies' p) :
    PyForkPhase context master requests' replies' config :=
  ⟨phase.memory, phase.control,
    fun p isChild => (phase.requests p isChild).trans
      (sameRequests p isChild p.isLt),
    fun p isChild =>
      (phase.replies p isChild).trans (sameReplies p isChild p.isLt)⟩

/-- The children reply one after the other. -/
theorem PyForkPhase.replied (free : context = false ∨ barriers (calls 0) = 0)
    (count : Nat)
    (inside : count + 1 ≤ N)
    (phase : PyForkPhase context master (fun _ => [calls 0])
      (fun _ => 0) config) :
    ∃ next, PyForkReaches calls barriers config next ∧
      PyForkPhase context master (fun p => if p ≤ count then [] else [calls 0])
        (fun p => if p ≤ count then 1 else 0) next := by
  induction count with
  | zero =>
      refine ⟨config, .refl config, phase.congr ?_ ?_⟩
      · intro p isChild _
        rw [if_neg (by omega)]
      · intro p isChild _
        rw [if_neg (by omega)]
  | succ count induction =>
      obtain ⟨middle, reached, before⟩ := induction (by omega)
      obtain ⟨next, step, after⟩ :=
        before.child (p := ⟨count + 1, by omega⟩) (by simp) (by simp)
        free
      refine ⟨next, reached.trans step, after.congr ?_ ?_⟩
      · intro p _ _
        by_cases target : p = count + 1
        · simp [target]
        · have same : p ≤ count + 1 ↔ p ≤ count := by omega
          simp [target, same]
      · intro p _ _
        by_cases target : p = count + 1
        · simp [target]
        · have same : p ≤ count + 1 ↔ p ≤ count := by omega
          simp [target, same]

/-- The master receives the replies. -/
theorem PyForkPhase.collects (positive : 0 < N) (taskN : Nat)
    (inside : taskN + 1 ≤ N)
    (phase : PyForkPhase context ⟨.recv 0, true, 0⟩ requests
      (fun _ => 1) config) :
    ∃ next, PyForkReaches calls barriers config next ∧
      PyForkPhase context ⟨.recv taskN, true, 0⟩ requests
        (fun p => if p ≤ taskN then 0 else 1) next := by
  induction taskN with
  | zero =>
      refine ⟨config, .refl config, phase.congr (fun _ _ _ => rfl) ?_⟩
      intro p isChild _
      rw [if_neg (by omega)]
  | succ taskN induction =>
      obtain ⟨middle, reached, before⟩ := induction (by omega)
      obtain ⟨next, step, after⟩ : ∃ next,
          PyForkReaches calls barriers middle next ∧
          PyForkPhase context ⟨.recv (taskN + 1), true, 0⟩ requests
            (fun p => if p ≤ taskN + 1 then 0 else 1) next := by
        have some : middle.shared.rest.replies ⟨taskN + 1, by
            omega⟩ = 0 + 1 := by
          rw [before.replies _ (by simp)]
          simp
        refine before.moves positive (.recv (by omega) some) before.requests ?_
        intro p isChild
        by_cases target : p = ⟨taskN + 1, by omega⟩
        · subst target
          simp
        · have other : p.val ≠ taskN + 1 := fun same => target (Fin.ext same)
          have same : p.val ≤ taskN + 1 ↔ p.val ≤ taskN := by omega
          simp only [ne_eq, target, not_false_eq_true,
            Function.update_of_ne, same]
          exact before.replies p isChild
      exact ⟨next, reached.trans step, after⟩

theorem PyForkPhase.initial (EMS_Subtask : Option Nat) :
    PyForkPhase (stubContext EMS_Subtask) ⟨.outside, initializeContext .fj 0, 0⟩
      (fun _ => [])
      (fun _ => 0) (initialPyForkJoin N φ α EMS_Subtask) := by
  refine ⟨rfl, ?_, fun _ _ => rfl, fun _ _ => rfl⟩
  intro p
  by_cases isMaster : p.val = 0 <;> simp [initialPyForkJoin,
    initialCollective, isMaster]

/-- The master waits for the first reply, and every child has a request. -/
theorem PyForkReaches.requested (positive : 0 < N) (args : (calls 0).args ≠ [])
    (EMS_Subtask : Option Nat) :
    ∃ next, PyForkReaches calls barriers
      (initialPyForkJoin N φ α EMS_Subtask) next ∧
      PyForkPhase (stubContext EMS_Subtask) ⟨.recv 0, true, 0⟩
        (fun _ => [calls 0])
        (fun _ => 0) next := by
  have start := PyForkPhase.initial (N := N) (φ := φ) (α := α) EMS_Subtask
  obtain ⟨called, reached, calling⟩ :=
    start.proceeds positive (.call rfl) rfl rfl
  obtain ⟨before, sends, sending⟩ :=
    calling.sends positive args (N - 1) (by omega)
  obtain ⟨next, sent, waiting⟩ :=
    sending.proceeds positive (.sent (by omega)) rfl rfl
  refine ⟨next, (reached.trans sends).trans sent,
    waiting.congr ?_ (fun _ _ _ => rfl)⟩
  intro p _ inside
  rw [if_pos (by omega)]

/-- The master has come to the first barrier of its own call.  The children are
receiving again. -/
theorem PyForkReaches.joins (positive : 0 < N) {EMS_Subtask : Option Nat}
    (args : (calls 0).args ≠ [])
    (free : stubContext EMS_Subtask = false ∨ barriers (calls 0) = 0) :
    ∃ next pc, pc.callsBarrier = true ∧
      PyForkReaches calls barriers (initialPyForkJoin N φ α EMS_Subtask) next ∧
      PyForkPhase (stubContext EMS_Subtask) ⟨pc, true, 0⟩ (fun _ => [])
        (fun _ => 0) next := by
  obtain ⟨waits, requested, waiting⟩ :=
    PyForkReaches.requested positive args EMS_Subtask
  obtain ⟨replies, replied, replying⟩ := waiting.replied free (N - 1) (by omega)
  have pending : PyForkPhase _ _ (fun _ => []) (fun _ => 1) replies :=
    replying.congr (fun p _ inside => if_pos (by omega))
      (fun p _ inside => if_pos (by omega))
  obtain ⟨collected, collects, collecting⟩ :=
    pending.collects positive (N - 1) (by omega)
  have empty : PyForkPhase _ _ (fun _ => []) (fun _ => 0) collected :=
    collecting.congr (fun _ _ _ => rfl) (fun p _ inside => if_pos (by omega))
  obtain ⟨started, starts, running⟩ :=
    empty.proceeds positive (.start (by omega)) rfl rfl
  have reached := ((requested.trans replied).trans collects).trans starts
  cases left : barriers (calls 0) with
  | zero =>
      rw [left] at running
      obtain ⟨next, finishes, joining⟩ :=
        running.proceeds positive (.finish rfl) rfl rfl
      exact ⟨next, .join, rfl, reached.trans finishes, joining⟩
  | succ left' =>
      rw [left] at running
      exact ⟨started, .func (left' + 1), rfl, reached, running⟩

theorem PyForkPhase.stuck {pc : PyForkPc} (two : 2 ≤ N)
    (calling : pc.callsBarrier = true)
    (phase : PyForkPhase context ⟨pc, true, 0⟩ (fun _ => [])
      (fun _ => 0) config) :
    ∃ next, PyForkReaches calls barriers config next ∧ PyForkStuck next := by
  obtain ⟨⟨memory, rest⟩, control⟩ := config
  obtain rfl : memory = ⟨initialControlBlock N, []⟩ := phase.memory
  have here : control ⟨0, by omega⟩ = ⟨⟨.outside, 0, 0⟩, ⟨pc, true, 0⟩⟩ :=
    phase.control ⟨0, by omega⟩
  have others : 1 < initialControlBlock N EMS_CB_NBAR0 := by
    have threads : (1 : Int) < N := by omega
    simpa [initialControlBlock] using threads
  refine ⟨_, .enters here calling rfl rfl others, ?_, ?_⟩
  · intro root isMaster
    have same : root = ⟨0, by omega⟩ := Fin.ext isMaster
    right
    refine ⟨1, 0, ?_, ?_⟩
    · simp [same]
    · simp [initialControlBlock, EMS_CB_BARPHASE, EMS_CB_NBAR0, EMS_CB_NBAR1,
        EMS_CB_NTHREADS]
  · intro p isChild
    have different : p ≠ ⟨0, by omega⟩ :=
      fun same => isChild (congrArg Fin.val same)
    have receives : control p = _ := phase.control p
    rw [if_neg isChild] at receives
    left
    simp only [ne_eq, different, not_false_eq_true, Function.update_of_ne,
      receives, true_and]
    exact phase.requests p isChild

end Phases

/-- The first children wait in the first barrier of their function, and the
master waits for the first reply. -/
structure PyForkWaiting (call : ParallelCall φ α) (left count : Nat)
    (config : PyForkConfig N φ α) :
    Prop where
  phase : config.shared.barrier.bufInt32 EMS_CB_BARPHASE = 0
  counter : config.shared.barrier.bufInt32 EMS_CB_NBAR0 = N - count
  control : ∀ p, config.control p =
    if p.val = 0 then ⟨⟨.outside, 0, 0⟩, ⟨.recv 0, true, 0⟩⟩
    else if p.val ≤ count then ⟨⟨.spin 1 0, 1, 0⟩, ⟨.func (left + 1), true, 0⟩⟩
    else ⟨⟨.outside, 0, 0⟩, ⟨.receive, true, 0⟩⟩
  requests : ∀ p : Fin N, p.val ≠ 0 → count < p.val →
    config.shared.rest.requests p = [call]
  replies : ∀ p : Fin N, p.val ≠ 0 → config.shared.rest.replies p = 0

section Waits

variable {left count : Nat} {config : PyForkConfig N φ α}

/-- The next child calls its function and enters the barrier. -/
theorem PyForkWaiting.next (left_eq : barriers (calls 0) = left + 1)
    (inside : count + 1 < N)
    (waiting : PyForkWaiting (calls 0) left count config) :
    ∃ next, PyForkReaches calls barriers config next ∧
      PyForkWaiting (calls 0) left (count + 1) next := by
  obtain ⟨⟨memory, rest⟩, control⟩ := config
  have here : control ⟨count + 1, inside⟩ =
      ⟨⟨.outside, 0, 0⟩, ⟨.receive, true, 0⟩⟩ := by
    have own : control ⟨count + 1, inside⟩ = _ := waiting.control _
    rwa [if_neg (by simp), if_neg (by simp)] at own
  have pending : rest.requests ⟨count + 1, inside⟩ = [calls 0] :=
    waiting.requests ⟨count + 1, inside⟩ (by simp) (by simp)
  have others : 1 < memory.bufInt32 EMS_CB_NBAR0 := by
    have counter : memory.bufInt32 EMS_CB_NBAR0 = N - count := waiting.counter
    omega
  have received : PyForkReaches calls barriers ⟨⟨memory, rest⟩, control⟩ _ :=
    .code here rfl (.receive pending)
  rw [left_eq] at received
  have entered := received.trans
    (.enters (Function.update_self _ _ _) rfl rfl waiting.phase others)
  rw [Function.update_idem] at entered
  refine ⟨_, entered, ?_, ?_, ?_, ?_, waiting.replies⟩
  · have apart : EMS_CB_BARPHASE ≠ EMS_CB_NBAR0 := by decide
    have phase : memory.bufInt32 EMS_CB_BARPHASE = 0 := waiting.phase
    simp [apart, phase]
  · have counter : memory.bufInt32 EMS_CB_NBAR0 = N - count := waiting.counter
    simp only [Function.update_self, counter]
    omega
  · intro p
    by_cases target : p = ⟨count + 1, inside⟩
    · subst target
      simp
    · have other : p.val ≠ count + 1 := fun same => target (Fin.ext same)
      have same : p.val ≤ count + 1 ↔ p.val ≤ count := by omega
      simp only [ne_eq, target, not_false_eq_true, Function.update_of_ne, same]
      exact waiting.control p
  · intro p isChild later
    have other : p ≠ ⟨count + 1, inside⟩ := by
      rintro rfl
      exact Nat.lt_irrefl _ later
    simp only [ne_eq, other, not_false_eq_true, Function.update_of_ne]
    exact waiting.requests p isChild (by omega)

theorem PyForkWaiting.enter (left_eq : barriers (calls 0) = left + 1)
    (count : Nat)
    (inside : count < N) (waiting : PyForkWaiting (calls 0) left 0 config) :
    ∃ next, PyForkReaches calls barriers config next ∧
      PyForkWaiting (calls 0) left count next := by
  induction count with
  | zero => exact ⟨config, .refl config, waiting⟩
  | succ count induction =>
      obtain ⟨middle, reached, before⟩ := induction (by omega)
      obtain ⟨next, step, after⟩ := before.next left_eq inside
      exact ⟨next, reached.trans step, after⟩

theorem PyForkWaiting.stuck {call : ParallelCall φ α} (two : 2 ≤ N)
    (waiting : PyForkWaiting call left (N - 1) config) :
    PyForkStuck config := by
  have master : ∀ root : Fin N, root.val = 0 →
      config.control root = ⟨⟨.outside, 0, 0⟩, ⟨.recv 0, true, 0⟩⟩ := by
    intro root isMaster
    rw [waiting.control, if_pos isMaster]
  constructor
  · intro root isMaster
    left
    refine ⟨0, two, ?_, waiting.replies _ (by simp)⟩
    rw [master root isMaster]
  · intro p isChild
    have here := waiting.control p
    rw [if_neg isChild, if_pos (by omega)] at here
    right
    refine ⟨⟨1, 0, ?_, waiting.phase⟩, ?_⟩
    · rw [here]
    · intro root isMaster
      rw [master root isMaster, here]
      exact Nat.zero_lt_one

end Waits

/-- The first call of `parallel` can get stuck. -/
theorem PyForkReaches.stuck (two : 2 ≤ N) {EMS_Subtask : Option Nat}
    (args : (calls 0).args ≠ []) :
    ∃ config, PyForkReaches calls barriers
      (initialPyForkJoin N φ α EMS_Subtask) config ∧
      PyForkStuck config := by
  by_cases free : stubContext EMS_Subtask = false ∨ barriers (calls 0) = 0
  · have positive : 0 < N := by omega
    obtain ⟨middle, pc, calling, reached, phase⟩ :=
      PyForkReaches.joins positive args free
    obtain ⟨config, enters, stuck⟩ := phase.stuck two calling
    exact ⟨config, reached.trans enters, stuck⟩
  · obtain ⟨inContext, some⟩ := not_or.mp free
    obtain ⟨left, left_eq⟩ := Nat.exists_eq_succ_of_ne_zero some
    have positive : 0 < N := by omega
    obtain ⟨middle, requested, phase⟩ :=
      PyForkReaches.requested positive args EMS_Subtask
    rw [Bool.not_eq_false] at inContext
    rw [inContext] at phase
    have waiting : PyForkWaiting (calls 0) left 0 middle := by
      refine ⟨?_, ?_, ?_, fun p isChild _ => phase.requests p isChild,
        phase.replies⟩
      · rw [phase.memory]
        rfl
      · rw [phase.memory]
        simp [initialControlBlock, EMS_CB_NBAR0]
      · intro p
        rw [phase.control p]
        by_cases isMaster : p.val = 0 <;> simp [isMaster]
    obtain ⟨config, enters, all⟩ := waiting.enter left_eq (N - 1) (by omega)
    exact ⟨config, requested.trans enters, all.stuck two⟩

end Stuck

/-! ## The arrivals at the join barrier -/

/-- The process has come to the end of the `k`-th region. -/
def PyForkProcess.hasJoined (process : PyForkProcess) (k : Nat) : Bool :=
  k < process.ended ||
    (k = process.ended && (process.pc = .join || process.pc = .leaving))

/-- Only the master comes to the join barrier, once in a region. -/
def PyForkArrivals (config : PyForkConfig N φ α) : Prop :=
  ∀ root : Fin N, root.val = 0 → ∀ k,
    config.shared.rest.log.countP (PyForkEvent.isJoined k) ≤
      ((config.control root).state.hasJoined k).toNat

section Arrivals

variable {calls : Nat → ParallelCall φ α}
  {barriers : ParallelCall φ α → Nat} {p : Fin N}
  {memory memory' : ControlBlock × PyForkMemory N φ α}
    {process process' : PyForkProcess}
  {act : ForkAct}

theorem PyForkProcess.resume_joined (process : PyForkProcess) (k : Nat) :
    process.resume.hasJoined k = process.hasJoined k := by
  obtain ⟨pc, inParallelContext, ended⟩ := process
  cases pc with
  | func left => cases left <;> rfl
  | join =>
      simp only [PyForkProcess.resume, PyForkProcess.hasJoined, decide_true,
        Bool.true_or,
        Bool.or_true]
      rfl
  | _ => rfl

/-- A step of the master. -/
theorem PyForkCode.arrives (k : Nat)
    (moved : PyForkCode calls barriers p memory process act memory' process')
    (before : memory.2.log.countP (PyForkEvent.isJoined k) ≤
      (process.hasJoined k).toNat) :
    memory'.2.log.countP (PyForkEvent.isJoined k) ≤
      (process'.hasJoined k).toNat := by
  cases moved with
  | raise =>
      simpa [PyForkEvent.isJoined, PyForkProcess.hasJoined] using before
  | @finish bufInt32 memory context ended =>
      simp only [List.countP_append, List.countP_singleton,
        PyForkEvent.isJoined]
      by_cases earlier : k < ended
      · have different : ended ≠ k := by omega
        simpa [PyForkProcess.hasJoined, earlier, different] using before
      · by_cases same : ended = k
        · subst same
          simpa [PyForkProcess.hasJoined] using before
        · simpa [PyForkProcess.hasJoined, earlier, same,
            Ne.symm same] using before
  | @ret bufInt32 memory context ended =>
      have grows : k < ended + 1 ↔ k < ended ∨ k = ended := by omega
      simpa [PyForkEvent.isJoined, PyForkProcess.hasJoined, grows] using before
  | skipBarrier => rwa [PyForkProcess.resume_joined]
  | _ => simpa [PyForkProcess.hasJoined] using before

theorem PyForkCode.child_arrives (isChild : p.val ≠ 0) (k : Nat)
    (moved : PyForkCode calls barriers p memory process act memory' process') :
    memory'.2.log.countP (PyForkEvent.isJoined k) =
      memory.2.log.countP (PyForkEvent.isJoined k) := by
  cases moved with
  | finish isMaster => exact absurd isMaster isChild
  | raise | ret => simp [PyForkEvent.isJoined]
  | _ => rfl

theorem PyForkArrivals.step {config next : PyForkConfig N φ α}
    {label : Fin N × CollectiveAct ForkAct}
    (arrivals : PyForkArrivals config)
    (step : PyForkStep calls barriers config label next) :
    PyForkArrivals next := by
  obtain ⟨⟨memory, rest⟩, control⟩ := config
  cases step with
  | @mk p act memory' process moved =>
      intro root isMaster k
      have before : rest.log.countP _ ≤
          ((control root).state.hasJoined k).toNat :=
        arrivals root isMaster k
      simp only at moved
      generalize here : control p = own at moved
      by_cases same : root = p
      · subst same
        rw [here] at before
        simp only [Function.update_self]
        cases moved with
        | code _ moves => exact moves.arrives k before
        | @barrier _ _ _ _ _ state act _ _ =>
            have still : (BarrierClient.proceed (pyForkJoin N calls barriers)
                act state).hasJoined k =
                state.hasJoined k := by
              cases act with
              | ret retval => exact state.resume_joined k
              | call timeout | access => rfl
            simp only [still]
            exact before
      · have isChild : p.val ≠ 0 :=
          fun other => same (Fin.ext (isMaster.trans other.symm))
        simp only [ne_eq, same, not_false_eq_true, Function.update_of_ne]
        cases moved with
        | code _ moves => exact (moves.child_arrives isChild k).trans_le before
        | barrier => exact before

theorem PyForkArrivals.run {EMS_Subtask : Option Nat}
    {trace : List (Fin N × CollectiveAct ForkAct)}
    {config : PyForkConfig N φ α}
    (run : Run (PyForkStep calls barriers)
      (initialPyForkJoin N φ α EMS_Subtask) trace config) :
    PyForkArrivals config := by
  apply run.invariant PyForkArrivals
  · intro config label next arrivals step
    exact arrivals.step step
  · intro root _ k
    exact Nat.zero_le _

end Arrivals

/-- Fork-join regions never keep the promise.  When the function has arguments,
the first call of `parallel` can get stuck, and in every run each call adds
fewer arrivals than there are processes. -/
theorem parallel_never_safe (two : 2 ≤ N) (calls : Nat → ParallelCall φ α)
    (barriers : ParallelCall φ α → Nat) (EMS_Subtask : Option Nat) :
    ¬ PyForkSafe (N := N) calls barriers EMS_Subtask ∧
    ((calls 0).args ≠ [] → ∃ trace config,
      Run (PyForkStep calls barriers) (initialPyForkJoin N φ α EMS_Subtask)
        trace config ∧
        PyForkStuck config) ∧
    ∀ trace config,
      Run (PyForkStep calls barriers) (initialPyForkJoin N φ α EMS_Subtask)
        trace config →
      ∀ k, config.shared.rest.log.countP (PyForkEvent.isJoined k) < N := by
  have gets : (calls 0).args ≠ [] → ∃ trace config,
      Run (PyForkStep calls barriers) (initialPyForkJoin N φ α EMS_Subtask)
        trace config ∧
        PyForkStuck config := by
    intro args
    obtain ⟨config, ⟨trace, run⟩, stuck⟩ := PyForkReaches.stuck two args
    exact ⟨trace, config, run, stuck⟩
  have fewer : ∀ trace config,
      Run (PyForkStep calls barriers) (initialPyForkJoin N φ α EMS_Subtask)
        trace config →
      ∀ k, config.shared.rest.log.countP (PyForkEvent.isJoined k) < N := by
    intro trace config run k
    have arrived := PyForkArrivals.run run ⟨0, by omega⟩ rfl k
    have bound :=
      Bool.toNat_le ((config.control ⟨0, by omega⟩).state.hasJoined k)
    omega
  refine ⟨?_, gets, fewer⟩
  intro safe
  by_cases args : (calls 0).args = []
  · have start := PyForkPhase.initial (N := N) (φ := φ) (α := α) EMS_Subtask
    have master : (initialPyForkJoin N φ α EMS_Subtask).control ⟨0, by
        omega⟩ = _ :=
      start.control ⟨0, by omega⟩
    have called : PyForkReaches calls barriers
        (initialPyForkJoin N φ α EMS_Subtask) _ :=
      .code master rfl (.call rfl)
    obtain ⟨trace, run⟩ := called.trans
      (.code (Function.update_self _ _ _) rfl (.raise (by omega) args))
    have all := safe.joined trace _ run 0 (by simp)
    have some := fewer trace _ run 0
    omega
  · obtain ⟨trace, config, run, stuck⟩ := gets args
    exact safe.notStuck trace config run stuck

/-- Two processes and a function with one barrier. -/
theorem parallel_never_safe_two :
    ¬ PyForkSafe (N := 2) (fun _ => ⟨(), [()]⟩) (fun _ => 1) (some 1) :=
  (parallel_never_safe (by decide) (fun _ => ⟨(), [()]⟩)
    (fun _ => 1) (some 1)).1

/-- A function without barriers, as `ems.parallel(func, a)` calls it.  The
children receive again while the master waits in the barrier for them. -/
theorem parallel_not_safe : ¬ ∀ (N : Nat),
    2 ≤ N → ∀ (calls : Nat → ParallelCall Unit Unit)
    (barriers : ParallelCall Unit Unit → Nat),
      PyForkSafe (N := N) calls barriers none := by
  intro safe
  have two := safe 2 (Nat.le_refl 2) (fun _ => ⟨(), [()]⟩) (fun _ => 0)
  have reached : ∃ config,
      PyForkReaches (fun _ => (⟨(), [()]⟩ : ParallelCall Unit Unit))
      (fun _ => 0) (initialPyForkJoin 2 Unit Unit none) config ∧
          PyForkStuck config :=
    PyForkReaches.stuck (Nat.le_refl 2) (List.cons_ne_nil _ _)
  obtain ⟨config, ⟨trace, run⟩, stuck⟩ := reached
  exact two.notStuck trace config run stuck

end Code

end EMS
