import EMS.BarrierRounds
import EMS.Memory

/-!
# Collective creation of a region

All processes call `EMSnew` with the same arguments, and each of them calls
`EMSinitialize`, which initialises its share of the elements.  Process 0 also
removes the old file and writes the header.  It calls the barrier after
`EMSinitialize`, the others before it, and all of them call it once more.
-/

namespace EMS

open Interleaving BulkSynchronous

/-! ## The accesses of EMSinitialize -/

/-- The words that process 0 stores first: those of the EMS control block, or
those of an array. -/
inductive HeaderWord where
  | nThreads
  | nbar0
  | nbar1
  | barPhase
  | critical
  | single
  | lock (i : Nat)
  | nElem
  | heapSz
  | mapBot
  | mallocBot
  | heapBot
  | qBottom
  | qBottomTag
  | stackTop
  | stackTopTag
  | memMutex
  | fileSz
  | level
  deriving DecidableEq, Repr

/-- What `EMSinitialize` does with the file, or with its mapping. -/
inductive FileAccess where
  | unlink
  | shmUnlink
  | openFile
  | ftruncate
  | mmap
  | header (word : HeaderWord)
  | allocText (idx : Int)
  | dataWord (idx : Int)
  | text (idx : Int)
  | unknownFill (idx : Int)
  | dataTag (idx : Int)
  | mapTagFE (idx : Int)
  | mapTagType (idx : Int)
  deriving DecidableEq, Repr

/-- The arguments that matter for what is accessed.  `dataFill` is the type of
the fill value, if there is one. -/
structure NewArgs where
  nElements : Int
  useMap : Bool
  dataFill : Option EMSType
  doSetFEtags : Bool
  deriving DecidableEq, Repr

def fillAccesses (idx : Int) : EMSType → List FileAccess
  | .boolean | .integer | .float | .undefined => [.dataWord idx]
  | .json | .string => [.allocText idx, .dataWord idx, .text idx]
  -- "EMSinitialize: fill type is unknown"
  | .invalid | .unassigned => [.unknownFill idx]

def elementAccesses (args : NewArgs) (idx : Int) : List FileAccess :=
  (match args.dataFill with
    | some type => fillAccesses idx type
    | none => []) ++
  (if args.doSetFEtags || args.dataFill.isSome then [.dataTag idx] else []) ++
  (if args.useMap then [.mapTagFE idx, .mapTagType idx] else [])

/-- The share of a process in the elements. -/
def elementShare (nElements : Int) (nThreads EMSmyID : Nat) : List Int :=
  let iterPerThread := nElements.tdiv nThreads + 1
  let startIter := iterPerThread * EMSmyID
  let endIter := iterPerThread * (EMSmyID + 1)
  let endIter := if endIter > nElements then nElements else endIter
  (List.range (endIter - startIter).toNat).map fun i : Nat => startIter + i

/-- The header as process 0 writes it. -/
def headerWords (nElements : Int) (nThreads : Nat) : List HeaderWord :=
  if nElements ≤ 0 then
    [.nThreads, .nbar0, .nbar1, .barPhase, .critical, .single] ++
      (List.range nThreads).map .lock
  else
    [.nElem, .heapSz, .mapBot, .mallocBot, .heapBot, .qBottom,
      .qBottomTag, .stackTop,
      .stackTopTag, .memMutex, .fileSz, .level]

def unlinkAccesses (EMSmyID : Nat) : List FileAccess :=
  if EMSmyID = 0 then [.unlink, .shmUnlink] else []

def headerAccesses (args : NewArgs) (nThreads EMSmyID : Nat) :
    List FileAccess :=
  if EMSmyID = 0 then (headerWords args.nElements nThreads).map .header else []

/-- What comes before the elements. -/
def setupAccesses (args : NewArgs) (nThreads EMSmyID : Nat) : List FileAccess :=
  unlinkAccesses EMSmyID ++ [.openFile, .ftruncate, .mmap] ++
    headerAccesses args nThreads EMSmyID

/-- The accesses of `EMSinitialize` when `useExisting` is false. -/
def EMSinitializeAccesses (args : NewArgs) (nThreads EMSmyID : Nat) :
    List FileAccess :=
  setupAccesses args nThreads EMSmyID ++
    (elementShare args.nElements nThreads EMSmyID).flatMap
      (elementAccesses args)

/-- `EMSinitialize` may return here: the heap has no room for the text, or the
type of the fill is none of a value. -/
def FileAccess.mayStop : FileAccess → Bool
  | .allocText _ | .unknownFill _ => true
  | _ => false

/-! ## Creation -/

/-- Control points of `EMSnew` when `useExisting` is false: the barrier before
`EMSinitialize`, its accesses that are left, the barrier after it, and the last
one. -/
inductive NewPc where
  | outside
  | firstBarrier (accesses : List FileAccess)
  | init (accesses : List FileAccess)
  | secondBarrier
  | lastBarrier
  | leaving
  deriving DecidableEq, Repr

/-- A process with the number of regions that it has created. -/
structure NewProcess where
  pc : NewPc
  created : Nat
  deriving DecidableEq, Repr

/-- What happens in the creation of the `k`-th region. -/
inductive CreationEvent (N : Nat) where
  | access (p : Fin N) (k : Nat) (access : FileAccess)
  | stopped (p : Fin N) (k : Nat)
  | initialized (p : Fin N) (k : Nat)
  | returned (p : Fin N) (k : Nat)
  deriving DecidableEq, Repr

inductive NewAct where
  | call
  | access
  | stop
  | initialized
  | ret

variable {N : Nat}

/-- The first step of `EMSnew`: only process 0 goes on to `EMSinitialize`. -/
def EMSnew (args : NewArgs) (nThreads myID : Nat) : NewPc :=
  if myID ≠ 0 then .firstBarrier (EMSinitializeAccesses args nThreads myID)
  else .init (EMSinitializeAccesses args nThreads myID)

/-- The step of `EMSnew` after `EMSinitialize`. -/
def EMSnewInitialized (myID : Nat) : NewPc :=
  if myID = 0 then .secondBarrier else .lastBarrier

/-- The code of `EMSnew` apart from its barriers.  The arguments of the `k`-th
region are `regions k`. -/
inductive NewCode (regions : Nat → NewArgs) (p : Fin N) :
    ControlBlock × List (CreationEvent N) → NewProcess → NewAct →
      ControlBlock × List (CreationEvent N) → NewProcess → Prop where
  | call {memory : ControlBlock × List (CreationEvent N)} {k : Nat} :
      NewCode regions p memory ⟨.outside, k⟩ .call memory
        ⟨EMSnew (regions k) N p, k⟩
  | access {bufInt32 : ControlBlock} {log : List (CreationEvent N)}
      {access : FileAccess}
      {rest : List FileAccess} {k : Nat} :
      (∀ idx, access ≠ .unknownFill idx) →
      NewCode regions p (bufInt32, log) ⟨.init (access :: rest), k⟩ .access
        (bufInt32, log ++ [.access p k access]) ⟨.init rest, k⟩
  | stop {bufInt32 : ControlBlock} {log : List (CreationEvent N)}
      {access : FileAccess}
      {rest : List FileAccess} {k : Nat} :
      access.mayStop = true →
      NewCode regions p (bufInt32, log) ⟨.init (access :: rest), k⟩ .stop
        (bufInt32, log ++ [.stopped p k]) ⟨.init [], k⟩
  | initialized {bufInt32 : ControlBlock}
      {log : List (CreationEvent N)} {k : Nat} :
      NewCode regions p (bufInt32, log) ⟨.init [], k⟩ .initialized
        (bufInt32, log ++ [.initialized p k]) ⟨EMSnewInitialized p, k⟩
  | ret {bufInt32 : ControlBlock} {log : List (CreationEvent N)} {k : Nat} :
      NewCode regions p (bufInt32, log) ⟨.leaving, k⟩ .ret
        (bufInt32, log ++ [.returned p k]) ⟨.outside, k + 1⟩

/-- Processes that create one region after the other. -/
def creation (N : Nat) (regions : Nat → NewArgs) :
    BarrierClient N (List (CreationEvent N)) NewProcess NewAct where
  code := NewCode regions
  atBarrier process :=
    match process.pc with
    | .firstBarrier _ | .secondBarrier | .lastBarrier => True
    | _ => False
  resume process :=
    match process.pc with
    | .firstBarrier accesses => { process with pc := .init accesses }
    | .secondBarrier => { process with pc := .lastBarrier }
    | .lastBarrier => { process with pc := .leaving }
    | _ => process
  apart := by
    intro p memory state act memory' state' moved word _
    cases moved <;> rfl

/-- Nobody has called `EMSnew` yet. -/
def initialCreation (N : Nat) :
    CollectiveConfig N (List (CreationEvent N)) NewProcess :=
  initialCollective N [] fun _ => ⟨.outside, 0⟩

/-! ## The promise -/

/-- What a process has done when `EMSinitialize` returns. -/
def Initialized (regions : Nat → NewArgs) (before : List (CreationEvent N))
    (p : Fin N) (k : Nat) :
    Prop :=
  (∀ access ∈ setupAccesses (regions k) N p, .access p k access ∈ before) ∧
    ((∀ access ∈ EMSinitializeAccesses (regions k) N p,
      .access p k access ∈ before) ∨
      .stopped p k ∈ before)

/-- What must have happened before an event, and what must not. -/
def CreationEvent.After (regions : Nat → NewArgs)
    (before : List (CreationEvent N)) :
    CreationEvent N → Prop
  | .access p k _ =>
      -- process 0 has removed the old file and has written the header
      (p.val ≠ 0 → ∀ root : Fin N, root.val = 0 →
        ∀ access ∈ setupAccesses (regions k) N root,
        .access root k access ∈ before) ∧
      -- nothing is initialised again once a process has the region
      ∀ q, .returned q k ∉ before
  | .stopped _ _ => True
  | .initialized p k => Initialized regions before p k
  | .returned _ k => ∀ q, .initialized q k ∈ before

/-! ## The invariant -/

abbrev NewMember := Member NewProcess

/-- The accesses that are left, and those that have been made. -/
def InitProgress (regions : Nat → NewArgs) (log : List (CreationEvent N))
    (p : Fin N) (k : Nat)
    (rest : List FileAccess) : Prop :=
  (∃ done, EMSinitializeAccesses (regions k) N p = done ++ rest ∧
      ∀ access ∈ done, .access p k access ∈ log) ∨
    (rest = [] ∧ .stopped p k ∈ log ∧
      ∀ access ∈ setupAccesses (regions k) N p, .access p k access ∈ log)

/-- The number of barriers that a process has left, by where it is. -/
def CreationPlaced (regions : Nat → NewArgs)
    (log : List (CreationEvent N)) (p : Fin N)
    (member : NewMember) : Prop :=
  let k := member.state.created
  match member.state.pc with
  | .outside => member.status = .running ∧ member.left = 2 * k
  | .firstBarrier accesses => p.val ≠ 0 ∧ member.left = 2 * k ∧
      accesses = EMSinitializeAccesses (regions k) N p
  | .init accesses => member.status = .running ∧
      member.left = 2 * k + (if p.val = 0 then 0 else 1) ∧
        InitProgress regions log p k accesses
  | .secondBarrier => p.val = 0 ∧ member.left = 2 * k ∧ .initialized p k ∈ log
  | .lastBarrier => member.left = 2 * k + 1 ∧ .initialized p k ∈ log
  | .leaving =>
      member.status = .running ∧ member.left = 2 * k + 2 ∧
        .initialized p k ∈ log

abbrev CreationState (N : Nat) :=
  State (Fin N) (ControlBlock × List (CreationEvent N)) NewProcess

structure CreationInvariant (regions : Nat → NewArgs)
    (state : CreationState N) : Prop where
  placed : ∀ p, CreationPlaced regions state.shared.2 p (state.members p)
  past : ∀ p k, k < (state.members p).state.created →
    .initialized p k ∈ state.shared.2
  returned : ∀ p k, .returned p k ∈ state.shared.2 → 2 * k + 2 ≤ state.round
  ordered : Ordered (CreationEvent.After regions) state.shared.2

private theorem initialCreation_invariant (regions : Nat → NewArgs) :
    CreationInvariant regions (initialCreation N).rounds := by
  constructor
  · intro p
    exact ⟨rfl, rfl⟩
  · intro p k none
    cases none
  · intro p k member
    cases member
  · exact Ordered.nil

section Facts

variable {regions : Nat → NewArgs} {log log' : List (CreationEvent N)}
  {p : Fin N} {k : Nat}

theorem InitProgress.mono {rest : List FileAccess}
    (kept : ∀ event ∈ log, event ∈ log')
    (progress : InitProgress regions log p k rest) :
    InitProgress regions log' p k rest := by
  rcases progress with ⟨done, split, made⟩ | ⟨nothing, stopped, made⟩
  · exact .inl ⟨done, split, fun access member => kept _ (made access member)⟩
  · exact .inr ⟨nothing, kept _ stopped,
      fun access member => kept _ (made access member)⟩

theorem CreationPlaced.mono {member : NewMember}
    (kept : ∀ event ∈ log, event ∈ log')
    (placed : CreationPlaced regions log p member) :
    CreationPlaced regions log' p member := by
  obtain ⟨status, left, ⟨pc, created⟩⟩ := member
  cases pc with
  | outside => exact placed
  | firstBarrier => exact placed
  | init accesses =>
      obtain ⟨running, leftEq, progress⟩ := placed
      exact ⟨running, leftEq, progress.mono kept⟩
  | secondBarrier =>
      obtain ⟨root, leftEq, initialized⟩ := placed
      exact ⟨root, leftEq, kept _ initialized⟩
  | lastBarrier =>
      obtain ⟨leftEq, initialized⟩ := placed
      exact ⟨leftEq, kept _ initialized⟩
  | leaving =>
      obtain ⟨running, leftEq, initialized⟩ := placed
      exact ⟨running, leftEq, kept _ initialized⟩

/-- The elements come after the setup, and only they can stop it. -/
theorem setup_done {done rest : List FileAccess} {access : FileAccess}
    (split : EMSinitializeAccesses (regions k) N p = done ++ access :: rest)
    (stops : access.mayStop = true) : ∀ early ∈ setupAccesses (regions k) N p,
      early ∈ done := by
  have apart : access ∉ setupAccesses (regions k) N p := by
    intro member
    simp only [setupAccesses, unlinkAccesses, headerAccesses,
      List.mem_append] at member
    rcases member with (inUnlink | inOpen) | inHeader
    · split_ifs at inUnlink
      · simp only [List.mem_cons, List.not_mem_nil, or_false] at inUnlink
        rcases inUnlink with rfl | rfl <;> cases stops
      · cases inUnlink
    · simp only [List.mem_cons, List.not_mem_nil, or_false] at inOpen
      rcases inOpen with rfl | rfl | rfl <;> cases stops
    · split_ifs at inHeader
      · obtain ⟨word, -, rfl⟩ := List.mem_map.mp inHeader
        cases stops
      · cases inHeader
  rw [EMSinitializeAccesses] at split
  intro early member
  rcases List.append_eq_append_iff.mp split with ⟨more, doneEq, -⟩ |
    ⟨more, setupEq, tail⟩
  · rw [doneEq]
    exact List.mem_append_left _ member
  · cases more with
    | nil =>
        rw [List.append_nil] at setupEq
        rwa [← setupEq]
    | cons head tail' =>
        obtain ⟨rfl, -⟩ := List.cons.inj tail
        exact absurd (by rw [setupEq]; simp) apart

theorem InitProgress.initialized (progress : InitProgress regions log p k []) :
    Initialized regions log p k := by
  rcases progress with ⟨done, split, made⟩ | ⟨-, stopped, made⟩
  · rw [List.append_nil] at split
    have all : ∀ access ∈ EMSinitializeAccesses (regions k) N p,
        .access p k access ∈ log := by
      rw [split]
      exact made
    refine ⟨fun access member => all access ?_, .inl all⟩
    rw [EMSinitializeAccesses]
    exact List.mem_append_left _ member
  · exact ⟨made, .inr stopped⟩

private theorem initialized_of_mem
    (ordered : Ordered (CreationEvent.After regions) log)
    (member : .initialized p k ∈ log) : Initialized regions log p k := by
  obtain ⟨before, after, rfl⟩ := List.append_of_mem member
  obtain ⟨setup, rest⟩ := ordered before _ after rfl
  constructor
  · intro access early
    exact List.mem_append_left _ (setup access early)
  · rcases rest with all | stopped
    · exact .inl fun access early => List.mem_append_left _ (all access early)
    · exact .inr (List.mem_append_left _ stopped)

end Facts

/-! ## Every step -/

section Steps

variable {regions : Nat → NewArgs} {bufInt32 bufInt32' : ControlBlock}
  {log log' : List (CreationEvent N)} {members : Fin N → NewMember}
    {round : Nat} {p : Fin N}
  {member : NewMember}

/-- Once a process has left both barriers of a creation, everybody has
initialised its share. -/
theorem CreationInvariant.everybody
    (invariant : CreationInvariant regions ⟨(bufInt32, log), members, round⟩)
    (inRound : State.InRound ⟨(bufInt32, log), members, round⟩) {k : Nat}
    (passed : round = 2 * k + 2) (q : Fin N) : .initialized q k ∈ log := by
  have placed : CreationPlaced regions log q (members q) := invariant.placed q
  have past : k < (members q).state.created → .initialized q k ∈ log :=
    invariant.past q k
  have here : (members q).InRound round := inRound q
  generalize members q = member at placed past here
  obtain ⟨status, left, ⟨pc, created⟩⟩ := member
  simp only [Member.InRound] at here
  cases pc with
  | outside =>
      obtain ⟨rfl, leftEq⟩ := placed
      exact past (by simp_all; omega)
  | firstBarrier accesses =>
      obtain ⟨-, leftEq, -⟩ := placed
      simp only at leftEq
      exact past (by simp only; omega)
  | init accesses =>
      obtain ⟨rfl, leftEq, -⟩ := placed
      simp only [reduceCtorEq, false_and, ne_eq, not_false_eq_true, true_and,
        false_or] at here leftEq
      exact past (by simp only; split_ifs at leftEq <;> omega)
  | secondBarrier =>
      obtain ⟨-, leftEq, -⟩ := placed
      simp only at leftEq
      exact past (by simp only; omega)
  | lastBarrier =>
      obtain ⟨leftEq, initialized⟩ := placed
      simp only at leftEq initialized
      obtain rfl : created = k := by omega
      exact initialized
  | leaving =>
      obtain ⟨rfl, leftEq, initialized⟩ := placed
      simp only [reduceCtorEq, false_and, ne_eq, not_false_eq_true, true_and,
        false_or] at here
      simp only at leftEq initialized
      obtain rfl : created = k := by omega
      exact initialized

/-- While another process initialises its share, process 0 has done so. -/
theorem CreationInvariant.root
    (invariant : CreationInvariant regions ⟨(bufInt32, log), members, round⟩)
    (inRound : State.InRound ⟨(bufInt32, log), members, round⟩) {k : Nat}
    (opened : round = 2 * k + 1) {root : Fin N} (isRoot : root.val = 0) :
    .initialized root k ∈ log := by
  have placed : CreationPlaced regions log root (members root) :=
    invariant.placed root
  have here : (members root).InRound round := inRound root
  generalize members root = member at placed here
  obtain ⟨status, left, ⟨pc, created⟩⟩ := member
  simp only [Member.InRound] at here
  cases pc with
  | outside =>
      obtain ⟨rfl, leftEq⟩ := placed
      simp only [reduceCtorEq, false_and, ne_eq, not_false_eq_true, true_and,
        false_or] at here
      simp only at leftEq
      omega
  | firstBarrier accesses =>
      obtain ⟨notRoot, -⟩ := placed
      exact absurd isRoot notRoot
  | init accesses =>
      obtain ⟨rfl, leftEq, -⟩ := placed
      simp only [reduceCtorEq, false_and, ne_eq, not_false_eq_true, true_and,
        false_or, isRoot,
        if_true] at here leftEq
      omega
  | secondBarrier =>
      obtain ⟨-, leftEq, initialized⟩ := placed
      simp only at leftEq initialized
      obtain rfl : created = k := by omega
      exact initialized
  | lastBarrier =>
      obtain ⟨leftEq, initialized⟩ := placed
      simp only at leftEq initialized
      obtain rfl : created = k := by omega
      exact initialized
  | leaving =>
      obtain ⟨rfl, leftEq, initialized⟩ := placed
      simp only [reduceCtorEq, false_and, ne_eq, not_false_eq_true, true_and,
        false_or] at here
      simp only at leftEq
      omega

theorem CreationInvariant.moves
    (invariant : CreationInvariant regions ⟨(bufInt32, log), members, round⟩)
    (placed : CreationPlaced regions log' p member)
    (kept : ∀ event ∈ log, event ∈ log')
    (past : ∀ k, k < member.state.created → .initialized p k ∈ log')
    (returned : ∀ q k, .returned q k ∈ log' → 2 * k + 2 ≤ round)
    (ordered : Ordered (CreationEvent.After regions) log') :
    CreationInvariant regions
      ⟨(bufInt32', log'), Function.update members p member, round⟩ := by
  refine ⟨?_, ?_, returned, ordered⟩
  · intro q
    by_cases same : q = p
    · subst same
      simpa using placed
    · have others : CreationPlaced regions log q (members q) :=
        invariant.placed q
      simpa [same] using others.mono kept
  · intro q k earlier
    by_cases same : q = p
    · subst same
      simp only [Function.update_self] at earlier
      exact past k earlier
    · simp only [ne_eq, same, not_false_eq_true,
        Function.update_of_ne] at earlier
      exact kept _ (invariant.past q k earlier)

theorem CreationInvariant.silent
    (invariant : CreationInvariant regions ⟨(bufInt32, log), members, round⟩)
    (placed : CreationPlaced regions log p member)
    (created : member.state.created = (members p).state.created) :
    CreationInvariant regions
      ⟨(bufInt32', log), Function.update members p member, round⟩ :=
  invariant.moves placed (fun _ old => old)
    (fun k earlier => invariant.past p k (created ▸ earlier))
    invariant.returned invariant.ordered

theorem CreationInvariant.logs {event : CreationEvent N}
    (invariant : CreationInvariant regions ⟨(bufInt32, log), members, round⟩)
    (placed : CreationPlaced regions (log ++ [event]) p member)
    (created : member.state.created = (members p).state.created)
    (noReturn : ∀ q k, event ≠ .returned q k)
    (after : event.After regions log) :
    CreationInvariant regions
      ⟨(bufInt32', log ++ [event]), Function.update members p member,
        round⟩ := by
  apply invariant.moves placed (fun _ old => List.mem_append_left _ old)
  · intro k earlier
    exact List.mem_append_left _ (invariant.past p k (created ▸ earlier))
  · intro q k returned
    rcases List.mem_append.mp returned with earlier | last
    · exact invariant.returned q k earlier
    · exact absurd (List.mem_singleton.mp last).symm (noReturn q k)
  · exact invariant.ordered.append after

theorem CreationInvariant.code {left : Nat} {state state' : NewProcess}
    {act : NewAct}
    (invariant : CreationInvariant regions ⟨(bufInt32, log), members, round⟩)
    (inRound : State.InRound ⟨(bufInt32, log), members, round⟩)
    (here : members p = ⟨.running, left, state⟩)
    (moved : NewCode regions p (bufInt32, log) state act
      (bufInt32', log') state') :
    CreationInvariant regions
      ⟨(bufInt32', log'), Function.update members p ⟨.running, left, state'⟩,
        round⟩ := by
  have placed : CreationPlaced regions log p (members p) := invariant.placed p
  obtain rfl : left = round := by
    have own : (members p).InRound round := inRound p
    have left := own.left_eq (by rw [here]; simp)
    rwa [here] at left
  rw [here] at placed
  cases moved with
  | @call _ k =>
      obtain ⟨-, leftEq⟩ : _ ∧ left = 2 * k := placed
      apply invariant.silent _ (by rw [here])
      unfold EMSnew
      split_ifs with notRoot
      · exact ⟨notRoot, leftEq, rfl⟩
      · refine ⟨rfl, ?_, .inl ⟨[], rfl, by simp⟩⟩
        rw [if_pos (not_not.mp notRoot)]
        exact leftEq
  | @access _ _ access rest k known =>
      obtain ⟨-, leftEq, progress⟩ : _ ∧
        left = 2 * k + (if p.val = 0 then 0 else 1) ∧
        InitProgress regions log p k (access :: rest) := placed
      apply invariant.logs _ (by rw [here]) (by simp)
      · constructor
        · intro notRoot root isRoot
          rw [if_neg notRoot] at leftEq
          exact (initialized_of_mem invariant.ordered
            (invariant.root inRound leftEq isRoot)).1
        · intro q member
          have bound := invariant.returned q k member
          simp only at bound
          split_ifs at leftEq <;> omega
      · refine ⟨rfl, leftEq, .inl ?_⟩
        rcases progress with ⟨done, split, made⟩ | ⟨nothing, -⟩
        · refine ⟨done ++ [access], by simpa using split, ?_⟩
          intro early member
          rcases List.mem_append.mp member with before | last
          · exact List.mem_append_left _ (made early before)
          · rw [List.mem_singleton.mp last]
            simp
        · cases nothing
  | @stop _ _ access rest k stops =>
      obtain ⟨-, leftEq, progress⟩ : _ ∧
        left = 2 * k + (if p.val = 0 then 0 else 1) ∧
        InitProgress regions log p k (access :: rest) := placed
      refine invariant.logs ?_ (by rw [here]) (by simp)
        (show CreationEvent.After regions log (.stopped p k) from trivial)
      refine ⟨rfl, leftEq, .inr ⟨rfl, by simp, ?_⟩⟩
      intro early member
      rcases progress with ⟨done, split, made⟩ | ⟨nothing, -⟩
      · exact List.mem_append_left _
          (made early (setup_done split stops early member))
      · cases nothing
  | @initialized _ _ k =>
      obtain ⟨-, leftEq, progress⟩ : _ ∧
        left = 2 * k + (if p.val = 0 then 0 else 1) ∧
        InitProgress regions log p k [] := placed
      refine invariant.logs ?_ (by rw [here]) (by simp)
        (show CreationEvent.After regions log (.initialized p k)
          from progress.initialized)
      unfold EMSnewInitialized
      split_ifs with isRoot
      · rw [if_pos isRoot] at leftEq
        exact ⟨isRoot, leftEq, by simp⟩
      · rw [if_neg isRoot] at leftEq
        exact ⟨leftEq, by simp⟩
  | @ret _ _ k =>
      obtain ⟨-, leftEq, initialized⟩ : _ ∧ left = 2 * k + 2 ∧
        CreationEvent.initialized p k ∈ log := placed
      have past : ∀ j, j < (members p).state.created → .initialized p j ∈ log :=
        invariant.past p
      rw [here] at past
      refine invariant.moves (by exact ⟨rfl, leftEq⟩)
        (fun _ old => List.mem_append_left _ old)
        ?_ ?_ ?_
      · intro j earlier
        apply List.mem_append_left
        rcases Nat.lt_succ_iff_lt_or_eq.mp earlier with before | rfl
        · exact past j before
        · exact initialized
      · intro q j returned
        rcases List.mem_append.mp returned with earlier | last
        · exact invariant.returned q j earlier
        · obtain ⟨rfl, rfl⟩ :=
            CreationEvent.returned.inj (List.mem_singleton.mp last)
          exact leftEq.ge
      · exact invariant.ordered.append (invariant.everybody inRound leftEq)

theorem CreationInvariant.step {state next : CreationState N}
    {label : Label (Fin N) NewAct}
    (inRound : state.InRound) (invariant : CreationInvariant regions state)
    (step : (creation N regions).client.Step state label next) :
    CreationInvariant regions next := by
  cases step with
  | @code memory memory' _ _ _ _ _ _ _ here moved =>
      obtain ⟨bufInt32, log⟩ := memory
      obtain ⟨bufInt32', log'⟩ := memory'
      exact invariant.code inRound here moved
  | @arrive memory members _ left p process here atBarrier =>
      obtain ⟨bufInt32, log⟩ := memory
      have placed : CreationPlaced regions log p (members p) :=
        invariant.placed p
      rw [here] at placed
      obtain ⟨pc, created⟩ := process
      apply invariant.silent _ (by rw [here])
      cases pc with
      | firstBarrier accesses => exact placed
      | secondBarrier => exact placed
      | lastBarrier => exact placed
      | _ => exact atBarrier.elim
  | @leave memory members _ left p process here =>
      obtain ⟨bufInt32, log⟩ := memory
      have placed : CreationPlaced regions log p (members p) :=
        invariant.placed p
      rw [here] at placed
      obtain ⟨pc, created⟩ := process
      cases pc with
      | firstBarrier accesses =>
          obtain ⟨notRoot, leftEq, same⟩ : p.val ≠ 0 ∧ left = 2 * created ∧
            accesses = EMSinitializeAccesses (regions created) N p := placed
          subst same
          apply invariant.silent _ (by rw [here]; rfl)
          refine ⟨rfl, ?_, .inl ⟨[], rfl, by simp⟩⟩
          rw [if_neg notRoot]
          exact congrArg (· + 1) leftEq
      | secondBarrier =>
          obtain ⟨-, leftEq, initialized⟩ := placed
          apply invariant.silent _ (by rw [here]; rfl)
          exact ⟨congrArg (· + 1) leftEq, initialized⟩
      | lastBarrier =>
          obtain ⟨leftEq, initialized⟩ := placed
          apply invariant.silent _ (by rw [here]; rfl)
          exact ⟨rfl, congrArg (· + 1) leftEq, initialized⟩
      | outside => exact absurd placed.1 (by simp)
      | init => exact absurd placed.1 (by simp)
      | leaving => exact absurd placed.1 (by simp)
  | @release memory members round waiting =>
      obtain ⟨bufInt32, log⟩ := memory
      refine ⟨?_, invariant.past, ?_, invariant.ordered⟩
      · intro p
        have placed : CreationPlaced regions log p (members p) :=
          invariant.placed p
        have inside := waiting p
        change CreationPlaced regions log p ⟨.released, (members p).left,
          (members p).state⟩
        generalize members p = member at placed inside
        obtain ⟨status, left, ⟨pc, created⟩⟩ := member
        obtain rfl : status = .waiting := inside
        cases pc with
        | firstBarrier accesses => exact placed
        | secondBarrier => exact placed
        | lastBarrier => exact placed
        | outside => exact absurd placed.1 (by simp)
        | init => exact absurd placed.1 (by simp)
        | leaving => exact absurd placed.1 (by simp)
      · intro q k member
        exact (invariant.returned q k member).trans (Nat.le_succ round)
  | @scratch memory memory' members round scratch =>
      obtain ⟨bufInt32, log⟩ := memory
      obtain ⟨bufInt32', log'⟩ := memory'
      obtain rfl : log' = log := scratch.1
      exact ⟨invariant.placed, invariant.past, invariant.returned,
        invariant.ordered⟩

end Steps

/-- In every run of processes that create regions together, process 0 has
written the header before anybody else opens the file, and everybody has
initialised its share before anybody has the region. -/
theorem EMSnew_collective (positive : 0 < N) {regions : Nat → NewArgs}
    {config : CollectiveConfig N (List (CreationEvent N)) NewProcess}
    {trace : List (Fin N × CollectiveAct NewAct)}
    (run : Run (CollectiveStep (creation N regions))
      (initialCreation N) trace config) :
    Ordered (CreationEvent.After regions) config.shared.rest := by
  obtain ⟨labels, rounds⟩ := collective_rounds positive run
  exact (Client.invariant (CreationInvariant regions)
    (fun _ _ _ => CreationInvariant.step) rounds
    (initialCreation_invariant regions)).2.ordered

/-! ## A schedule -/

/-- The step of a process that calls no barrier, if there is one of the kind. -/
def newNext (regions : Nat → NewArgs) (p : Fin N)
    (memory : ControlBlock × List (CreationEvent N)) :
    NewProcess → NewAct →
      Option ((ControlBlock × List (CreationEvent N)) × NewProcess)
  | ⟨.outside, k⟩, .call => some (memory, ⟨EMSnew (regions k) N p, k⟩)
  | ⟨.init (.unknownFill _ :: _), _⟩, .access => none
  | ⟨.init (access :: rest), k⟩, .access =>
      some ((memory.1, memory.2 ++ [.access p k access]), ⟨.init rest, k⟩)
  | ⟨.init (access :: _), k⟩, .stop =>
      if access.mayStop = true then
        some ((memory.1, memory.2 ++ [.stopped p k]), ⟨.init [], k⟩)
      else none
  | ⟨.init [], k⟩, .initialized =>
      some ((memory.1, memory.2 ++ [.initialized p k]),
        ⟨EMSnewInitialized p, k⟩)
  | ⟨.leaving, k⟩, .ret =>
      some ((memory.1, memory.2 ++ [.returned p k]), ⟨.outside, k + 1⟩)
  | _, _ => none

private theorem newNext_code {regions : Nat → NewArgs} {p : Fin N}
    {memory memory' : ControlBlock × List (CreationEvent N)}
    {process process' : NewProcess}
    {act : NewAct} (taken :
      newNext regions p memory process act = some (memory', process')) :
    NewCode regions p memory process act memory' process' := by
  unfold newNext at taken
  split at taken
  case h_1 =>
    cases taken
    exact .call
  case h_2 => cases taken
  case h_3 access known =>
    cases taken
    refine .access fun idx same => ?_
    subst same
    exact known idx rfl
  case h_4 =>
    obtain ⟨mayStop, moved⟩ := Option.ite_none_right_eq_some.mp taken
    cases moved
    exact .stop mayStop
  case h_5 =>
    cases taken
    exact .initialized
  case h_6 =>
    cases taken
    exact .ret
  case h_7 => cases taken

def NewPc.callsBarrier : NewPc → Bool
  | .firstBarrier _ | .secondBarrier | .lastBarrier => true
  | _ => false

private theorem creation_atBarrier {regions : Nat → NewArgs}
    {process : NewProcess}
    (calls : process.pc.callsBarrier = true) :
    (creation N regions).atBarrier process := by
  obtain ⟨pc, created⟩ := process
  cases pc with
  | firstBarrier | secondBarrier | lastBarrier => trivial
  | outside | init | leaving => contradiction

/-- Three elements with a fill value and a map. -/
def threeFilled : NewArgs := ⟨3, true, some .integer, false⟩

/-- Process 1 waits while process 0 sets the file up, and both initialise their
elements. -/
def createdTogether : List (Fin 2 × CollectiveAct NewAct) :=
  [(1, .code .call), (1, .barrier (.call 9)), (1, .barrier .access),
    (1, .barrier .access),
    (0, .code .call)] ++ List.replicate 25 (0, .code .access) ++
  [(0, .code .initialized), (0, .barrier (.call 9))] ++
  List.replicate 4 (0, .barrier .access) ++
  [(1, .barrier .access), (1, .barrier (.ret 9)), (0, .barrier (.ret 9))] ++
  List.replicate 7 (1, .code .access) ++
  [(0, .barrier (.call 9)), (0, .barrier .access), (0, .barrier .access),
    (1, .code .initialized), (1, .barrier (.call 9))] ++
  List.replicate 4 (1, .barrier .access) ++
  [(0, .barrier .access), (0, .barrier (.ret 9)), (1, .barrier (.ret 9)),
    (0, .code .ret), (1, .code .ret)]

theorem EMSnew_collective_together :
    ∃ config : CollectiveConfig 2 (List (CreationEvent 2)) NewProcess,
      Run (CollectiveStep (creation 2 fun _ => threeFilled)) (initialCreation 2)
        createdTogether
        config ∧
      (∀ p, (config.control p).state = ⟨.outside, 1⟩) ∧
      Ordered (CreationEvent.After fun _ => threeFilled)
        config.shared.rest := by
  obtain ⟨config, run, checked⟩ :=
    exists_collective (creation 2 fun _ => threeFilled)
    (newNext fun _ => threeFilled) (·.pc.callsBarrier) newNext_code
      creation_atBarrier
    (initialCreation 2) createdTogether
    (fun config => decide (∀ p, (config.control p).state = ⟨.outside, 1⟩))
      (by decide +kernel)
  exact ⟨config, run, of_decide_eq_true checked,
    EMSnew_collective (by decide) run⟩

end EMS
