import EMS.AtomicObject
import EMS.SharedProgram

/-!
# Objects under a mutex

The operations of an object are programs of many accesses each.  Every process
runs them between taking a mutex and giving it back.  Then they take effect one
at a time: what is visible of a run is a run of the atomic object, and no
process sees the object in the middle of an operation.
-/

namespace GuardedObject

open Interleaving SharedProgram AtomicObject

/-- An object of which `good` holds between operations.  Alone, and given what
`solo` is given, an operation ends as its effect says. -/
structure Guarded (N Act : Type) (Reply : Act → Type) (Op Res : Type) where
  solo : Solo N Act Reply
  body : Op → Prog Act Reply Res
  admits : Op → Prop
  effect : Op → N → N → Res → Prop
  good : N → Prop
  ends : ∀ {op before}, admits op → good before →
    solo.Ends (fun res after => effect op before after res ∧ good after)
      (body op) before

/-- An access to the mutex or to the object. -/
inductive GuardedAct (Act : Type) where
  | tryLock
  | unlock
  | inner (act : Act)

abbrev GuardedReply {Act : Type} (Reply : Act → Type) : GuardedAct Act → Type
  | .tryLock => Bool
  | .unlock => Unit
  | .inner act => Reply act

/-- The mutex and the object it guards. -/
@[ext] structure GuardedMemory (N : Type) where
  locked : Bool
  object : N

section Programs

variable {Act : Type} {Reply : Act → Type} {α : Type}

abbrev GuardedProg (Act : Type) (Reply : Act → Type) (α : Type) : Type :=
  Prog (GuardedAct Act) (GuardedReply Reply) α

/-- A program of the object, among the accesses to the mutex. -/
def within : Prog Act Reply α → GuardedProg Act Reply α
  | .ret value => .ret value
  | .access act next => .access (.inner act) fun reply => within (next reply)
  | .spin => .spin
  | .abort => .abort

/-- Try for the mutex until it is taken. -/
def lock : Nat → GuardedProg Act Reply Unit
  | 0 => .spin
  | patience + 1 => .access .tryLock fun (acquired : Bool) =>
      if acquired then .ret () else lock patience

/-- Run the program while the mutex is held. -/
def guarded (patience : Nat) (body : Prog Act Reply α) :
    GuardedProg Act Reply α :=
  lock patience >>= fun _ => within body >>= fun value =>
    .access .unlock fun _ => .ret value

end Programs

variable {ι N Act Op Res : Type} {Reply : Act → Type}

def performGuarded (perform : (act : Act) → N → Reply act × N) :
    (act : GuardedAct Act) → GuardedMemory N →
      GuardedReply Reply act × GuardedMemory N
  | .tryLock, memory => (!memory.locked, { memory with locked := true })
  | .unlock, memory => ((), { memory with locked := false })
  | .inner act, memory =>
      ((perform act memory.object).1,
        { memory with object := (perform act memory.object).2 })

/-- Any number of processes that call operations of the object. -/
def Guarded.machine (guard : Guarded N Act Reply Op Res) (ι : Type) :
    Machine ι (GuardedMemory N) (GuardedAct Act) (GuardedReply Reply)
      Op Res where
  perform _ := performGuarded guard.solo.perform
  code _ op patience := guarded patience (guard.body op)
  admits _ op _ := guard.admits op
  permits _ act memory :=
    match act with
    | .inner act => guard.solo.given act memory.object
    | _ => True

abbrev GuardedLabel (Act : Type) (Reply : Act → Type) (Op Res : Type) : Type :=
  Label (GuardedAct Act) (GuardedReply Reply) Op Res

/-- What is visible of a step: calls, returns, and the release of the mutex. -/
def guardedEvent (label : ι × GuardedLabel Act Reply Op Res) :
    Option (ι × Event Op Res) :=
  match label with
  | (p, .call op) => some (p, .call op)
  | (p, .access .unlock _) => some (p, .commit)
  | (_, .access _ _) => none
  | (p, .ret op res) => some (p, .ret op res)

/-! ## The protocol -/

/-- Who holds the mutex, and the state of the atomic object. -/
structure GuardedGhost (ι N Op Res : Type) where
  holder : Option ι
  spec : State ι N Op Res

section Protocol

variable [DecidableEq ι] (guard : Guarded N Act Reply Op Res)

inductive GuardedMove (p : ι) : GuardedLabel Act Reply Op Res →
    GuardedGhost ι N Op Res × GuardedMemory N →
      GuardedGhost ι N Op Res × GuardedMemory N →
    Prop where
  | call {ghost : GuardedGhost ι N Op Res}
      {memory : GuardedMemory N} {op : Op} :
      ghost.spec.phase p = .idle →
      GuardedMove p (.call op) (ghost, memory)
        ({ ghost with spec := ghost.spec.setPhase p (.pending op) }, memory)
  | wait {ghost : GuardedGhost ι N Op Res} {memory : GuardedMemory N} :
      memory.locked = true →
      GuardedMove p (.access .tryLock false) (ghost, memory) (ghost, memory)
  | lock {ghost : GuardedGhost ι N Op Res} {memory : GuardedMemory N} :
      memory.locked = false →
      GuardedMove p (.access .tryLock true) (ghost, memory)
        ({ ghost with holder := some p }, { memory with locked := true })
  | work {ghost : GuardedGhost ι N Op Res}
      {memory : GuardedMemory N} {act : Act}
      {reply : Reply act} (object : N) :
      ghost.holder = some p →
      GuardedMove p (.access (.inner act) reply) (ghost, memory)
        (ghost, { memory with object := object })
  | unlock {ghost : GuardedGhost ι N Op Res} {memory : GuardedMemory N}
      {op : Op} {res : Res} :
      ghost.holder = some p → ghost.spec.phase p = .pending op →
      guard.effect op ghost.spec.object memory.object res →
        guard.good memory.object →
      GuardedMove p (.access .unlock ()) (ghost, memory)
        (⟨none, { ghost.spec with object := memory.object }.setPhase p
          (.done op res)⟩,
          { memory with locked := false })
  | ret {ghost : GuardedGhost ι N Op Res} {memory : GuardedMemory N} {op : Op}
      {res : Res} :
      ghost.spec.phase p = .done op res →
      GuardedMove p (.ret op res) (ghost, memory)
        ({ ghost with spec := ghost.spec.setPhase p .idle }, memory)

/-- The mutex is taken while somebody holds it, and when nobody does the object
is what the atomic object says. -/
structure GuardedInv
    (state : GuardedGhost ι N Op Res × GuardedMemory N) : Prop where
  good : guard.good state.1.spec.object
  locked : state.2.locked = state.1.holder.isSome
  settled : state.1.holder = none → state.1.spec.object = state.2.object

variable {guard}

theorem GuardedInv.move {p : ι} {label : GuardedLabel Act Reply Op Res}
    {state next : GuardedGhost ι N Op Res × GuardedMemory N}
    (inv : GuardedInv guard state)
    (move : GuardedMove guard p label state next) : GuardedInv guard next := by
  obtain ⟨good, locked, settled⟩ := inv
  cases move with
  | call idle => exact ⟨good, locked, settled⟩
  | wait taken => exact ⟨good, locked, settled⟩
  | lock free => exact ⟨good, rfl, fun none => by cases none⟩
  | work object held =>
      refine ⟨good, locked, fun unheld => ?_⟩
      simp only [held] at unheld
      cases unheld
  | unlock held pending effect goodAfter => exact ⟨goodAfter, rfl, fun _ => rfl⟩
  | ret done => exact ⟨good, locked, settled⟩

variable (ι guard) in
def guardedProtocol :
    Protocol ι (GuardedMemory N) (GuardedAct Act) (GuardedReply Reply) Op Res
    (GuardedGhost ι N Op Res) where
  move := GuardedMove guard
  inv := GuardedInv guard
  keeps := GuardedInv.move

/-! ## Assertions of a process -/

section Assertions

variable {p : ι} {op : Op} {res : Res}

theorem GuardedMove.phase_other {q : ι} {label : GuardedLabel Act Reply Op Res}
    {state next : GuardedGhost ι N Op Res × GuardedMemory N} (different : q ≠ p)
    (move : GuardedMove guard q label state next) :
    next.1.spec.phase p = state.1.spec.phase p := by
  cases move with
  | wait | lock | work => rfl
  | call | unlock | ret => exact State.setPhase_other _ different.symm _

theorem phase_stable {phase : Phase Op Res} :
    (guardedProtocol ι guard).Stable p fun state =>
      state.1.spec.phase p = phase := by
  intro q label state next different _ holds move
  exact (GuardedMove.phase_other different move).trans holds

/-- The process holds the mutex.  The object was `before` when it took it and is
`known` now. -/
structure GuardedHeld (p : ι) (op : Op) (before known : N)
    (state : GuardedGhost ι N Op Res × GuardedMemory N) : Prop where
  pending : state.1.spec.phase p = .pending op
  held : state.1.holder = some p
  before : state.1.spec.object = before
  known : state.2.object = known

/-- Nobody else works on the object while the mutex is held. -/
theorem GuardedHeld.stable {before known : N} :
    (guardedProtocol ι guard).Stable p (GuardedHeld p op before known) := by
  intro q label state next different inv holds move
  have samePhase := (GuardedMove.phase_other different move).trans holds.pending
  have taken : state.2.locked = true := by
    rw [inv.locked, holds.held]
    rfl
  cases move with
  | call idle => exact ⟨samePhase, holds.held, holds.before, holds.known⟩
  | wait waits => exact holds
  | lock free =>
      rw [free] at taken
      cases taken
  | work object held =>
      exact absurd (Option.some.inj (held.symm.trans holds.held)) different
  | unlock held =>
      exact absurd (Option.some.inj (held.symm.trans holds.held)) different
  | ret done => exact ⟨samePhase, holds.held, holds.before, holds.known⟩

end Assertions

/-! ## The operations keep to the protocol -/

section Triples

variable {p : ι} {op : Op} {α : Type}
  {post : α → GuardedGhost ι N Op Res × GuardedMemory N → Prop}

variable (guard) in
abbrev GuardedTriple (p : ι)
    (pre : GuardedGhost ι N Op Res × GuardedMemory N → Prop)
    (prog : GuardedProg Act Reply α)
    (post : α → GuardedGhost ι N Op Res × GuardedMemory N → Prop) : Prop :=
  (guardedProtocol ι guard).Triple (guard.machine ι) p pre prog post

theorem GuardedTriple.lock {patience : Nat}
    {rest : Unit → GuardedProg Act Reply α}
    (continues : ∀ before, guard.good before →
      GuardedTriple guard p (GuardedHeld p op before before) (rest ()) post) :
    GuardedTriple guard p (fun state => state.1.spec.phase p = .pending op)
      (GuardedObject.lock patience >>= rest) post := by
  induction patience with
  | zero => exact Protocol.Triple.spin
  | succ patience induction =>
      rw [GuardedObject.lock, Prog.access_bind]
      apply Protocol.Triple.access (fun (acquired : Bool) state =>
        if acquired = true then ∃ before, guard.good before ∧
          GuardedHeld p op before before state
        else state.1.spec.phase p = .pending op) phase_stable
      · intro ghost memory inv pending _
        obtain ⟨locked, object⟩ := memory
        cases locked with
        | false =>
            have unheld : ghost.holder = none := by simpa using inv.locked
            have same := inv.settled unheld
            refine ⟨_, .lock rfl, ?_⟩
            have good : guard.good object := by
              have goodBefore := inv.good
              rwa [same] at goodBefore
            exact ⟨object, good, pending, rfl, same, rfl⟩
        | true => exact ⟨ghost, .wait rfl, pending⟩
      · intro (acquired : Bool)
        cases acquired with
        | true =>
            simp only [if_true, Prog.ret_bind]
            apply Protocol.Triple.of_exists
            intro before
            exact Protocol.Triple.of_imp (continues before)
        | false => simpa only [Bool.false_eq_true, if_false] using induction

/-- The object may be worked on as if undisturbed while the mutex is held. -/
theorem GuardedTriple.within {β : Type} {before known : N}
    {prog : Prog Act Reply β}
    {rest : β → GuardedProg Act Reply α}
    (ends : guard.solo.Ends (fun value after =>
      GuardedTriple guard p (GuardedHeld p op before after) (rest value) post)
        prog known) :
    GuardedTriple guard p (GuardedHeld p op before known)
      (GuardedObject.within prog >>= rest) post := by
  induction prog generalizing known with
  | ret value => exact ends
  | access act next induction =>
      rw [GuardedObject.within, Prog.access_bind]
      apply Protocol.Triple.access
          (fun (reply : GuardedReply Reply (.inner act)) state =>
        guard.solo.given act known ∧ reply = (guard.solo.perform act known).1 ∧
          GuardedHeld p op before (guard.solo.perform act known).2 state)
            GuardedHeld.stable
      · intro ghost memory inv holds permitted
        obtain ⟨locked, object⟩ := memory
        obtain ⟨pending, held, sameBefore, sameKnown⟩ := holds
        simp only at sameKnown
        subst sameKnown
        exact ⟨ghost, .work _ held, permitted, rfl, pending, held,
          sameBefore, rfl⟩
      · intro (reply : Reply act) state inv holds
        obtain ⟨given, rfl, holds⟩ := holds
        exact induction _ (ends given).2 state inv holds
  | spin => exact Protocol.Triple.spin
  | abort => exact ends.elim

/-- What a call keeps and ends with. -/
theorem GuardedTriple.call {op : Op} (admitted : guard.admits op)
    (patience : Nat) :
    GuardedTriple guard p (fun state => state.1.spec.phase p = .pending op)
      (guarded patience (guard.body op))
      fun res state => state.1.spec.phase p = .done op res := by
  apply GuardedTriple.lock
  intro before good
  apply GuardedTriple.within
  apply (guard.ends admitted good).mono
  intro res after ended
  obtain ⟨effect, goodAfter⟩ := ended
  apply Protocol.Triple.access
    (fun _ state => state.1.spec.phase p = .done op res)
    GuardedHeld.stable
  · intro ghost memory inv holds _
    obtain ⟨pending, held, rfl, rfl⟩ := holds
    exact ⟨_, .unlock held pending effect goodAfter, State.setPhase_same _ _ _⟩
  · exact fun _ => Protocol.Triple.ret phase_stable fun _ _ done => done

theorem guardedImplements :
    (guardedProtocol ι guard).Implements (guard.machine ι)
      (fun p state => state.1.spec.phase p = .idle)
      fun p op res state => state.1.spec.phase p = .done op res where
  idleStable := fun _ => phase_stable
  calls := by
    intro p op patience ghost memory inv idle admitted
    have move : GuardedMove guard p (.call op) (ghost, memory) _ := .call idle
    exact ⟨_, move, GuardedTriple.call admitted patience _ (inv.move move)
      (State.setPhase_same _ _ _)⟩
  returns := by
    intro p op res ghost memory _ done
    exact ⟨_, .ret done, State.setPhase_same _ _ _⟩

end Triples

/-! ## Runs -/

/-- A move of the protocol is a step of the atomic object, or none. -/
theorem GuardedMove.refines {p : ι} {label : GuardedLabel Act Reply Op Res}
    {state next : GuardedGhost ι N Op Res × GuardedMemory N}
    (move : GuardedMove guard p label state next) :
    match guardedEvent (p, label) with
    | none => next.1.spec = state.1.spec
    | some event =>
        AtomicObject.Step guard.effect state.1.spec event next.1.spec := by
  cases move with
  | call idle => exact .call _ idle
  | wait | lock | work => rfl
  | unlock held pending effect good => exact .commit pending effect
  | ret done => exact .ret done

/-- What holds of every run. -/
structure Linearized (guard : Guarded N Act Reply Op Res) (object : N)
    (trace : List (ι × GuardedLabel Act Reply Op Res))
    (config : (guard.machine ι).State)
    (spec : State ι N Op Res) : Prop where
  atomic : Run (AtomicObject.Step guard.effect) (AtomicObject.initial object)
    (trace.filterMap guardedEvent) spec
  settled : config.shared.locked = false → config.shared.object = spec.object
  good : guard.good spec.object
  neverAborts : ∀ p op, config.control p ≠ .running op .abort

/-- The operations under the mutex are atomic. -/
theorem Guarded.linearized {object : N} (good : guard.good object)
    {trace : List (ι × GuardedLabel Act Reply Op Res)}
    {config : (guard.machine ι).State}
    (run : Run (guard.machine ι).Step
      ((guard.machine ι).start ⟨false, object⟩) trace config) :
    ∃ spec, Linearized guard object trace config spec := by
  let ghost : GuardedGhost ι N Op Res := ⟨none, AtomicObject.initial object⟩
  have initially : GuardedInv guard (ghost, ⟨false, object⟩) :=
    ⟨good, rfl, fun _ => rfl⟩
  obtain ⟨ghost', abstractRun, inv, -⟩ :=
    guardedImplements.run ghost initially (fun _ => rfl) run
  have silent : ∀ state label next spec, state.1.spec = spec →
      (guardedProtocol ι guard).Step state label next →
        guardedEvent label = none →
      next.1.spec = spec := by
    intro state label next spec same move hidden
    have refines := GuardedMove.refines move
    rw [hidden] at refines
    exact refines.trans same
  have visible : ∀ state label next spec event, state.1.spec = spec →
      (guardedProtocol ι guard).Step state label next → guardedEvent label =
        some event →
      ∃ specNext, AtomicObject.Step guard.effect spec event specNext ∧
        next.1.spec = specNext := by
    intro state label next spec event same move seen
    have refines := GuardedMove.refines move
    rw [seen] at refines
    exact ⟨next.1.spec, same ▸ refines, rfl⟩
  obtain ⟨final, specRun, sameSpec⟩ :=
    Run.simulate guardedEvent _ silent visible abstractRun rfl
  refine ⟨final, specRun, ?_, ?_, ?_⟩
  · intro unlocked
    have unheld : ghost'.holder = none := by
      have locked := inv.locked
      rw [unlocked] at locked
      simpa using locked.symm
    rw [← sameSpec]
    exact (inv.settled unheld).symm
  · rw [← sameSpec]
    exact inv.good
  · exact guardedImplements.never_aborts ghost initially (fun _ => rfl) run

end Protocol

end GuardedObject
