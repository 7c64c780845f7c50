import EMS.Barrier

/-!
# Critical regions

`critical` of the Python binding acquires the mutex of the control block,
calls a function and releases the mutex.  The acquire gives up after some
attempts, and `critical` does not look at whether it did.  The release only
tests that the mutex is taken.
-/

namespace EMS

open Interleaving

def EMS_CB_CRITICAL : Int := 4

/-- The values of the mutex, free and taken. -/
def EMS_TAG_FULL : Int := 0
def EMS_TAG_EMPTY : Int := 1

/-- Control points of `critical`: the loop of `EMScriticalEnter` with the
timeout that is left, the function, the test and the store of
`EMScriticalExit`. -/
inductive CriticalPc where
  | enter (timeout : Int)
  | func
  | exitTest
  | exitStore
  | done
  deriving DecidableEq, Repr

/-- One attempt of `EMScriticalEnter`.  `critical` goes on with the function
whatever the result is. -/
def EMScriticalEnter (bufInt32 : ControlBlock) (timeout : Int) :
    ControlBlock × CriticalPc :=
  if bufInt32 EMS_CB_CRITICAL = EMS_TAG_FULL then
    (Function.update bufInt32 EMS_CB_CRITICAL EMS_TAG_EMPTY, .func)
  else if 0 < timeout then (bufInt32, .enter (timeout - 1))
  else (bufInt32, .func)

/-- One atomic access of `critical`. -/
def critical (bufInt32 : ControlBlock) : CriticalPc → ControlBlock × CriticalPc
  | .enter timeout => EMScriticalEnter bufInt32 timeout
  | .func => (bufInt32, .func)
  | .exitTest =>
      -- "Test the mutual exclusion lock wasn't somehow lost"
      (bufInt32, if bufInt32 EMS_CB_CRITICAL ≠ EMS_TAG_EMPTY then .done
        else .exitStore)
  | .exitStore => (Function.update bufInt32 EMS_CB_CRITICAL EMS_TAG_FULL, .done)
  | .done => (bufInt32, .done)

/-- A call that has not returned, and whether it has acquired the mutex. -/
structure CriticalCall where
  pc : CriticalPc
  acquired : Bool
  deriving DecidableEq, Repr

/-- A call after its next access. -/
def CriticalCall.after (call : CriticalCall) (bufInt32 : ControlBlock) :
    CriticalCall :=
  match call.pc with
  | .enter _ =>
      ⟨(critical bufInt32 call.pc).2, bufInt32 EMS_CB_CRITICAL = EMS_TAG_FULL⟩
  | pc => ⟨(critical bufInt32 pc).2, call.acquired⟩

/-- The calls of a process, the innermost first: a function may call `critical`
again. -/
abbrev CriticalProcess := List CriticalCall

inductive CriticalAct where
  | call (timeout : Int)
  | access
  | finish
  | raise
  | ret
  deriving DecidableEq

/-- The steps of one process.  The function may raise an exception, which leaves
`critical` without a release. -/
inductive CriticalProgram {ι : Type} (p : ι) :
    ControlBlock → CriticalProcess → CriticalAct → ControlBlock →
      CriticalProcess → Prop where
  | call {bufInt32 : ControlBlock} {calls : CriticalProcess} (timeout : Int) :
      (∀ call ∈ calls.head?, call.pc = .func) →
      CriticalProgram p bufInt32 calls (.call timeout) bufInt32
        (⟨.enter timeout, false⟩ :: calls)
  | access {bufInt32 : ControlBlock} {call : CriticalCall}
      {calls : CriticalProcess} :
      call.pc ≠ .func → call.pc ≠ .done →
      CriticalProgram p bufInt32 (call :: calls) .access
        (critical bufInt32 call.pc).1 (call.after bufInt32 :: calls)
  | finish {bufInt32 : ControlBlock} {acquired : Bool}
      {calls : CriticalProcess} :
      CriticalProgram p bufInt32 (⟨.func, acquired⟩ :: calls) .finish
        bufInt32 (⟨.exitTest, acquired⟩ :: calls)
  | raise {bufInt32 : ControlBlock} {acquired : Bool}
      {calls : CriticalProcess} :
      CriticalProgram p bufInt32 (⟨.func, acquired⟩ :: calls) .raise
        bufInt32 calls
  | ret {bufInt32 : ControlBlock} {acquired : Bool} {calls : CriticalProcess} :
      CriticalProgram p bufInt32 (⟨.done, acquired⟩ :: calls) .ret
        bufInt32 calls

abbrev CriticalConfig (ι : Type) := Config ι ControlBlock CriticalProcess

/-- The next access is not an attempt that fails with no timeout left. -/
def NotExpired (bufInt32 : ControlBlock) (calls : CriticalProcess) : Prop :=
  ∀ call ∈ calls.head?, ∀ timeout, call.pc = .enter timeout →
    bufInt32 EMS_CB_CRITICAL ≠ EMS_TAG_FULL → 0 < timeout

/-- Any process takes any of its steps.  In a careful run no acquire expires. -/
def CriticalStep {ι : Type} [DecidableEq ι] (careful : Bool)
    (config : CriticalConfig ι)
    (label : ι × CriticalAct) (next : CriticalConfig ι) : Prop :=
  (careful = true → NotExpired config.shared (config.control label.1)) ∧
    Step CriticalProgram config label next

/-- Nobody has called `critical` yet. -/
def initialCritical (ι : Type) (nThreads : Nat) : CriticalConfig ι :=
  ⟨initialControlBlock nThreads, fun _ => []⟩

/-- The process executes a function that it has passed to `critical`. -/
def InFunc (calls : CriticalProcess) : Prop := ∃ call ∈ calls, call.pc = .func

/-- What critical regions promise. -/
structure CriticalSafe {ι : Type} (config : CriticalConfig ι) : Prop where
  exclusive : ∀ p q, InFunc (config.control p) →
    InFunc (config.control q) → p = q
  ownRelease : ∀ p call calls, config.control p = call :: calls →
    call.pc = .exitStore →
    call.acquired = true

/-! ## Runs in which no acquire expires -/

/-- The calls of a process.  One that has passed the acquire owns the mutex, and
the function of the owner can only wait for the mutex. -/
inductive CriticalFits {ι : Type} (owner : Option ι) (p : ι) :
    CriticalProcess → Prop where
  | outside : CriticalFits owner p []
  | waiting (timeout : Int) : CriticalFits owner p [⟨.enter timeout, false⟩]
  | owns {pc : CriticalPc} : owner = some p → (∀ timeout, pc ≠ .enter timeout) →
      pc ≠ .done →
      CriticalFits owner p [⟨pc, true⟩]
  | nested (timeout : Int) : owner = some p →
      CriticalFits owner p [⟨.enter timeout, false⟩, ⟨.func, true⟩]
  | left : CriticalFits owner p [⟨.done, true⟩]

/-- The mutex is taken while it has an owner. -/
def MutexFits {ι : Type} (owner : Option ι) (bufInt32 : ControlBlock) : Prop :=
  ∀ p, owner = some p → bufInt32 EMS_CB_CRITICAL = EMS_TAG_EMPTY

section Careful

variable {ι : Type} {owner : Option ι} {p q : ι} {calls : CriticalProcess}

theorem CriticalFits.owner_of_inFunc (fits : CriticalFits owner p calls)
    (inside : InFunc calls) :
    owner = some p := by
  obtain ⟨call, member, atFunc⟩ := inside
  cases fits with
  | outside => cases member
  | waiting =>
      rw [List.mem_singleton.mp member] at atFunc
      cases atFunc
  | owns owned => exact owned
  | nested timeout owned => exact owned
  | left =>
      rw [List.mem_singleton.mp member] at atFunc
      cases atFunc

theorem CriticalFits.change {owner' : Option ι}
    (fits : CriticalFits owner q calls)
    (foreign : owner ≠ some q) : CriticalFits owner' q calls := by
  cases fits with
  | outside => exact .outside
  | waiting timeout => exact .waiting timeout
  | owns owned => exact absurd owned foreign
  | nested timeout owned => exact absurd owned foreign
  | left => exact .left

theorem CriticalFits.quiet {bufInt32 : ControlBlock} {calls' : CriticalProcess}
    (mutex : MutexFits owner bufInt32) (fits : CriticalFits owner p calls') :
    ∃ owner', MutexFits owner' bufInt32 ∧ CriticalFits owner' p calls' ∧
      ∀ q other, q ≠ p → CriticalFits owner q other →
        CriticalFits owner' q other :=
  ⟨owner, mutex, fits, fun _ _ _ other => other⟩

theorem CriticalFits.gives {bufInt32 : ControlBlock} {calls' : CriticalProcess}
    (owned : owner = some p) (fits : CriticalFits none p calls') :
    ∃ owner', MutexFits owner' bufInt32 ∧ CriticalFits owner' p calls' ∧
      ∀ q other, q ≠ p → CriticalFits owner q other →
        CriticalFits owner' q other := by
  refine ⟨none, by simp [MutexFits], fits, ?_⟩
  intro q other different holds
  apply holds.change
  rw [owned]
  exact fun same => different (Option.some.inj same).symm

/-- An attempt of an acquire that does not expire. -/
theorem CriticalFits.enter {bufInt32 : ControlBlock} {timeout : Int}
    (mutex : MutexFits owner bufInt32)
    (fits : CriticalFits owner p (⟨.enter timeout, false⟩ :: calls))
    (inTime : bufInt32 EMS_CB_CRITICAL ≠ EMS_TAG_FULL → 0 < timeout) :
    ∃ owner', MutexFits owner' (critical bufInt32 (.enter timeout)).1 ∧
      CriticalFits owner' p
        (CriticalCall.after ⟨.enter timeout, false⟩ bufInt32 :: calls) ∧
      ∀ q other, q ≠ p → CriticalFits owner q other →
        CriticalFits owner' q other := by
  by_cases free : bufInt32 EMS_CB_CRITICAL = EMS_TAG_FULL
  · have unowned : owner = none := by
      apply Option.eq_none_iff_forall_ne_some.mpr
      intro q owned
      have taken := mutex q owned
      rw [free] at taken
      cases taken
    have alone : calls = [] := by
      cases fits with
      | waiting => rfl
      | nested timeout owned => simp [unowned] at owned
    refine ⟨some p, ?_, ?_, ?_⟩
    · intro _ _
      simp [critical, EMScriticalEnter, free]
    · rw [alone]
      simp only [CriticalCall.after, critical, EMScriticalEnter, free, if_pos,
        decide_true]
      exact .owns rfl (fun _ same => by cases same) (fun same => by cases same)
    · intro q other different holds
      apply holds.change
      simp [unowned]
  · have left := inTime free
    simp only [CriticalCall.after, critical, EMScriticalEnter, free, left,
      if_false, if_true,
      decide_false]
    apply CriticalFits.quiet mutex
    cases fits with
    | waiting => exact .waiting _
    | nested _ owned => exact .nested _ owned

/-- What one step of a careful run preserves. -/
theorem CriticalFits.step {bufInt32 bufInt32' : ControlBlock}
    {calls' : CriticalProcess}
    {act : CriticalAct} (mutex : MutexFits owner bufInt32)
    (fits : CriticalFits owner p calls)
    (inTime : NotExpired bufInt32 calls)
    (step : CriticalProgram p bufInt32 calls act bufInt32' calls') :
    ∃ owner', MutexFits owner' bufInt32' ∧ CriticalFits owner' p calls' ∧
      ∀ q other, q ≠ p → CriticalFits owner q other →
        CriticalFits owner' q other := by
  cases step with
  | call timeout inFunc =>
      apply CriticalFits.quiet mutex
      cases fits with
      | outside => exact .waiting timeout
      | waiting => exact absurd (inFunc _ rfl) (by simp)
      | owns owned =>
          obtain rfl := inFunc _ rfl
          exact .nested timeout owned
      | nested => exact absurd (inFunc _ rfl) (by simp)
      | left => exact absurd (inFunc _ rfl) (by simp)
  | @access call rest notFunc notDone =>
      obtain ⟨pc, acquired⟩ := call
      cases pc with
      | enter timeout =>
          have started : acquired = false := by
            cases fits with
            | waiting => rfl
            | owns _ notEnter => exact absurd rfl (notEnter timeout)
            | nested => rfl
          subst started
          exact fits.enter mutex (inTime _ rfl timeout rfl)
      | func => exact absurd rfl notFunc
      | exitTest =>
          cases fits with
          | owns owned =>
              have taken := mutex p owned
              simp only [CriticalCall.after, critical, taken, ne_eq,
                not_true, if_false]
              apply CriticalFits.quiet mutex
              exact .owns owned (fun _ same => by cases same)
                (fun same => by cases same)
      | exitStore =>
          cases fits with
          | owns owned => exact CriticalFits.gives owned .left
      | done => exact absurd rfl notDone
  | finish =>
      apply CriticalFits.quiet mutex
      cases fits with
      | owns owned =>
          exact .owns owned (fun _ same => by cases same)
            (fun same => by cases same)
  | raise =>
      cases fits with
      | owns owned => exact CriticalFits.gives owned .outside
  | ret =>
      apply CriticalFits.quiet mutex
      cases fits with
      | owns _ _ notDone => exact absurd rfl notDone
      | left => exact .outside

end Careful

/-- One process owns the mutex, or nobody does. -/
abbrev CriticalInvariant {ι : Type} : CriticalConfig ι → Prop :=
  Holds MutexFits fun owner p _ calls => CriticalFits owner p calls

variable {ι : Type} [DecidableEq ι]

theorem CriticalInvariant.step {config next : CriticalConfig ι}
    {label : ι × CriticalAct}
    (invariant : CriticalInvariant config)
    (step : CriticalStep true config label next) :
    CriticalInvariant next := by
  obtain ⟨inTime, step⟩ := step
  have moves : Step (fun p bufInt32 calls act bufInt32' calls' =>
      NotExpired bufInt32 calls ∧
        CriticalProgram p bufInt32 calls act bufInt32' calls')
      config label next := by
    cases step with
    | mk moved => exact .mk ⟨inTime rfl, moved⟩
  apply Holds.step _ invariant moves
  intro owner p bufInt32 calls act bufInt32' calls' mutex fits moved
  exact fits.step mutex moved.1 moved.2

omit [DecidableEq ι] in
private theorem initialCritical_invariant (nThreads : Nat) :
    CriticalInvariant (initialCritical ι nThreads) :=
  ⟨none, by simp [MutexFits], fun _ => .outside⟩

/-- In every run in which no acquire expires, critical regions are exclusive. -/
theorem critical_exclusive {nThreads : Nat} {config : CriticalConfig ι}
    {trace : List (ι × CriticalAct)}
    (run : Run (CriticalStep true) (initialCritical ι nThreads) trace config) :
    CriticalSafe config := by
  obtain ⟨owner, mutex, fits⟩ := run.invariant CriticalInvariant
    (fun _ _ _ => CriticalInvariant.step) (initialCritical_invariant nThreads)
  constructor
  · intro p q inP inQ
    have ownsP := (fits p).owner_of_inFunc inP
    have ownsQ := (fits q).owner_of_inFunc inQ
    exact Option.some.inj (ownsP.symm.trans ownsQ)
  · intro p call calls top storing
    have here := fits p
    rw [top] at here
    cases here with
    | waiting => cases storing
    | owns => rfl
    | nested => cases storing
    | left => cases storing

/-- One of two processes that have called `critical` is in its function. -/
theorem critical_exclusive_entered :
    ∃ (trace : _) (config : CriticalConfig (Fin 2)),
    Run (CriticalStep true) (initialCritical (Fin 2) 2) trace config ∧
      InFunc (config.control 0) ∧ CriticalSafe config := by
  have called : Run (CriticalStep true) (initialCritical (Fin 2) 2) _ _ :=
    .snoc (.snoc .nil
      ⟨fun _ => by simp [NotExpired, initialCritical],
        .mk (p := 0) (.call 9 (by simp [initialCritical]))⟩)
      ⟨fun _ => by simp [NotExpired, initialCritical],
        .mk (p := 1) (.call 9 (by simp [initialCritical]))⟩
  have acquired := called.snoc ⟨fun _ => by simp [NotExpired],
    .mk (p := 0) (.access (by simp) (by simp))⟩
  refine ⟨_, _, acquired, ⟨_, List.mem_singleton_self _, ?_⟩,
    critical_exclusive acquired⟩
  rfl

/-- One process is in its function when the acquire of another expires. -/
theorem critical_not_exclusive : ¬ ∀ trace config,
    Run (CriticalStep false) (initialCritical (Fin 2) 2) trace config →
      CriticalSafe config := by
  intro always
  have careless : ∀ bufInt32 calls, false = true → NotExpired bufInt32 calls :=
    fun _ _ wrong => by cases wrong
  have called : Run (CriticalStep false) (initialCritical (Fin 2) 2) _ _ :=
    .snoc (.snoc .nil ⟨careless _ _,
      .mk (p := 0) (.call 9 (by simp [initialCritical]))⟩)
      ⟨careless _ _, .mk (p := 1) (.call 0 (by simp [initialCritical]))⟩
  have acquired :=
    called.snoc ⟨careless _ _, .mk (p := 0) (.access (by simp) (by simp))⟩
  have expired :=
    acquired.snoc ⟨careless _ _, .mk (p := 1) (.access (by simp) (by simp))⟩
  have safe := always _ _ expired
  have both := safe.exclusive 0 1
  simp [InFunc, CriticalCall.after, critical, EMScriticalEnter, initialCritical,
    initialControlBlock, EMS_CB_CRITICAL, EMS_CB_NTHREADS, EMS_CB_NBAR0,
    EMS_CB_NBAR1,
    EMS_TAG_FULL, EMS_TAG_EMPTY] at both

end EMS
