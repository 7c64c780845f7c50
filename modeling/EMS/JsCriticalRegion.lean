import EMS.CriticalResult

/-!
# Critical regions of JavaScript

`EMScritical` enters the critical region with `criticalEnter`, calls a function
and leaves the region with `criticalExit`.  Other than in Python an attempt to
enter that runs out of time throws, so that the function is not called.  The
regions are exclusive whatever the timeouts are.  But a mutex that is taken at
the last moment, or by a function that throws, is never given back.
-/

namespace EMS

open Interleaving

def NodeJScriticalEnter (timeRemaining : Int) : Except String Int :=
  if timeRemaining ≤ 0 then
    .error "NodeJScriticalEnter: Unable to enter critical region before timeout"
  else .ok timeRemaining

def NodeJScriticalExit (success : Bool) : Except String Bool :=
  if !success then .error
    "NodeJScriticalExit: critical region mutex lost while locked?!"
  else .ok success

/-- Where a call of `EMScritical` is: in one of the two native functions or in
the function that it was passed. -/
inductive JsCriticalPc where
  | native (pc : LockPc)
  | func
  deriving DecidableEq

/-- The calls of a process, the innermost first: the function may call
`EMScritical` again. -/
abbrev JsCriticalProcess := List JsCriticalPc

inductive JsCriticalAct where
  | call (timeout : Int)
  | access
  | returns
  | throws (message : String)
  | finish
  | raise

/-- The steps of `EMScritical`.  An exception, also one of the function, leaves
it at once. -/
inductive EMScritical {ι : Type} (p : ι) :
    ControlBlock → JsCriticalProcess → JsCriticalAct → ControlBlock →
      JsCriticalProcess →
    Prop where
  | call {bufInt32 : ControlBlock} {calls : JsCriticalProcess} (timeout : Int) :
      (∀ pc ∈ calls.head?, pc = .func) →
      EMScritical p bufInt32 calls (.call timeout) bufInt32
        (.native (.enter timeout) :: calls)
  | access {bufInt32 : ControlBlock} {pc : LockPc} {calls : JsCriticalProcess} :
      (pc.access bufInt32).2 ≠ pc →
      EMScritical p bufInt32 (.native pc :: calls) .access
        (pc.access bufInt32).1 (.native (pc.access bufInt32).2 :: calls)
  | enters {bufInt32 : ControlBlock} {timeRemaining result : Int}
      {calls : JsCriticalProcess} :
      NodeJScriticalEnter timeRemaining = .ok result →
      EMScritical p bufInt32
        (.native (.entered timeRemaining) :: calls) .returns
        bufInt32 (.func :: calls)
  | enterThrows {bufInt32 : ControlBlock} {timeRemaining : Int}
      {calls : JsCriticalProcess}
      {message : String} :
      NodeJScriticalEnter timeRemaining = .error message →
      EMScritical p bufInt32 (.native (.entered timeRemaining) :: calls)
        (.throws message)
        bufInt32 calls
  | finish {bufInt32 : ControlBlock} {calls : JsCriticalProcess} :
      EMScritical p bufInt32 (.func :: calls) .finish bufInt32
        (.native .exitTest :: calls)
  | raise {bufInt32 : ControlBlock} {calls : JsCriticalProcess} :
      EMScritical p bufInt32 (.func :: calls) .raise bufInt32 calls
  | exits {bufInt32 : ControlBlock} {success result : Bool}
      {calls : JsCriticalProcess} :
      NodeJScriticalExit success = .ok result →
      EMScritical p bufInt32 (.native (.exited success) :: calls) .returns
        bufInt32 calls
  | exitThrows {bufInt32 : ControlBlock} {success : Bool}
      {calls : JsCriticalProcess}
      {message : String} :
      NodeJScriticalExit success = .error message →
      EMScritical p bufInt32 (.native (.exited success) :: calls)
        (.throws message)
        bufInt32 calls

abbrev JsCriticalConfig (ι : Type) := Config ι ControlBlock JsCriticalProcess

/-- The function does not throw, and an attempt that takes the mutex has time
left. -/
def InGoodTime (bufInt32 : ControlBlock) (calls : JsCriticalProcess)
    (act : JsCriticalAct) :
    Prop :=
  act ≠ .raise ∧ ∀ pc ∈ calls.head?, ∀ lock, pc = .native lock →
    HasTime bufInt32 lock

/-- Any process takes any of its steps. -/
abbrev JsCriticalStep {ι : Type} [DecidableEq ι] :
    JsCriticalConfig ι → ι × JsCriticalAct → JsCriticalConfig ι → Prop :=
  Step EMScritical

/-- A step of a run in which no mutex is lost. -/
def GoodStep {ι : Type} [DecidableEq ι] (config : JsCriticalConfig ι)
    (label : ι × JsCriticalAct) (next : JsCriticalConfig ι) : Prop :=
  InGoodTime config.shared (config.control label.1) label.2 ∧
    JsCriticalStep config label next

/-- Nobody has called `EMScritical` yet. -/
def initialJsCritical (ι : Type) (nThreads : Nat) : JsCriticalConfig ι :=
  ⟨initialControlBlock nThreads, fun _ => []⟩

/-- The call has entered the region, and has not left it. -/
def JsCriticalPc.Inside : JsCriticalPc → Prop
  | .native (.entered timeRemaining) => 0 < timeRemaining
  | .native .exitTest | .native .exitStore | .func => True
  | .native _ => False

/-- The process is in a critical region. -/
def InRegion (calls : JsCriticalProcess) : Prop := ∃ pc ∈ calls, pc.Inside

/-- The mutex is taken, but no process is in a critical region. -/
structure Abandoned {ι : Type} (config : JsCriticalConfig ι) : Prop where
  taken : config.shared EMS_CB_CRITICAL ≠ EMS_TAG_FULL
  nobody : ∀ p, ¬ InRegion (config.control p)

/-- What critical regions of JavaScript promise. -/
structure JsCriticalSafe {ι : Type} (config : JsCriticalConfig ι) : Prop where
  exclusive : ∀ p q, InRegion (config.control p) →
    InRegion (config.control q) → p = q
  neverLost : ∀ p, .native (.exited false) ∉ config.control p

/-! ## Who owns the mutex -/

/-- The mutex is free, owned by a process that is in a region, or lost. -/
inductive JsMutex (ι : Type) where
  | free
  | owned (p : ι)
  | lost

def JsMutex.Fits {ι : Type} (bufInt32 : ControlBlock) : JsMutex ι → Prop
  | .free => bufInt32 EMS_CB_CRITICAL = EMS_TAG_FULL
  | .owned _ | .lost => bufInt32 EMS_CB_CRITICAL = EMS_TAG_EMPTY

/-- The calls of a process.  Within the function of the owner another attempt
can only fail. -/
inductive JsCriticalFits {ι : Type} (mutex : JsMutex ι) (p : ι) :
    JsCriticalProcess → Prop where
  | outside : mutex ≠ .owned p → JsCriticalFits mutex p []
  | waiting (timeout : Int) : mutex ≠ .owned p →
      JsCriticalFits mutex p [.native (.enter timeout)]
  | refused {timeRemaining : Int} : mutex ≠ .owned p → timeRemaining ≤ 0 →
      JsCriticalFits mutex p [.native (.entered timeRemaining)]
  | owns {pc : JsCriticalPc} : mutex = .owned p → pc.Inside →
      JsCriticalFits mutex p [pc]
  | nested (timeout : Int) : mutex = .owned p →
      JsCriticalFits mutex p [.native (.enter timeout), .func]
  | nestedRefused {timeRemaining : Int} : mutex = .owned p → timeRemaining ≤ 0 →
      JsCriticalFits mutex p [.native (.entered timeRemaining), .func]
  | left : mutex ≠ .owned p → JsCriticalFits mutex p [.native (.exited true)]

section Steps

variable {ι : Type} {mutex mutex' : JsMutex ι} {p q : ι}
  {calls calls' : JsCriticalProcess}
  {bufInt32 bufInt32' : ControlBlock} {act : JsCriticalAct}

theorem JsCriticalFits.inRegion_iff (fits : JsCriticalFits mutex p calls) :
    InRegion calls ↔ mutex = .owned p := by
  cases fits with
  | outside unowned => simp [InRegion, unowned]
  | waiting timeout unowned => simp [InRegion, JsCriticalPc.Inside, unowned]
  | refused unowned noTime =>
      simp only [InRegion, List.mem_singleton, exists_eq_left,
        JsCriticalPc.Inside, unowned,
        iff_false]
      omega
  | owns owned inside => simp [InRegion, owned, inside]
  | nested timeout owned => simp [InRegion, JsCriticalPc.Inside, owned]
  | nestedRefused owned noTime => simp [InRegion, JsCriticalPc.Inside, owned]
  | left unowned => simp [InRegion, JsCriticalPc.Inside, unowned]

theorem JsCriticalFits.change (fits : JsCriticalFits mutex q calls)
    (foreign : mutex ≠ .owned q)
    (foreign' : mutex' ≠ .owned q) : JsCriticalFits mutex' q calls := by
  cases fits with
  | outside => exact .outside foreign'
  | waiting timeout => exact .waiting timeout foreign'
  | refused _ noTime => exact .refused foreign' noTime
  | owns owned => exact absurd owned foreign
  | nested timeout owned => exact absurd owned foreign
  | nestedRefused owned => exact absurd owned foreign
  | left => exact .left foreign'

/-- What a step of a process leaves to the others. -/
structure JsStepFits (mutex : JsMutex ι) (p : ι) (act : JsCriticalAct)
    (bufInt32 : ControlBlock)
    (calls : JsCriticalProcess) (mutex' : JsMutex ι) (bufInt32' : ControlBlock)
    (calls' : JsCriticalProcess) : Prop where
  means : mutex'.Fits bufInt32'
  own : JsCriticalFits mutex' p calls'
  others : ∀ q other, q ≠ p → JsCriticalFits mutex q other →
    JsCriticalFits mutex' q other
  lost : mutex = .lost → mutex' = .lost
  kept : mutex ≠ .lost → InGoodTime bufInt32 calls act → mutex' ≠ .lost

theorem JsStepFits.quiet (means : mutex.Fits bufInt32)
    (fits : JsCriticalFits mutex p calls') :
    JsStepFits mutex p act bufInt32 calls mutex bufInt32 calls' :=
  ⟨means, fits, fun _ _ _ holds => holds, id, fun notLost _ => notLost⟩

/-- The owner gives the mutex up. -/
theorem JsStepFits.gives (owned : mutex = .owned p)
    (unowned : ∀ q, mutex' ≠ .owned q)
    (means : mutex'.Fits bufInt32') (fits : JsCriticalFits mutex' p calls')
    (kept : InGoodTime bufInt32 calls act → mutex' ≠ .lost) :
    JsStepFits mutex p act bufInt32 calls mutex' bufInt32' calls' := by
  refine ⟨means, fits, ?_, ?_, fun _ => kept⟩
  · intro q other different holds
    apply holds.change _ (unowned q)
    rw [owned]
    exact fun same => different (JsMutex.owned.inj same).symm
  · intro isLost
    rw [owned] at isLost
    cases isLost

/-- An attempt to enter takes a free mutex. -/
theorem JsStepFits.enter_free {timeout : Int} (isFree : mutex = .free)
    (means : bufInt32 EMS_CB_CRITICAL = EMS_TAG_FULL)
    (fits : JsCriticalFits mutex p (.native (.enter timeout) :: calls)) :
    ∃ mutex', JsStepFits mutex p .access bufInt32
      (.native (.enter timeout) :: calls) mutex'
      (Function.update bufInt32 EMS_CB_CRITICAL EMS_TAG_EMPTY)
      (.native (.entered timeout) :: calls) := by
  have alone : calls = [] := by
    cases fits with
    | waiting | owns => rfl
    | nested timeout owned => simp [isFree] at owned
  subst alone
  have taken : ∀ mutex' : JsMutex ι, mutex' ≠ .free →
      mutex'.Fits (Function.update bufInt32 EMS_CB_CRITICAL EMS_TAG_EMPTY) := by
    intro mutex' notFree
    cases mutex' with
    | free => exact absurd rfl notFree
    | owned | lost => simp [JsMutex.Fits]
  by_cases left : 0 < timeout
  · refine ⟨.owned p, taken _ (by simp), .owns rfl left,
      ?_, by simp [isFree], by simp⟩
    intro q other different holds
    exact holds.change (by simp [isFree]) fun same =>
      different (JsMutex.owned.inj same).symm
  · refine ⟨.lost, taken _ (by simp), .refused (by simp) (by omega), ?_,
      fun _ => rfl, ?_⟩
    · intro q other different holds
      exact holds.change (by simp [isFree]) (by simp)
    · intro _ inTime
      exact absurd (inTime.2 _ rfl _ rfl timeout rfl means) left

/-- An attempt to enter a region. -/
theorem JsStepFits.enter {timeout : Int} (means : mutex.Fits bufInt32)
    (fits : JsCriticalFits mutex p (.native (.enter timeout) :: calls)) :
    ∃ mutex', JsStepFits mutex p .access bufInt32
      (.native (.enter timeout) :: calls) mutex'
      ((LockPc.enter timeout).access bufInt32).1
      (.native ((LockPc.enter timeout).access bufInt32).2 :: calls) := by
  by_cases free : bufInt32 EMS_CB_CRITICAL = EMS_TAG_FULL
  · have isFree : mutex = .free := by
      cases mutex with
      | free => rfl
      | owned | lost =>
          have same := free.symm.trans means
          cases same
    rw [LockPc.access_free free]
    exact JsStepFits.enter_free isFree free fits
  · rw [LockPc.access_taken free]
    refine ⟨mutex, JsStepFits.quiet means ?_⟩
    by_cases left : 0 < timeout
    · rw [if_pos left]
      cases fits with
      | waiting _ unowned => exact .waiting _ unowned
      | owns _ inside => exact inside.elim
      | nested _ owned => exact .nested _ owned
    · rw [if_neg left]
      cases fits with
      | waiting _ unowned => exact .refused unowned (by omega)
      | owns _ inside => exact inside.elim
      | nested _ owned => exact .nestedRefused owned (by omega)

/-- The accesses of a call. -/
theorem JsStepFits.access {pc : LockPc} (means : mutex.Fits bufInt32)
    (fits : JsCriticalFits mutex p (.native pc :: calls))
    (moves : (pc.access bufInt32).2 ≠ pc) :
    ∃ mutex', JsStepFits mutex p .access bufInt32 (.native pc :: calls) mutex'
      (pc.access bufInt32).1 (.native (pc.access bufInt32).2 :: calls) := by
  cases pc with
  | enter timeout => exact JsStepFits.enter means fits
  | exitTest =>
      cases fits with
      | owns owned inside =>
          subst owned
          have taken : bufInt32 EMS_CB_CRITICAL = EMS_TAG_EMPTY := means
          simp only [LockPc.access, taken, ne_eq, not_true, if_false]
          exact ⟨_, JsStepFits.quiet means (.owns rfl trivial)⟩
  | exitStore =>
      cases fits with
      | owns owned inside =>
          refine ⟨.free, JsStepFits.gives owned (by simp) ?_
            (.left (by simp)) (by simp)⟩
          simp [JsMutex.Fits, LockPc.access]
  | idle | entered | exited => exact absurd rfl moves

/-- What one step preserves. -/
theorem JsCriticalFits.step (means : mutex.Fits bufInt32)
    (fits : JsCriticalFits mutex p calls)
    (step : EMScritical p bufInt32 calls act bufInt32' calls') :
    ∃ mutex', JsStepFits mutex p act bufInt32 calls mutex' bufInt32'
      calls' := by
  cases step with
  | call timeout inFunc =>
      refine ⟨mutex, JsStepFits.quiet means ?_⟩
      cases fits with
      | outside unowned => exact .waiting timeout unowned
      | owns owned =>
          obtain rfl := inFunc _ rfl
          exact .nested timeout owned
      | waiting | refused | nested | nestedRefused | left => simp at inFunc
  | access moves => exact JsStepFits.access means fits moves
  | enters enters =>
      refine ⟨mutex, JsStepFits.quiet means ?_⟩
      simp only [NodeJScriticalEnter] at enters
      cases fits with
      | refused _ noTime =>
          rw [if_pos noTime] at enters
          cases enters
      | owns owned => exact .owns owned trivial
      | nestedRefused _ noTime =>
          rw [if_pos noTime] at enters
          cases enters
  | enterThrows throws =>
      refine ⟨mutex, JsStepFits.quiet means ?_⟩
      simp only [NodeJScriticalEnter] at throws
      cases fits with
      | refused unowned => exact .outside unowned
      | owns owned inside =>
          rw [if_neg (Int.not_le.mpr inside)] at throws
          cases throws
      | nestedRefused owned => exact .owns owned trivial
  | finish =>
      refine ⟨mutex, JsStepFits.quiet means ?_⟩
      cases fits with
      | owns owned => exact .owns owned trivial
  | raise =>
      cases fits with
      | owns owned =>
          subst owned
          exact ⟨.lost, JsStepFits.gives rfl (by simp) means
            (.outside (by simp))
            fun inTime => absurd rfl inTime.1⟩
  | exits exits =>
      refine ⟨mutex, JsStepFits.quiet means ?_⟩
      cases fits with
      | owns _ inside => exact inside.elim
      | left unowned => exact .outside unowned
  | exitThrows throws =>
      cases fits with
      | owns _ inside => exact inside.elim
      | left => cases throws

end Steps

/-! ## Runs -/

section Runs

variable {ι : Type} [DecidableEq ι]

/-- The processes fit with an owner of the mutex as it is possible. -/
abbrev JsCriticalInvariant (possible : JsMutex ι → Prop) :
    JsCriticalConfig ι → Prop :=
  Holds (fun mutex bufInt32 => mutex.Fits bufInt32 ∧ possible mutex)
    fun mutex p _ calls => JsCriticalFits mutex p calls

theorem JsCriticalInvariant.step {possible : JsMutex ι → Prop}
    {config next : JsCriticalConfig ι}
    {label : ι × JsCriticalAct}
    (invariant : JsCriticalInvariant possible config)
    (step : JsCriticalStep config label next)
    (keeps : ∀ {mutex mutex' bufInt32' calls'}, possible mutex →
      JsStepFits mutex label.1 label.2 config.shared (config.control label.1)
        mutex' bufInt32'
        calls' → possible mutex') : JsCriticalInvariant possible next := by
  obtain ⟨mutex, ⟨means, allowed⟩, fits⟩ := invariant
  cases step with
  | @mk p act bufInt32' calls' moved =>
      obtain ⟨mutex', after⟩ := (fits p).step means moved
      refine ⟨mutex', ⟨after.means, keeps allowed after⟩, fun q => ?_⟩
      by_cases same : q = p
      · subst same
        simpa using after.own
      · simpa [same] using after.others q _ same (fits q)

omit [DecidableEq ι] in
theorem initialJsCritical_invariant {possible : JsMutex ι → Prop}
    (nThreads : Nat)
    (free : possible .free) :
    JsCriticalInvariant possible (initialJsCritical ι nThreads) :=
  ⟨.free, ⟨rfl, free⟩, fun _ => .outside (by simp)⟩

omit [DecidableEq ι] in
theorem JsCriticalInvariant.safe {config : JsCriticalConfig ι}
    (invariant : JsCriticalInvariant (fun _ => True) config) : JsCriticalSafe
      config := by
  obtain ⟨mutex, -, fits⟩ := invariant
  constructor
  · intro p q inP inQ
    have ownsP := (fits p).inRegion_iff.mp inP
    have ownsQ := (fits q).inRegion_iff.mp inQ
    exact JsMutex.owned.inj (ownsP.symm.trans ownsQ)
  · intro p member
    have here := fits p
    generalize config.control p = calls at here member
    cases here with
    | owns _ inside =>
        rw [← List.mem_singleton.mp member] at inside
        exact inside
    | outside | waiting | refused | nested | nestedRefused | left =>
        simp at member

omit [DecidableEq ι] in
theorem abandoned_iff {possible : JsMutex ι → Prop}
    {config : JsCriticalConfig ι}
    (invariant : JsCriticalInvariant possible config) :
    Abandoned config ↔ JsCriticalInvariant
      (fun mutex => possible mutex ∧ mutex = .lost) config := by
  constructor
  · intro abandoned
    obtain ⟨mutex, ⟨means, allowed⟩, fits⟩ := invariant
    refine ⟨mutex, ⟨means, allowed, ?_⟩, fits⟩
    cases mutex with
    | free => exact absurd means abandoned.taken
    | owned p =>
        exact absurd ((fits p).inRegion_iff.mpr rfl) (abandoned.nobody p)
    | lost => rfl
  · intro lost
    obtain ⟨mutex, ⟨means, -, rfl⟩, fits⟩ := lost
    constructor
    · have taken : config.shared EMS_CB_CRITICAL = EMS_TAG_EMPTY := means
      rw [taken]
      decide
    · intro p inside
      have owned := (fits p).inRegion_iff.mp inside
      cases owned

/-- Critical regions of JavaScript exclude each other in every run, whatever the
timeouts are and whichever functions throw, and leaving one never finds the
mutex lost.  Once the mutex is taken by nobody in a region, no process ever
enters one again.  That takes a function that throws or an attempt that succeeds
with no time left. -/
theorem EMScritical_exclusive {nThreads : Nat} {config : JsCriticalConfig ι}
    {trace : List (ι × JsCriticalAct)}
    (run : Run JsCriticalStep (initialJsCritical ι nThreads) trace config) :
    JsCriticalSafe config ∧
      (∀ more next, Abandoned config → Run JsCriticalStep config more next →
        Abandoned next) ∧
      (Run GoodStep (initialJsCritical ι nThreads) trace config →
        ¬ Abandoned config) := by
  have invariant := run.invariant (JsCriticalInvariant fun _ => True)
    (fun _ _ _ holds step => holds.step step fun _ _ => trivial)
    (initialJsCritical_invariant nThreads trivial)
  refine ⟨invariant.safe, ?_, ?_⟩
  · intro more next abandoned later
    have lost :=
      later.invariant (JsCriticalInvariant fun mutex => True ∧ mutex = .lost)
      (fun _ _ _ holds step => holds.step step fun isLost after =>
        ⟨trivial, after.lost isLost.2⟩)
      ((abandoned_iff invariant).mp abandoned)
    have still := later.invariant (JsCriticalInvariant fun _ => True)
      (fun _ _ _ holds step => holds.step step fun _ _ => trivial) invariant
    exact (abandoned_iff still).mpr lost
  · intro good abandoned
    have kept := good.invariant (JsCriticalInvariant fun mutex => mutex ≠ .lost)
      (fun _ _ _ holds step => holds.step step.2 fun notLost after =>
        after.kept notLost step.1)
      (initialJsCritical_invariant nThreads (by simp))
    obtain ⟨mutex, ⟨-, notLost, isLost⟩, -⟩ := (abandoned_iff kept).mp abandoned
    exact notLost isLost

end Runs

/-- One of two processes is in its region while the other one tries to enter. -/
theorem EMScritical_exclusive_entered :
    ∃ (trace : _) (config : JsCriticalConfig (Fin 2)),
    Run JsCriticalStep (initialJsCritical (Fin 2) 2) trace config ∧
      InRegion (config.control 0) ∧ JsCriticalSafe config := by
  have called : Run JsCriticalStep (initialJsCritical (Fin 2) 2) _ _ :=
    .snoc (.snoc .nil (.mk (p := 0) (.call 9 (by simp [initialJsCritical]))))
      (.mk (p := 1) (.call 9 (by simp [initialJsCritical])))
  have acquired := called.snoc (.mk (p := 0) (.access (by decide)))
  refine ⟨_, _, acquired, ⟨_, List.mem_singleton_self _, ?_⟩,
    (EMScritical_exclusive acquired).1⟩
  change (0 : Int) < 9
  decide

end EMS
