import EMS.CriticalRegion

/-!
# The result of an acquire

`EMScriticalEnter` and `EMScriticalExit` are called by any processes in any
order.  The bindings take a result above 0 for the mutex and any other for its
absence.  An attempt that succeeds when no time is left returns 0 all the same.
-/

namespace EMS

open Interleaving

/-! ## The calls -/

/-- Control points of the two functions, with what they return. -/
inductive LockPc where
  | idle
  | enter (timeout : Int)
  | entered (result : Int)
  | exitTest
  | exitStore
  | exited (result : Bool)
  deriving DecidableEq, Repr

/-- The control block, and the process that has set the mutex from free to taken
since it was last free. -/
structure OwnedBlock (ι : Type) where
  bufInt32 : ControlBlock
  owner : Option ι

/-- A process with its call: whether it owned the mutex before the call, whether
an access of the call has set the mutex from free to taken, and whether one has
changed the mutex at all. -/
structure LockCall where
  pc : LockPc
  owned : Bool
  acquired : Bool
  changed : Bool
  deriving DecidableEq, Repr

/-- The next access of a call. -/
def LockPc.access (bufInt32 : ControlBlock) : LockPc → ControlBlock × LockPc
  | .enter timeout =>
      match EMScriticalEnter bufInt32 timeout with
      | (bufInt32, .enter timeout) => (bufInt32, .enter timeout)
      | (bufInt32, _) => (bufInt32, .entered timeout)
  | .exitTest =>
      -- "Test the mutual exclusion lock wasn't somehow lost"
      (bufInt32, if bufInt32 EMS_CB_CRITICAL ≠ EMS_TAG_EMPTY then .exited false
        else .exitStore)
  | .exitStore =>
      (Function.update bufInt32 EMS_CB_CRITICAL EMS_TAG_FULL, .exited true)
  | pc => (bufInt32, pc)

/-- The mutex was free and is taken. -/
def Takes (before after : ControlBlock) : Prop :=
  before EMS_CB_CRITICAL = EMS_TAG_FULL ∧ after EMS_CB_CRITICAL = EMS_TAG_EMPTY

instance (before after : ControlBlock) : Decidable (Takes before after) :=
  inferInstanceAs (Decidable (_ ∧ _))

section Calls

variable {ι : Type} [DecidableEq ι]

/-- Who owns the mutex after an access. -/
def OwnedBlock.after (block : OwnedBlock ι) (p : ι) (bufInt32 : ControlBlock) :
    OwnedBlock ι where
  bufInt32 := bufInt32
  owner :=
    if Takes block.bufInt32 bufInt32 then some p
    else if bufInt32 EMS_CB_CRITICAL = EMS_TAG_FULL then none
    else block.owner

/-- What an access adds to what is known of the call. -/
def LockCall.after (call : LockCall) (before after : ControlBlock)
    (pc : LockPc) : LockCall where
  pc := pc
  owned := call.owned
  acquired := call.acquired || Takes before after
  changed := call.changed || before EMS_CB_CRITICAL ≠ after EMS_CB_CRITICAL

inductive LockAct where
  | callEnter (timeout : Int)
  | callExit
  | access
  | ret
  deriving DecidableEq

/-- The steps of one process. -/
inductive LockProgram (p : ι) :
    OwnedBlock ι → LockCall → LockAct → OwnedBlock ι → LockCall → Prop where
  | callEnter {block : OwnedBlock ι} {call : LockCall} (timeout : Int) :
      call.pc = .idle → 0 ≤ timeout →
      LockProgram p block call (.callEnter timeout) block
        ⟨.enter timeout, block.owner = some p, false, false⟩
  | callExit {block : OwnedBlock ι} {call : LockCall} :
      call.pc = .idle →
      LockProgram p block call .callExit block ⟨.exitTest, block.owner = some p,
        false, false⟩
  | access {block : OwnedBlock ι} {call : LockCall} :
      (call.pc.access block.bufInt32).2 ≠ call.pc →
      LockProgram p block call .access
        (block.after p (call.pc.access block.bufInt32).1)
        (call.after block.bufInt32 (call.pc.access block.bufInt32).1
          (call.pc.access block.bufInt32).2)
  | ret {block : OwnedBlock ι} {call : LockCall} :
      (∃ result, call.pc = .entered result) ∨
      (∃ result, call.pc = .exited result) →
      LockProgram p block call .ret block { call with pc := .idle }

abbrev LockConfig (ι : Type) := Config ι (OwnedBlock ι) LockCall

/-- The next access is not an attempt that succeeds with no time left. -/
def HasTime (bufInt32 : ControlBlock) (pc : LockPc) : Prop :=
  ∀ timeout, pc = .enter timeout → bufInt32 EMS_CB_CRITICAL =
    EMS_TAG_FULL → 0 < timeout

/-- Any process takes any of its steps.  In a careful run every attempt that
succeeds has time left. -/
def LockStep (careful : Bool) (config : LockConfig ι) (label : ι × LockAct)
    (next : LockConfig ι) : Prop :=
  (careful = true → label.2 = .access →
    HasTime config.shared.bufInt32 (config.control label.1).pc) ∧
    Step LockProgram config label next

/-- Nobody has called anything yet. -/
def initialLock (ι : Type) (nThreads : Nat) : LockConfig ι :=
  ⟨⟨initialControlBlock nThreads, none⟩, fun _ => ⟨.idle, false, false, false⟩⟩

/-! ## What a result tells -/

/-- A result above 0 means that the call has taken the mutex.  With any other
the call has not changed it, and the process does not own it unless it did
before. -/
structure ResultTells (block : OwnedBlock ι) (p : ι) (call : LockCall)
    (result : Int) : Prop where
  taken : 0 < result ↔ call.acquired = true
  owner : result ≤ 0 → block.owner = some p → call.owned = true
  unchanged : result ≤ 0 → call.changed = false

/-- Every result that is returned tells it. -/
def EnterTells (config : LockConfig ι) : Prop :=
  ∀ p result, (config.control p).pc = .entered result →
    ResultTells config.shared p (config.control p) result

/-- A call that has not taken the mutex. -/
structure NotTaken (block : OwnedBlock ι) (p : ι) (call : LockCall) : Prop where
  acquired : call.acquired = false
  changed : call.changed = false
  owner : block.owner = some p → call.owned = true

/-- What holds of a call in a careful run. -/
def CallFits (block : OwnedBlock ι) (p : ι) (call : LockCall) : Prop :=
  match call.pc with
  | .enter timeout => 0 ≤ timeout ∧ NotTaken block p call
  | .entered result =>
      0 < result ∧ call.acquired = true ∨ result = 0 ∧ NotTaken block p call
  | _ => True

section Steps

variable {block : OwnedBlock ι} {p q : ι} {call : LockCall}

omit [DecidableEq ι] in
theorem NotTaken.mono {block' : OwnedBlock ι}
    (owner : block'.owner = some p → block.owner = some p)
    (notTaken : NotTaken block p call) : NotTaken block' p call :=
  ⟨notTaken.acquired, notTaken.changed, fun owns => notTaken.owner (owner owns)⟩

omit [DecidableEq ι] in
theorem CallFits.mono {block' : OwnedBlock ι}
    (owner : block'.owner = some p → block.owner = some p)
    (fits : CallFits block p call) : CallFits block' p call := by
  rw [CallFits] at fits ⊢
  cases pc : call.pc with
  | enter timeout =>
      rw [pc] at fits
      exact ⟨fits.1, fits.2.mono owner⟩
  | entered result =>
      rw [pc] at fits
      rcases fits with taken | ⟨zero, notTaken⟩
      · exact .inl taken
      · exact .inr ⟨zero, notTaken.mono owner⟩
  | _ => trivial

omit [DecidableEq ι] in
theorem OwnedBlock.after_other (different : q ≠ p) {bufInt32 : ControlBlock}
    (owns : (block.after p bufInt32).owner = some q) :
    block.owner = some q := by
  simp only [OwnedBlock.after] at owns
  split at owns
  · exact absurd (Option.some.inj owns).symm different
  · split at owns
    · cases owns
    · exact owns

theorem not_takes_self {bufInt32 : ControlBlock} :
    ¬ Takes bufInt32 bufInt32 := by
  intro takes
  have same := takes.1.symm.trans takes.2
  cases same

omit [DecidableEq ι] in
theorem OwnedBlock.after_same {owner : Option ι}
    (owns : (block.after p block.bufInt32).owner = owner) :
    owner = none ∨ block.owner = owner := by
  simp only [OwnedBlock.after, if_neg not_takes_self] at owns
  split at owns
  · exact .inl owns.symm
  · exact .inr owns

omit [DecidableEq ι] in
theorem NotTaken.access {pc : LockPc} (notTaken : NotTaken block p call) :
    NotTaken (block.after p block.bufInt32) p
      (call.after block.bufInt32 block.bufInt32 pc) := by
  constructor
  · simp [LockCall.after, notTaken.acquired, not_takes_self]
  · simp [LockCall.after, notTaken.changed]
  · intro owns
    rcases OwnedBlock.after_same owns with none | before
    · cases none
    · exact notTaken.owner before

theorem LockPc.access_free {bufInt32 : ControlBlock} {timeout : Int}
    (free : bufInt32 EMS_CB_CRITICAL = EMS_TAG_FULL) :
    (LockPc.enter timeout).access bufInt32 =
      (Function.update bufInt32 EMS_CB_CRITICAL EMS_TAG_EMPTY,
        .entered timeout) := by
  simp only [LockPc.access, EMScriticalEnter, if_pos free]

theorem LockPc.access_taken {bufInt32 : ControlBlock} {timeout : Int}
    (taken : bufInt32 EMS_CB_CRITICAL ≠ EMS_TAG_FULL) :
    (LockPc.enter timeout).access bufInt32 =
      (bufInt32, if 0 < timeout then .enter (timeout - 1)
        else .entered timeout) := by
  by_cases left : 0 < timeout
  · simp only [LockPc.access, EMScriticalEnter, if_neg taken, if_pos left]
  · simp only [LockPc.access, EMScriticalEnter, if_neg taken, if_neg left]

theorem takes_update {bufInt32 : ControlBlock}
    (free : bufInt32 EMS_CB_CRITICAL = EMS_TAG_FULL) :
    Takes bufInt32 (Function.update bufInt32 EMS_CB_CRITICAL EMS_TAG_EMPTY) :=
  ⟨free, Function.update_self ..⟩

/-- What one step of a careful run preserves. -/
theorem CallFits.step {block' : OwnedBlock ι} {call' : LockCall} {act : LockAct}
    (fits : CallFits block p call)
    (hasTime : act = .access → HasTime block.bufInt32 call.pc)
    (step : LockProgram p block call act block' call') :
    CallFits block' p call' ∧
      ∀ q other, q ≠ p → CallFits block q other → CallFits block' q other := by
  cases step with
  | callEnter timeout _ positive =>
      refine ⟨⟨positive, rfl, rfl, ?_⟩, fun _ _ _ => id⟩
      simp
  | callExit => exact ⟨trivial, fun _ _ _ => id⟩
  | ret => exact ⟨trivial, fun _ _ _ => id⟩
  | access moves =>
      refine ⟨?_, fun q other different =>
        CallFits.mono (OwnedBlock.after_other different)⟩
      cases pc : call.pc with
      | enter timeout =>
          rw [CallFits, pc] at fits
          obtain ⟨positive, notTaken⟩ := fits
          by_cases free : block.bufInt32 EMS_CB_CRITICAL = EMS_TAG_FULL
          · rw [LockPc.access_free free]
            left
            refine ⟨hasTime rfl timeout pc free, ?_⟩
            simp [LockCall.after, takes_update free]
          · rw [LockPc.access_taken free]
            by_cases left : 0 < timeout
            · rw [if_pos left]
              exact ⟨by omega, notTaken.access⟩
            · rw [if_neg left]
              exact .inr ⟨by omega, notTaken.access⟩
      | exitTest =>
          simp only [LockPc.access]
          split <;> trivial
      | exitStore => trivial
      | idle => exact absurd (by rw [pc]; rfl) moves
      | entered result => exact absurd (by rw [pc]; rfl) moves
      | exited result => exact absurd (by rw [pc]; rfl) moves

omit [DecidableEq ι] in
theorem CallFits.tells {result : Int} (fits : CallFits block p call)
    (returns : call.pc = .entered result) :
    ResultTells block p call result := by
  rw [CallFits, returns] at fits
  rcases fits with ⟨positive, acquired⟩ | ⟨rfl, notTaken⟩
  · exact ⟨iff_of_true positive acquired, by omega, by omega⟩
  · exact
      ⟨by
        simp [notTaken.acquired], fun _ => notTaken.owner, fun _ =>
        notTaken.changed⟩

end Steps

/-- What holds in a careful run. -/
abbrev LockFits : LockConfig ι → Prop :=
  Holds (fun (_ : Unit) _ => True) fun _ p block call => CallFits block p call

theorem LockFits.step {config next : LockConfig ι} {label : ι × LockAct}
    (fits : LockFits config)
    (step : LockStep true config label next) : LockFits next := by
  obtain ⟨hasTime, step⟩ := step
  have moves : Step (fun p block call act block' call' =>
      (act = .access → HasTime block.bufInt32 call.pc) ∧
        LockProgram p block call act block' call')
      config label next := by
    cases step with
    | mk moved => exact .mk ⟨hasTime rfl, moved⟩
  apply Holds.step _ fits moves
  intro _ p block call act block' call' _ own moved
  obtain ⟨own', others⟩ := own.step moved.1 moved.2
  exact ⟨(), trivial, own', others⟩

omit [DecidableEq ι] in
private theorem initialLock_fits (nThreads : Nat) :
    LockFits (initialLock ι nThreads) :=
  ⟨(), trivial, fun _ => trivial⟩

private theorem late_untold {careful : Bool} {config next : LockConfig ι}
    {p : ι} (fits : LockFits config)
    (late : ¬ HasTime config.shared.bufInt32 (config.control p).pc)
    (step : LockStep careful config (p, .access) next) : ¬ EnterTells next := by
  intro tells
  obtain ⟨_, -, fits⟩ := fits
  simp only [HasTime, not_forall, exists_prop] at late
  obtain ⟨timeout, pc, free, notPositive⟩ := late
  obtain ⟨-, step⟩ := step
  cases step with
  | mk moved =>
      cases moved with
      | access =>
          have told :=
            tells p timeout (by
              simp [LockCall.after, pc, LockPc.access_free free])
          apply notPositive
          apply told.taken.mpr
          simp [LockCall.after, pc, LockPc.access_free free, takes_update free]

/-- In every run in which each attempt that succeeds has time left, the results
tell whether the mutex was taken.  The first attempt that has none ends that. -/
theorem EMScriticalEnter_tells {nThreads : Nat} {config : LockConfig ι}
    {trace : List (ι × LockAct)}
    (run : Run (LockStep true) (initialLock ι nThreads) trace config) :
    EnterTells config ∧ ∀ p next, LockStep false config (p, .access) next →
      (EnterTells next ↔ HasTime config.shared.bufInt32
        (config.control p).pc) := by
  have holds :=
    run.invariant LockFits (fun _ _ _ => LockFits.step)
      (initialLock_fits nThreads)
  have tells : ∀ config : LockConfig ι, LockFits config →
      EnterTells config := by
    rintro config ⟨_, -, fits⟩ p result returns
    exact (fits p).tells returns
  refine ⟨tells config holds, ?_⟩
  intro p next step
  constructor
  · intro told
    by_contra late
    exact late_untold holds late step told
  · intro hasTime
    exact tells next (holds.step ⟨fun _ _ => hasTime, step.2⟩)

end Calls

/-- A call takes the mutex at its only attempt, with time left. -/
theorem EMScriticalEnter_tells_taken :
    ∃ (trace : _) (config : LockConfig (Fin 1)),
    Run (LockStep true) (initialLock (Fin 1) 1) trace config ∧
      (config.control 0).pc = .entered 1 ∧ EnterTells config := by
  have called : Run (LockStep true) (initialLock (Fin 1) 1) _ _ :=
    .snoc .nil ⟨nofun, .mk (p := 0) (.callEnter 1 rfl (by decide))⟩
  have taken :=
    called.snoc ⟨fun _
      _ => by simp [HasTime], .mk (p := 0) (.access (by decide))⟩
  exact ⟨_, _, taken, rfl, (EMScriticalEnter_tells taken).1⟩

/-- With a timeout of 0 the call takes the mutex and returns 0. -/
theorem not_EMScriticalEnter_tells :
    ¬ ∀ (config : LockConfig (Fin 1)) (trace : _),
    Run (LockStep false) (initialLock (Fin 1) 1) trace config →
      EnterTells config := by
  intro always
  have called : Run (LockStep false) (initialLock (Fin 1) 1) _ _ :=
    .snoc .nil ⟨nofun, .mk (p := 0) (.callEnter 0 rfl le_rfl)⟩
  have taken := called.snoc ⟨nofun, .mk (p := 0) (.access (by decide))⟩
  have told := always _ _ taken 0 0 rfl
  exact absurd (told.taken.mpr rfl) (by decide)

end EMS
