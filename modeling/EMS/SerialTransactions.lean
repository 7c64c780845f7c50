import EMS.Primitives
import EMS.Transactions
import EMS.TwoPhaseLocking

/-!
# Transactions are serializable

Between `EMStmStart` and `EMStmEnd` a process reads the elements of its
transaction, and writes those that it has not named as read-only.  The locks are
those of two-phase locking.  So any interleaving of transactions has the effects
of the same transactions one after the other, and one that is aborted has none.

This is about elements whose values come back from JavaScript as they are.  An
integer that needs more than 32 bits does not: an abort writes back what
`ems2napiReturnValue` has left of it.
-/

namespace EMS

open Interleaving TwoPhaseLocking

/-! ## What transactions do -/

/-- What a program does in a transaction.  It may depend on the values in the
handle. -/
structure TmTransaction (V R : Type) where
  emsElems : List TmElement
  body : List V → Body (Nat × ElementKey) V R

def TmElement.lock (entry : TmElement) : Lock (Nat × ElementKey) :=
  (entry.element, entry.isReadOnly)

/-- The transaction with its locks in the order in which they are acquired. -/
def TmTransaction.txn {V R : Type} (sorting : JsSort)
    (transaction : TmTransaction V R) :
    Txn (Nat × ElementKey) V R where
  locks := (lockedEntries sorting transaction.emsElems).map TmElement.lock
  body := transaction.body

/-- Only the elements that are named are used, those that are named as read-only
are not written, and what is written comes back as it is. -/
structure TmTransaction.Disciplined {V R : Type} (roundTrip : V → V)
    (transaction : TmTransaction V R) : Prop where
  within : ∀ values,
    (transaction.body values).Within (transaction.emsElems.map TmElement.lock)
  writes : ∀ values : List V, (∀ value ∈ values, roundTrip value = value) →
    (transaction.body values).Writes fun value => roundTrip value = value

/-- A process in its transactions, with what is left of the program of one. -/
inductive TmWorker (V R : Type) where
  | outside
  | starting (transaction : TmTransaction V R) (process : TmProcess V)
  | running (transaction : TmTransaction V R)
      (body : Body (Nat × ElementKey) V R)
      (process : TmProcess V)

def TmWorker.process {V R : Type} : TmWorker V R → TmProcess V
  | .outside => ⟨.outside, [], []⟩
  | .starting _ process | .running _ _ process => process

/-- What is seen of a process: that it starts a transaction, that `EMStmStart`
returns, and that `EMStmEnd` returns. -/
abbrev TmEvent (V R : Type) := AtomicObject.Event (TmTransaction V R) R

section Program

variable {N : Nat} {V R : Type}

/-- The steps of one process.  `read` and `write` leave the tag of an element
alone.  A value goes by what a write stores of it, so a read gives `roundTrip`
of the value that is stored.  No write is refused. -/
inductive TmWork (sorting : JsSort) (nElem : Nat → Nat) (roundTrip : V → V)
    (p : Fin N) :
    TmMemory V → TmWorker V R → Option (TmEvent V R) → TmMemory V →
      TmWorker V R → Prop where
  | tmStart {memory memory' : TmMemory V} {transaction : TmTransaction V R}
      {process : TmProcess V} :
      transaction.Disciplined roundTrip →
      TmProgram sorting nElem roundTrip p memory ⟨.outside, [], []⟩
        (.tmStart transaction.emsElems)
        memory' process →
      TmWork sorting nElem roundTrip p memory .outside
        (some (.call transaction))
        memory' (.starting transaction process)
  | acquire {memory memory' : TmMemory V} {transaction : TmTransaction V R}
      {process process' : TmProcess V} :
      TmProgram sorting nElem roundTrip p memory process .acquire
        memory' process' →
      TmWork sorting nElem roundTrip p memory
        (.starting transaction process) none
        memory' (.starting transaction process')
  | started {memory memory' : TmMemory V} {transaction : TmTransaction V R}
      {process process' : TmProcess V} :
      TmProgram sorting nElem roundTrip p memory process .started
        memory' process' →
      TmWork sorting nElem roundTrip p memory (.starting transaction process)
        (some .commit)
        memory' (.running transaction
          (transaction.body (process.handle.map TmHeld.value)) process')
  | read {memory : TmMemory V} {transaction : TmTransaction V R}
      {process : TmProcess V}
      {name : Nat × ElementKey} {next : V → Body (Nat × ElementKey) V R} :
      process.phase = .inside →
      TmWork sorting nElem roundTrip p memory
        (.running transaction (.read name next) process) none
        memory (.running transaction
          (next (roundTrip (memory name).value)) process)
  | write {memory : TmMemory V} {transaction : TmTransaction V R}
      {process : TmProcess V}
      {name : Nat × ElementKey} {value : V}
      {next : Body (Nat × ElementKey) V R} :
      process.phase = .inside →
      TmWork sorting nElem roundTrip p memory
        (.running transaction (.write name value next) process) none
        (Function.update memory name { memory name with value := value })
        (.running transaction next process)
  | tmEnd {memory memory' : TmMemory V} {transaction : TmTransaction V R}
      {process process' : TmProcess V} {doCommit : Bool} {res : R} :
      TmProgram sorting nElem roundTrip p memory process (.tmEnd doCommit)
        memory' process' →
      TmWork sorting nElem roundTrip p memory
        (.running transaction (.finish doCommit res) process) none
        memory' (.running transaction (.finish doCommit res) process')
  | release {memory memory' : TmMemory V} {transaction : TmTransaction V R}
      {body : Body (Nat × ElementKey) V R} {process process' : TmProcess V} :
      TmProgram sorting nElem roundTrip p memory process .release
        memory' process' →
      TmWork sorting nElem roundTrip p memory
        (.running transaction body process) none
        memory' (.running transaction body process')
  | ended {memory memory' : TmMemory V} {transaction : TmTransaction V R}
      {process process' : TmProcess V} {doCommit : Bool} {res : R} :
      TmProgram sorting nElem roundTrip p memory process .ended
        memory' process' →
      TmWork sorting nElem roundTrip p memory
        (.running transaction (.finish doCommit res) process)
        (some (.ret transaction res)) memory' .outside

abbrev TmWorkConfig (N : Nat) (V R : Type) :=
  Config (Fin N) (TmMemory V) (TmWorker V R)

/-- Any process takes any of its steps. -/
def TmWorkStep (sorting : JsSort) (nElem : Nat → Nat) (roundTrip : V → V)
    (config : TmWorkConfig N V R) (label : Fin N × Option (TmEvent V R))
    (next : TmWorkConfig N V R) : Prop :=
  Interleaving.Step (TmWork sorting nElem roundTrip) config label next

/-! ## The locks as those of two-phase locking -/

def TmHeld.view (held : TmHeld V) : Held (Nat × ElementKey) V :=
  ⟨held.entry.element, held.entry.isReadOnly, held.value⟩

def TmWorker.stage (sorting : JsSort) :
    TmWorker V R → Stage (Nat × ElementKey) V R
  | .outside => .idle
  | .starting transaction process => .growing (transaction.txn sorting)
      (process.handle.map TmHeld.view)
        (process.pending.map fun lock => lock.1.lock)
  | .running transaction body process => .holding (transaction.txn sorting) body
      (process.handle.map TmHeld.view)

/-- The values of the elements. -/
def contents (memory : TmMemory V) (name : Nat × ElementKey) : V :=
  (memory name).value

def viewOf (sorting : JsSort) (config : TmWorkConfig N V R) :
    Config (Fin N) ((Nat × ElementKey) → V) (Stage (Nat × ElementKey) V R) :=
  ⟨contents config.shared, fun p => (config.control p).stage sorting⟩

/-- The locks alone. -/
def locksOf (config : TmWorkConfig N V R) : TmConfig N V :=
  ⟨config.shared, fun p => (config.control p).process⟩

/-- An event, about the transaction with its locks in order. -/
def eventOf (sorting : JsSort) :
    TmEvent V R → AtomicObject.Event (Txn (Nat × ElementKey) V R) R
  | .call transaction => .call (transaction.txn sorting)
  | .commit => .commit
  | .ret transaction res => .ret (transaction.txn sorting) res

/-- The program of a transaction has ended when the transaction does. -/
def TmWorker.Matches : TmWorker V R → Prop
  | .outside => True
  | .starting _ process => process.phase = .starting
  | .running _ body process => process.phase = .inside ∨
      ∃ doCommit res, process.phase = .ending doCommit ∧
        body = .finish doCommit res

/-- The values in the handle come back as they are, and so does what is still
written. -/
def TmWorker.Carries (roundTrip : V → V) : TmWorker V R → Prop
  | .outside => True
  | .starting transaction process => transaction.Disciplined roundTrip ∧
      ∀ held ∈ process.handle, roundTrip held.value = held.value
  | .running _ body process =>
      (body.Writes fun value => roundTrip value = value) ∧
      ∀ held ∈ process.handle, roundTrip held.value = held.value

structure TmWorkInvariant (nElem : Nat → Nat)
    (config : TmWorkConfig N V R) : Prop where
  locks : TmInvariant nElem (locksOf config)
  matched : ∀ p, (config.control p).Matches

/-- All values come back as they are. -/
structure AllCarried (roundTrip : V → V)
    (config : TmWorkConfig N V R) : Prop where
  stored : ∀ name, roundTrip (config.shared name).value =
    (config.shared name).value
  carried : ∀ p, (config.control p).Carries roundTrip

variable {sorting : JsSort} {nElem : Nat → Nat} {roundTrip : V → V}
  {memory memory' : TmMemory V}
  {control : Fin N → TmWorker V R} {p : Fin N}

theorem locksOf_update (worker : TmWorker V R) :
    locksOf (⟨memory, Function.update control p worker⟩ : TmWorkConfig N V R) =
      ⟨memory, Function.update
        (fun q => (control q).process) p worker.process⟩ := by
  rw [locksOf, Config.mk.injEq]
  exact ⟨rfl, funext fun q =>
    Function.apply_update (fun _ => TmWorker.process) control p worker q⟩

private theorem viewOf_update (worker : TmWorker V R) :
    viewOf sorting (⟨memory, Function.update control p worker⟩ :
      TmWorkConfig N V R) =
      ⟨contents memory,
        Function.update (fun q => (control q).stage sorting) p
          (worker.stage sorting)⟩ := by
  rw [viewOf, Config.mk.injEq]
  exact ⟨rfl,
    funext fun q => Function.apply_update (fun _ => TmWorker.stage sorting)
      control p worker q⟩

theorem Owned.setValue {element : LockElement V}
    {writers readers : Finset (Fin N)}
    (owned : Owned element writers readers) (value : V) :
    Owned { element with value := value } writers readers := by
  cases owned with
  | free state count writers readers => exact .free state count writers readers
  | exclusive p state count writer readers =>
      exact .exclusive p state count writer readers
  | shared state count some writers => exact .shared state count some writers

/-- A step of a transaction is one of its locks, or stores a value. -/
theorem TmWorkInvariant.step
    (bounded : ∀ regionN, nElem regionN ≤ MAX_ELEM_PER_REGION)
    {config next : TmWorkConfig N V R} {label : Fin N × Option (TmEvent V R)}
    (invariant : TmWorkInvariant nElem config)
    (step : TmWorkStep sorting nElem roundTrip config label next) :
    TmWorkInvariant nElem next := by
  obtain ⟨memory, control⟩ := config
  obtain ⟨locks, matched⟩ := invariant
  cases step with
  | @mk p label memory' worker' moved =>
      simp only at moved matched
      have matches' : ∀ worker : TmWorker V R, worker.Matches →
          ∀ q, (Function.update control p worker q).Matches := by
        intro worker here q
        by_cases same : q = p
        · subst same
          simpa using here
        · simpa [same] using matched q
      -- the step of the lock, where there is one
      have locked : ∀ {act : TmAct} {process : TmProcess V}
          {memory' : TmMemory V}
          {worker : TmWorker V R}, (control p).process = process →
          TmProgram sorting nElem roundTrip p memory process act memory'
            worker.process →
          TmInvariant nElem
            (locksOf (⟨memory', Function.update control p worker⟩ :
                TmWorkConfig N V R)) := by
        rintro act process memory' worker rfl moved
        rw [locksOf_update]
        exact locks.step bounded (.mk moved)
      have here := matched p
      generalize now : control p = worker at moved here
      have same : ∀ body : Body (Nat × ElementKey) V R, ∀ transaction process,
          (control p).process = process →
          locksOf (⟨memory, Function.update control p
              (.running transaction body process)⟩ :
            TmWorkConfig N V R) = locksOf ⟨memory, control⟩ := by
        rintro body transaction process rfl
        rw [locksOf_update]
        exact congrArg _ (Function.update_eq_self p fun q =>
          (control q).process)
      have atPoint := congrArg TmWorker.process now
      cases moved with
      | tmStart disciplined moved =>
          refine ⟨locked atPoint moved, matches' _ ?_⟩
          cases moved
          rfl
      | acquire moved =>
          refine ⟨locked atPoint moved, matches' _ ?_⟩
          cases moved
          rfl
      | started moved =>
          refine ⟨locked atPoint moved, matches' _ ?_⟩
          cases moved
          exact .inl rfl
      | @read transaction process name next inside =>
          have kept :=
            same (next (roundTrip (memory name).value)) transaction
              process atPoint
          rw [← kept] at locks
          exact ⟨locks, matches' _ (.inl inside)⟩
      | @write transaction process name value next inside =>
          refine ⟨?_, matches' _ (.inl inside)⟩
          have kept := same next transaction process atPoint
          rw [← kept] at locks
          refine ⟨locks.valid, fun other => ?_⟩
          by_cases here : other = name
          · subst here
            simpa [locksOf] using (locks.owned other).setValue value
          · simpa [locksOf, here] using locks.owned other
      | tmEnd moved =>
          refine ⟨locked atPoint moved, matches' _ ?_⟩
          cases moved
          exact .inr ⟨_, _, rfl, rfl⟩
      | release moved =>
          refine ⟨locked atPoint moved, matches' _ ?_⟩
          cases moved
          exact here
      | ended moved =>
          exact ⟨locked atPoint (by cases moved; exact .ended),
            matches' _ trivial⟩

theorem acquire_value {element element' : LockElement V} {lock : TmLock}
    (acquired : element.acquire lock = some element') :
    element'.value = element.value := by
  cases lock with
  | readFE | readRW =>
      simp only [LockElement.acquire, Option.ite_none_right_eq_some,
        Option.some.injEq] at acquired
      obtain ⟨-, rfl⟩ := acquired
      rfl

theorem endLock_value {doCommit : Bool} {held : TmHeld V}
    {element element' : LockElement V}
    (ended : endLock doCommit held element = some element') :
    element'.value = if held.entry.isReadOnly || doCommit then element.value
      else held.value := by
  unfold endLock at ended
  cases readOnly : held.entry.isReadOnly with
  | true =>
      simp only [readOnly, if_true, LockElement.releaseRW] at ended
      split at ended
      · split at ended <;> obtain rfl := Option.some.inj ended <;> rfl
      · cases ended
      · obtain rfl := Option.some.inj ended
        rfl
  | false =>
      cases doCommit with
      | true =>
          simp only [readOnly, Bool.false_eq_true, if_false, if_true] at ended
          obtain rfl := Option.some.inj ended
          rfl
      | false =>
          simp only [readOnly, Bool.false_eq_true, if_false,
            LockElement.writeEF,
            Option.ite_none_right_eq_some, Option.some.injEq] at ended
          obtain ⟨-, rfl⟩ := ended
          rfl

/-- Transactions store what comes back as it is. -/
theorem AllCarried.step {config next : TmWorkConfig N V R}
    {label : Fin N × Option (TmEvent V R)} (back : AllCarried roundTrip config)
    (step : TmWorkStep sorting nElem roundTrip config label next) :
    AllCarried roundTrip next := by
  obtain ⟨memory, control⟩ := config
  obtain ⟨stored, carried⟩ := back
  cases step with
  | @mk p label memory' worker' moved =>
      simp only at moved stored carried
      have carries : ∀ worker : TmWorker V R, worker.Carries roundTrip →
          ∀ q, (Function.update control p worker q).Carries roundTrip := by
        intro worker here q
        by_cases same : q = p
        · subst same
          simpa using here
        · simpa [same] using carried q
      have stores : ∀ name (element : LockElement V),
          roundTrip element.value = element.value →
          ∀ other, roundTrip (Function.update memory name element other).value =
            (Function.update memory name element other).value := by
        intro name element here other
        by_cases same : other = name
        · subst same
          simpa using here
        · simpa [same] using stored other
      have here := carried p
      generalize now : control p = worker at moved here
      cases moved with
      | tmStart disciplined moved =>
          cases moved
          exact ⟨stored, carries _ ⟨disciplined, by simp⟩⟩
      | acquire moved =>
          obtain ⟨disciplined, values⟩ := here
          cases moved with
          | @acquire entry lock pending handle element acquired =>
              refine ⟨stores _ _ ?_, carries _ ⟨disciplined, ?_⟩⟩
              · rw [acquire_value acquired]
                exact stored entry.element
              · intro held member
                rcases List.mem_append.mp member with before | last
                · exact values held before
                · obtain rfl := List.mem_singleton.mp last
                  exact congrArg roundTrip (stored entry.element)
      | started moved =>
          obtain ⟨disciplined, values⟩ := here
          cases moved
          refine ⟨stored, carries _ ⟨disciplined.writes _ ?_, values⟩⟩
          intro value member
          obtain ⟨held, inHandle, rfl⟩ := List.mem_map.mp member
          exact values held inHandle
      | @read transaction process name next inside =>
          refine ⟨stored, carries _ ⟨here.1 _ ?_, here.2⟩⟩
          exact congrArg roundTrip (stored name)
      | @write transaction process name value next inside =>
          exact ⟨stores _ _ here.1.1, carries _ ⟨here.1.2, here.2⟩⟩
      | tmEnd moved =>
          cases moved
          exact ⟨stored, carries _ here⟩
      | release moved =>
          obtain ⟨writes, values⟩ := here
          cases moved with
          | @release held handle doCommit element ended =>
              refine ⟨stores _ _ ?_, carries _ ⟨writes, fun other member => ?_⟩⟩
              · rw [endLock_value ended]
                split
                · exact stored _
                · exact values held (List.mem_cons_self ..)
              · exact values other (List.mem_cons_of_mem _ member)
      | ended moved =>
          cases moved
          exact ⟨stored, carries _ trivial⟩

/-! ## The steps as those of two-phase locking -/

theorem contents_update {name : Nat × ElementKey} {element : LockElement V} :
    contents (Function.update memory name element) =
      Function.update (contents memory) name element.value := by
  funext other
  exact Function.apply_update (fun _ => LockElement.value) memory name
    element other

private theorem contents_release {held : TmHeld V} {doCommit : Bool}
    {element : LockElement V}
    (ended : endLock doCommit held (memory held.entry.element) = some element) :
    contents (Function.update memory held.entry.element element) =
      restore held.view doCommit (contents memory) := by
  have sameMode : held.view.isReadOnly = held.entry.isReadOnly := rfl
  rw [contents_update, endLock_value ended, restore, sameMode]
  cases held.entry.isReadOnly || doCommit with
  | true => exact Function.update_eq_self held.entry.element (contents memory)
  | false => rfl

theorem TmTransaction.Disciplined.wellLocked {transaction : TmTransaction V R}
    (disciplined : transaction.Disciplined roundTrip)
    (distinct : (transaction.emsElems.map TmElement.element).Nodup) :
    (transaction.txn sorting).WellLocked := by
  have permuted : (lockedEntries sorting transaction.emsElems).Perm
      transaction.emsElems :=
    (lockedEntries_sorts sorting).perm transaction.emsElems
  refine ⟨?_, fun values => (disciplined.within values).mono ?_⟩
  · have keys : (transaction.txn sorting).locks.map Prod.fst =
        (lockedEntries sorting transaction.emsElems).map TmElement.element := by
      simp [TmTransaction.txn, TmElement.lock, Function.comp_def]
    rw [keys]
    exact (permuted.map _).nodup_iff.mpr distinct
  · intro lock member
    exact (permuted.map _).mem_iff.mpr member

/-- A step that is seen as one of two-phase locking, or not at all. -/
def Viewed (sorting : JsSort) (config : TmWorkConfig N V R)
    (label : Fin N × Option (TmEvent V R)) (next : TmWorkConfig N V R) : Prop :=
  label.2 = none ∧ viewOf sorting next = viewOf sorting config ∨
    TwoPhaseLocking.Step (viewOf sorting config)
      (label.1, label.2.map (eventOf sorting))
      (viewOf sorting next)

private theorem stage_held (worker : TmWorker V R) :
    (worker.stage sorting).held = worker.process.handle.map TmHeld.view := by
  cases worker <;> rfl

private theorem acquire_free {worker : TmWorker V R}
    (isolated : Isolated
      (locksOf (⟨memory, Function.update control p worker⟩ :
        TmWorkConfig N V R)))
    {entry : TmElement}
    (holds : worker.process.holds entry.element entry.isReadOnly = true) :
    Free (fun q => (control q).stage sorting) p entry.lock := by
  intro q different held member sameKey
  simp only [stage_held] at member
  obtain ⟨other, inHandle, rfl⟩ := List.mem_map.mp member
  have holdsOther : (control q).process.holds entry.element
      other.entry.isReadOnly = true := by
    apply List.any_eq_true.mpr
    exact ⟨other, inHandle, by
      simpa [TmHeld.view, TmElement.lock] using sameKey⟩
  obtain ⟨first, second⟩ :=
    isolated p q (Ne.symm different) entry.element entry.isReadOnly
    other.entry.isReadOnly (by simpa [locksOf] using holds)
    (by simpa [locksOf, different] using holdsOther)
  exact ⟨second, first⟩

private theorem stage_started (transaction : TmTransaction V R) :
    (TmWorker.starting transaction
      ⟨.starting, EMStmStart sorting transaction.emsElems, []⟩).stage
        sorting =
      Stage.growing (transaction.txn sorting)
        ([] : List (Held (Nat × ElementKey) V))
        (transaction.txn sorting).locks := by
  simp [TmWorker.stage, EMStmStart_eq, TmTransaction.txn]

private theorem stage_acquired (transaction : TmTransaction V R)
    (pending : List (TmElement × TmLock))
    (handle : List (TmHeld V)) (entry : TmElement) (value : V) :
    (TmWorker.starting transaction
      ⟨.starting, pending, handle ++ [⟨entry, value⟩]⟩).stage sorting =
      Stage.growing (transaction.txn sorting)
        (handle.map TmHeld.view ++ [⟨entry.lock.1, entry.lock.2, value⟩])
        (pending.map fun lock => lock.1.lock) := by
  simp [TmWorker.stage, TmHeld.view, TmElement.lock]

private theorem stage_running (transaction : TmTransaction V R)
    (handle : List (TmHeld V)) :
    (TmWorker.running transaction (transaction.body (handle.map TmHeld.value))
        ⟨.inside, [], handle⟩).stage sorting =
      Stage.holding (transaction.txn sorting)
        ((transaction.txn sorting).body ((handle.map TmHeld.view).map Held.old))
        (handle.map TmHeld.view) := by
  simp [TmWorker.stage, TmTransaction.txn, TmHeld.view, Function.comp_def]

theorem TmWorkInvariant.viewed
    (bounded : ∀ regionN, nElem regionN ≤ MAX_ELEM_PER_REGION)
    {config next : TmWorkConfig N V R} {label : Fin N × Option (TmEvent V R)}
    (invariant : TmWorkInvariant nElem config)
    (back : AllCarried roundTrip config)
    (step : TmWorkStep sorting nElem roundTrip config label next) :
    Viewed sorting config label next := by
  have after := (invariant.step bounded step).locks.isolated
  obtain ⟨memory, control⟩ := config
  have matched := invariant.matched
  have stored := back.stored
  cases step with
  | @mk p label memory' worker' moved =>
      simp only at moved matched stored
      have here := matched p
      generalize now : control p = worker at moved here
      have seen : (fun q => (control q).stage sorting) p =
          worker.stage sorting :=
        congrArg (TmWorker.stage sorting) now
      unfold Viewed
      rw [viewOf_update]
      cases moved with
      | @tmStart _ transaction process disciplined moved =>
          cases moved with
          | tmStart indexed distinct =>
              rw [stage_started]
              exact .inr (.start seen (disciplined.wellLocked distinct))
      | @acquire _ transaction process process' moved =>
          cases moved with
          | @acquire entry lock pending handle element acquired =>
              have holds : (⟨.starting, pending,
                  handle ++ [⟨entry, roundTrip (memory entry.element).value⟩]⟩ :
                    TmProcess V).holds
                    entry.element entry.isReadOnly = true := by
                simp [holds_append]
              have unchanged : contents
                  (Function.update memory entry.element element) =
                  contents memory := by
                rw [contents_update, acquire_value acquired]
                exact Function.update_eq_self entry.element (contents memory)
              rw [unchanged, stage_acquired, stored]
              exact .inr (.acquire seen (acquire_free after holds))
      | @started _ transaction process process' moved =>
          cases moved with
          | @started handle =>
              rw [stage_running]
              exact .inr (.locked seen)
      | @read transaction process name next inside =>
          rw [stored]
          exact .inr (.read seen)
      | @write transaction process name value next inside =>
          rw [contents_update]
          exact .inr (.write seen)
      | @tmEnd _ transaction process process' doCommit res moved =>
          left
          refine ⟨rfl, ?_⟩
          cases moved
          exact congrArg _ (Function.update_eq_iff.mpr
            ⟨seen.symm, fun _ _ => rfl⟩)
      | @release _ transaction body process process' moved =>
          cases moved with
          | @release held handle doCommit element ended =>
              obtain inside | ⟨doCommit', res, ending, rfl⟩ := here
              · cases inside
              obtain rfl := TmPhase.ending.inj ending
              rw [contents_release ended]
              exact .inr (.release seen)
      | @ended _ transaction process process' doCommit res moved =>
          cases moved
          exact .inr (.ended seen)

/-! ## Runs -/

/-- Nobody has started a transaction yet. -/
def initialWork (N : Nat) (V R : Type) (memory : TmMemory V) :
    TmWorkConfig N V R :=
  ⟨memory, fun _ => .outside⟩

/-- What is seen of a run. -/
def eventsOf (sorting : JsSort) (trace : List (Fin N × Option (TmEvent V R))) :
    List (Fin N × AtomicObject.Event (Txn (Nat × ElementKey) V R) R) :=
  trace.filterMap fun label => label.2.map fun event =>
    (label.1, eventOf sorting event)

private theorem initialWork_carried
    (carried : ∀ name, roundTrip (memory name).value = (memory name).value) :
    AllCarried roundTrip (initialWork N V R memory) :=
  ⟨carried, fun _ => trivial⟩

private theorem initialWork_invariant
    (full : ∀ name, (memory name).fe = .full ∧ (memory name).rw = 0) :
    TmWorkInvariant nElem (initialWork N V R memory) :=
  ⟨initialTm_invariant full, fun _ => trivial⟩

private theorem holds_of_promises {worker : TmWorker V R}
    {store : Nat × ElementKey → V}
    {name : Nat × ElementKey} {value : V}
    (promises : (worker.stage sorting).Promises store name value) :
    worker.process.holds name false = true := by
  cases worker with
  | outside | starting transaction process => exact promises.elim
  | running transaction body process =>
      obtain ⟨lock, member, isLock, -⟩ := promises
      obtain ⟨held, inHandle, rfl⟩ := List.mem_map.mp member
      obtain ⟨sameKey, exclusive⟩ := Prod.mk.inj isLock
      simp only [TmHeld.view] at sameKey exclusive
      apply List.any_eq_true.mpr
      exact ⟨held, inHandle, by simp [sameKey, exclusive]⟩

/-- A run of the program is one of the object on which transactions take effect
at once. -/
private theorem tmWork_simulates
    (bounded : ∀ regionN, nElem regionN ≤ MAX_ELEM_PER_REGION)
    (full : ∀ name, (memory name).fe = .full ∧ (memory name).rw = 0)
    (carried : ∀ name, roundTrip (memory name).value = (memory name).value)
    {config : TmWorkConfig N V R} {trace : List (Fin N × Option (TmEvent V R))}
    (run : Run (TmWorkStep sorting nElem roundTrip)
      (initialWork N V R memory) trace config) :
    ∃ state, Run (AtomicObject.Step Txn.effect)
      (AtomicObject.initial (contents memory))
        (eventsOf sorting trace) state ∧
      (TmWorkInvariant nElem config ∧ AllCarried roundTrip config) ∧
        Related (viewOf sorting config) state := by
  refine run.simulate _
    (fun config state =>
      (TmWorkInvariant nElem config ∧ AllCarried roundTrip config) ∧
      Related (viewOf sorting config) state)
    ?_ ?_ ⟨⟨initialWork_invariant full, initialWork_carried carried⟩,
      related_initially⟩
  · rintro config ⟨p, label⟩ next state ⟨⟨invariant, back⟩, related⟩
      step observed
    refine ⟨⟨invariant.step bounded step, back.step step⟩, ?_⟩
    obtain rfl := Option.map_eq_none_iff.mp observed
    rcases invariant.viewed bounded back step with ⟨-, unchanged⟩ | moved
    · rw [unchanged]
      exact related
    · exact related.silent moved
  · rintro config ⟨p, label⟩ next state event ⟨⟨invariant, back⟩, related⟩
      step observed
    obtain ⟨event, rfl, rfl⟩ := Option.map_eq_some_iff.mp observed
    rcases invariant.viewed bounded back step with ⟨silent, -⟩ | moved
    · cases silent
    · obtain ⟨state', step', related'⟩ := related.visible moved
      exact ⟨state', step',
        ⟨invariant.step bounded step, back.step step⟩, related'⟩

/-- What nobody holds can be acquired, and was left by the last transaction. -/
theorem TmWorkInvariant.unheld {config : TmWorkConfig N V R}
    (invariant : TmWorkInvariant nElem config) {name : Nat × ElementKey}
    (nobody : ∀ p isReadOnly,
      (config.control p).process.holds name isReadOnly = false) :
    (config.shared name).fe = .full ∧ (config.shared name).rw = 0 := by
  have none : ∀ isReadOnly,
      tmHolders (locksOf config).control name isReadOnly = ∅ := by
    intro isReadOnly
    ext p
    simp [mem_tmHolders, locksOf, nobody p isReadOnly]
  have owned : Owned (config.shared name)
      (tmHolders (locksOf config).control name false)
      (tmHolders (locksOf config).control name true) :=
        invariant.locks.owned name
  rw [none, none] at owned
  cases owned with
  | free fe rw => exact ⟨fe, rw⟩
  | exclusive p _ _ writer =>
      exact absurd writer.symm (Finset.singleton_ne_empty p)
  | shared _ _ some => exact absurd Finset.card_empty some

/-- Every interleaving of transactions is as if each of them took effect at
once, some time between the beginning of its `EMStmStart` and the end of its
`EMStmEnd`, or not at all when it is aborted.  Elements that nobody holds for
writing have the values of this order.  The values that are stored at first, and
those that transactions write, are ones that come back from JavaScript as they
are. -/
theorem EMStm_serializable (sorting : JsSort) {nElem : Nat → Nat}
    (bounded : ∀ regionN, nElem regionN ≤ MAX_ELEM_PER_REGION)
    {roundTrip : V → V}
    {memory : TmMemory V}
    (full : ∀ name, (memory name).fe = .full ∧ (memory name).rw = 0)
    (carried : ∀ name, roundTrip (memory name).value = (memory name).value)
    {config : TmWorkConfig N V R} {trace : List (Fin N × Option (TmEvent V R))}
    (run : Run (TmWorkStep sorting nElem roundTrip)
      (initialWork N V R memory) trace config) :
    ∃ commits state,
      AtomicObject.Records Txn.effect (contents memory) (eventsOf sorting trace)
        commits state ∧
      Run (fun before (commit : AtomicObject.Commit (Fin N)
        (Txn (Nat × ElementKey) V R) R) after =>
        commit.op.effect before after commit.res) (contents memory) commits
          state.object ∧
      (∀ p, AtomicObject.returnsOf p (eventsOf sorting trace) <+:
        AtomicObject.commitsOf p commits) ∧
      (∀ name, (∀ p, (config.control p).process.holds name false = false) →
        (config.shared name).value = state.object name) ∧
      ∀ name, (∀ p isReadOnly,
        (config.control p).process.holds name isReadOnly = false) →
        (config.shared name).fe = .full ∧ (config.shared name).rw = 0 := by
  obtain ⟨state, steps, ⟨invariant, -⟩, related⟩ :=
    tmWork_simulates bounded full carried run
  obtain ⟨commits, records⟩ := AtomicObject.Records.of_run steps
  refine ⟨commits, state, records, records.sequential, ?_, ?_,
    fun name => invariant.unheld⟩
  · intro p
    exact ⟨_, (records.returns p).symm⟩
  · intro name nobody
    symm
    apply related.settled
    intro p value promises
    have held := holds_of_promises promises
    rw [nobody p] at held
    cases held

theorem run_work_snoc {start : TmWorkConfig N V R}
    {trace : List (Fin N × Option (TmEvent V R))}
    {worker worker' : TmWorker V R} {label : Option (TmEvent V R)} (p : Fin N)
    (run : Run (TmWorkStep sorting nElem roundTrip) start trace
      ⟨memory, control⟩) (now : control p = worker)
    (moved : TmWork sorting nElem roundTrip p memory worker label
      memory' worker') :
    Run (TmWorkStep sorting nElem roundTrip) start (trace ++ [(p, label)])
      ⟨memory', Function.update control p worker'⟩ := by
  subst now
  exact run.snoc (.mk moved)

end Program

/-! ## A run with a commit and an abort -/

/-- Adds an amount to the first element of region 1, unless the sum is above a
limit. -/
def addUpTo (amount limit : Int) : TmTransaction Int Unit where
  emsElems := [nextRegion]
  body _ := .read nextRegion.element fun value =>
    .write nextRegion.element (toInt32 (value + amount))
      (.finish (decide (value + amount ≤ limit)) ())

private theorem toInt32_toInt32 (word : Int) :
    toInt32 (toInt32 word) = toInt32 word := by
  simp [toInt32]

theorem addUpTo_disciplined (amount limit : Int) :
    (addUpTo amount limit).Disciplined toInt32 := by
  constructor
  · intro values
    exact ⟨⟨false, List.mem_cons_self ..⟩,
      fun value => ⟨List.mem_cons_self .., trivial⟩⟩
  · intro values _ value _
    exact ⟨toInt32_toInt32 _, trivial⟩

theorem EMStmStart_addUpTo (amount limit : Int) :
    EMStmStart mergeSortJs (addUpTo amount limit).emsElems =
      [(nextRegion, .readFE)] := by
  have single : lockedEntries mergeSortJs [nextRegion] = [nextRegion] :=
    List.perm_singleton.mp ((lockedEntries_sorts mergeSortJs).perm [nextRegion])
  rw [EMStmStart_eq, addUpTo, single]
  rfl

/-- Two processes add to an element.  The second one waits for the first, and
takes back what it has added. -/
theorem run_addUpTo :
    ∃ (trace : List (Fin 2 × Option (TmEvent Int Unit)))
      (config : TmWorkConfig 2 Int Unit),
      Run (TmWorkStep mergeSortJs (fun _ => 1) toInt32)
        (initialWork 2 Int Unit fun _ => ⟨.full, 0, 0⟩) trace config ∧
      (1, some (.ret (addUpTo 4 5) ())) ∈ trace ∧
      (config.shared nextRegion.element).value = 3 ∧
      ∀ p, (config.control p).process.holds nextRegion.element
        false = false := by
  have indexed : ∀ entry ∈ [nextRegion], IsIndexed (fun _ => 1) entry := by
    intro entry member
    obtain rfl := List.mem_singleton.mp member
    exact ⟨rfl, 0, rfl, by decide, by decide⟩
  have distinct : ([nextRegion].map TmElement.element).Nodup :=
    List.nodup_singleton _
  have initially : Run (TmWorkStep mergeSortJs (fun _ => 1) toInt32)
      (initialWork 2 Int Unit fun _ => ⟨.full, 0, 0⟩) []
        (initialWork 2 Int Unit _) := .nil
  have first :=
    run_work_snoc 0 initially rfl (.tmStart (addUpTo_disciplined 3 5)
    (.tmStart indexed distinct))
  have both := run_work_snoc 1 first rfl (.tmStart (addUpTo_disciplined 4 5)
    (.tmStart indexed distinct))
  rw [EMStmStart_addUpTo, EMStmStart_addUpTo] at both
  -- the first process commits
  have acquired := run_work_snoc 0 both rfl (.acquire (.acquire rfl))
  have started := run_work_snoc 0 acquired rfl (.started .started)
  have read := run_work_snoc 0 started rfl (.read rfl)
  have written := run_work_snoc 0 read rfl (.write rfl)
  have ending := run_work_snoc 0 written rfl (.tmEnd (.tmEnd _))
  have released := run_work_snoc 0 ending rfl (.release (.release rfl))
  have ended := run_work_snoc 0 released rfl (.ended .ended)
  -- the second process aborts
  have acquired' := run_work_snoc 1 ended rfl (.acquire (.acquire rfl))
  have started' := run_work_snoc 1 acquired' rfl (.started .started)
  have read' := run_work_snoc 1 started' rfl (.read rfl)
  have written' := run_work_snoc 1 read' rfl (.write rfl)
  have ending' := run_work_snoc 1 written' rfl (.tmEnd (.tmEnd _))
  have released' := run_work_snoc 1 ending' rfl (.release (.release rfl))
  have ended' := run_work_snoc 1 released' rfl (.ended .ended)
  refine ⟨_, _, ended',
    List.mem_append_right _ (List.mem_singleton_self _), ?_, ?_⟩
  · simp only [Function.update_self]
    rfl
  · exact Fin.forall_fin_two.mpr ⟨rfl, rfl⟩

theorem EMStm_serializable_addUpTo :
    ∃ (trace : List (Fin 2 × Option (TmEvent Int Unit)))
      (commits : List (AtomicObject.Commit (Fin 2)
        (Txn (Nat × ElementKey) Int Unit) Unit))
      (state : AtomicObject.State (Fin 2) ((Nat × ElementKey) → Int)
        (Txn (Nat × ElementKey) Int Unit) Unit),
      (1, some (.ret (addUpTo 4 5) ())) ∈ trace ∧
        AtomicObject.Records Txn.effect (fun _ => 0)
          (eventsOf mergeSortJs trace) commits state ∧
        state.object nextRegion.element = 3 := by
  obtain ⟨trace, config, run, aborted, stored, nobody⟩ := run_addUpTo
  obtain ⟨commits, state, records, -, -, values, -⟩ :=
    EMStm_serializable mergeSortJs (fun _ => by decide) (fun _ => ⟨rfl, rfl⟩)
      (fun _ => rfl) run
  refine ⟨trace, commits, state, aborted, records, ?_⟩
  rw [← values nextRegion.element nobody, stored]

end EMS
