import EMS.AtomicHistory

/-!
# Two-phase locking

A transaction acquires its locks one after the other, reads and writes what they
are for, and gives them back.  A lock is exclusive or shared, and whoever gives
up puts back what was there.  Any number of such transactions, in any
interleaving, are an atomic object on which each of them takes effect at once,
when it has its last lock.
-/

namespace TwoPhaseLocking

open Interleaving AtomicObject

/-! ## Transactions -/

section Bodies

variable {K V R : Type}

/-- What a transaction does with its locks.  It may depend on what it reads, and
ends with the decision whether to keep what it has written. -/
inductive Body (K V R : Type) where
  | read (key : K) (next : V → Body K V R)
  | write (key : K) (value : V) (next : Body K V R)
  | finish (doCommit : Bool) (res : R)

structure Outcome (K V R : Type) where
  store : K → V
  doCommit : Bool
  res : R

/-- A key, and whether it is locked to be read only. -/
abbrev Lock (K : Type) := K × Bool

/-- The body reads what is locked, and writes what is locked exclusively. -/
def Body.Within (locks : List (Lock K)) : Body K V R → Prop
  | .read key next =>
      (∃ isReadOnly, (key, isReadOnly) ∈ locks) ∧ ∀ value,
        (next value).Within locks
  | .write key _ next => (key, false) ∈ locks ∧ next.Within locks
  | .finish _ _ => True

/-- The body writes only values that are good, as long as those that it reads
are. -/
def Body.Writes (good : V → Prop) : Body K V R → Prop
  | .read _ next => ∀ value, good value → (next value).Writes good
  | .write _ value next => good value ∧ next.Writes good
  | .finish _ _ => True

variable [DecidableEq K]

/-- What the body does when nobody else writes. -/
def Body.run : Body K V R → (K → V) → Outcome K V R
  | .read key next, store => (next (store key)).run store
  | .write key value next, store => next.run (Function.update store key value)
  | .finish doCommit res, store => ⟨store, doCommit, res⟩

/-- A transaction may depend on what its keys held when they were locked. -/
structure Txn (K V R : Type) where
  locks : List (Lock K)
  body : List V → Body K V R

def Txn.outcome (txn : Txn K V R) (store : K → V) : Outcome K V R :=
  (txn.body (txn.locks.map fun lock => store lock.1)).run store

/-- The transaction takes effect at once, or not at all. -/
def Txn.effect (txn : Txn K V R) (before after : K → V) (res : R) : Prop :=
  after = (if (txn.outcome before).doCommit then (txn.outcome before).store
    else before) ∧
    res = (txn.outcome before).res

/-- Each key is locked once, and only what is locked is used. -/
structure Txn.WellLocked (txn : Txn K V R) : Prop where
  distinct : (txn.locks.map Prod.fst).Nodup
  within : ∀ values, (txn.body values).Within txn.locks

variable {locks : List (Lock K)} {body : Body K V R}
  {store store' : K → V} {key : K}

omit [DecidableEq K] in
theorem Body.Within.mono {locks' : List (Lock K)} (within : body.Within locks)
    (more : locks ⊆ locks') : body.Within locks' := by
  induction body with
  | read key next induction =>
      obtain ⟨⟨isReadOnly, locked⟩, rest⟩ := within
      exact ⟨⟨isReadOnly, more locked⟩,
        fun value => induction value (rest value)⟩
  | write key value next induction => exact ⟨more within.1, induction within.2⟩
  | finish doCommit res => trivial

theorem Body.Within.run_other (within : body.Within locks)
    (other : (key, false) ∉ locks) :
    (body.run store).store key = store key := by
  induction body generalizing store with
  | read source next induction => exact induction _ (within.2 _)
  | write target value next induction =>
      obtain ⟨locked, rest⟩ := within
      have different : key ≠ target := by
        rintro rfl
        exact other locked
      rw [Body.run, induction rest, Function.update_of_ne different]
  | finish doCommit res => rfl

theorem Body.Within.run_congr (within : body.Within locks)
    (same : ∀ lock ∈ locks, store' lock.1 = store lock.1) :
    (body.run store').doCommit = (body.run store).doCommit ∧
      (body.run store').res = (body.run store).res ∧
      ∀ lock ∈ locks, (body.run store').store lock.1 =
        (body.run store).store lock.1 := by
  induction body generalizing store store' with
  | read key next induction =>
      obtain ⟨⟨isReadOnly, locked⟩, rest⟩ := within
      rw [Body.run, Body.run, same _ locked]
      exact induction _ (rest _) same
  | write key value next induction =>
      obtain ⟨-, rest⟩ := within
      apply induction rest
      intro lock member
      by_cases here : lock.1 = key
      · simp [here]
      · simpa [here] using same lock member
  | finish doCommit res => exact ⟨rfl, rfl, same⟩

end Bodies

/-! ## The protocol -/

section Protocol

variable {K V R : Type}

/-- A lock that has been acquired, with what the key held then. -/
structure Held (K V : Type) where
  key : K
  isReadOnly : Bool
  old : V

def Held.lock (held : Held K V) : Lock K := (held.key, held.isReadOnly)

inductive Stage (K V R : Type) where
  | idle
  | growing (txn : Txn K V R) (held : List (Held K V)) (pending : List (Lock K))
  | holding (txn : Txn K V R) (body : Body K V R) (held : List (Held K V))

def Stage.held : Stage K V R → List (Held K V)
  | .idle => []
  | .growing _ held _ | .holding _ _ held => held

variable {ι : Type}

/-- Nobody else holds the key, unless it is locked to be read only by
everybody. -/
def Free (control : ι → Stage K V R) (p : ι) (lock : Lock K) : Prop :=
  ∀ q, q ≠ p → ∀ held ∈ (control q).held, held.key = lock.1 →
    held.isReadOnly = true ∧ lock.2 = true

variable [DecidableEq K]

/-- The memory after a lock has been given back. -/
def restore (held : Held K V) (doCommit : Bool) (store : K → V) : K → V :=
  if held.isReadOnly || doCommit then store
    else Function.update store held.key held.old

theorem restore_other {held : Held K V} {doCommit : Bool}
    {store : K → V} {key : K}
    (other : held.isReadOnly = false → key ≠ held.key) :
    restore held doCommit store key = store key := by
  unfold restore
  cases shared : held.isReadOnly with
  | true => rfl
  | false =>
      cases doCommit with
      | true => rfl
      | false => exact Function.update_of_ne (other shared) _ _

theorem restore_same {held : Held K V} {doCommit : Bool} {store : K → V}
    (exclusive : held.isReadOnly = false) :
    restore held doCommit store held.key = if doCommit then store held.key
      else held.old := by
  unfold restore
  cases doCommit <;> simp [exclusive]

/-- The steps of the processes.  A transaction is visible when it starts, when
it has its last lock, and when it has ended. -/
inductive Step [DecidableEq ι] : Config ι (K → V) (Stage K V R) →
    ι × Option (Event (Txn K V R) R) →
    Config ι (K → V) (Stage K V R) → Prop where
  | start {store : K → V} {control : ι → Stage K V R} {p : ι}
      {txn : Txn K V R} :
      control p = .idle → txn.WellLocked →
      Step ⟨store, control⟩ (p, some (.call txn))
        ⟨store, Function.update control p (.growing txn [] txn.locks)⟩
  | acquire {store : K → V} {control : ι → Stage K V R} {p : ι}
      {txn : Txn K V R}
      {held : List (Held K V)} {lock : Lock K} {pending : List (Lock K)} :
      control p = .growing txn held (lock :: pending) → Free control p lock →
      Step ⟨store, control⟩ (p, none) ⟨store, Function.update control p
        (.growing txn (held ++ [⟨lock.1, lock.2, store lock.1⟩]) pending)⟩
  | locked {store : K → V} {control : ι → Stage K V R} {p : ι} {txn : Txn K V R}
      {held : List (Held K V)} :
      control p = .growing txn held [] →
      Step ⟨store, control⟩ (p, some .commit) ⟨store, Function.update control p
        (.holding txn (txn.body (held.map Held.old)) held)⟩
  | read {store : K → V} {control : ι → Stage K V R} {p : ι} {txn : Txn K V R}
      {held : List (Held K V)} {key : K} {next : V → Body K V R} :
      control p = .holding txn (.read key next) held →
      Step ⟨store, control⟩ (p, none) ⟨store, Function.update control p
        (.holding txn (next (store key)) held)⟩
  | write {store : K → V} {control : ι → Stage K V R} {p : ι} {txn : Txn K V R}
      {held : List (Held K V)} {key : K} {value : V} {next : Body K V R} :
      control p = .holding txn (.write key value next) held →
      Step ⟨store, control⟩ (p, none) ⟨Function.update store key value,
        Function.update control p (.holding txn next held)⟩
  | release {store : K → V} {control : ι → Stage K V R} {p : ι}
      {txn : Txn K V R}
      {lock : Held K V} {held : List (Held K V)} {doCommit : Bool} {res : R} :
      control p = .holding txn (.finish doCommit res) (lock :: held) →
      Step ⟨store, control⟩ (p, none) ⟨restore lock doCommit store,
        Function.update control p (.holding txn (.finish doCommit res) held)⟩
  | ended {store : K → V} {control : ι → Stage K V R} {p : ι} {txn : Txn K V R}
      {doCommit : Bool} {res : R} :
      control p = .holding txn (.finish doCommit res) [] →
      Step ⟨store, control⟩ (p, some (.ret txn res))
        ⟨store, Function.update control p .idle⟩

/-! ## The object -/

/-- Where the process is in its transaction, as the object has it. -/
def Stage.phase (store : K → V) : Stage K V R → Phase (Txn K V R) R
  | .idle => .idle
  | .growing txn _ _ => .pending txn
  | .holding txn body _ => .done txn (body.run store).res

/-- What the key will hold when the transaction gives it back. -/
def Stage.Promises (store : K → V) (stage : Stage K V R) (key : K)
    (value : V) : Prop :=
  match stage with
  | .holding _ body held => ∃ lock ∈ held, lock.lock = (key, false) ∧
      value = if (body.run store).doCommit then (body.run store).store key
        else lock.old
  | _ => False

/-- A transaction has read what is there, and uses only what it holds. -/
def Stage.Sound (store : K → V) : Stage K V R → Prop
  | .idle => True
  | .growing txn held pending =>
      txn.WellLocked ∧ held.map Held.lock ++ pending = txn.locks ∧
      ∀ lock ∈ held, lock.old = store lock.key
  | .holding _ body held =>
      (held.map Held.key).Nodup ∧ body.Within (held.map Held.lock)

/-- The object is where the memory will be when the locks have been given
back. -/
structure Related (config : Config ι (K → V) (Stage K V R))
    (state : State ι (K → V) (Txn K V R) R) : Prop where
  sound : ∀ p, (config.control p).Sound config.shared
  apart : ∀ p, ∀ held ∈ (config.control p).held, Free config.control p held.lock
  phase : ∀ p, state.phase p = (config.control p).phase config.shared
  promised : ∀ p key value,
    (config.control p).Promises config.shared key value →
    state.object key = value
  settled : ∀ key, (∀ p value,
    ¬ (config.control p).Promises config.shared key value) →
    state.object key = config.shared key

variable {store store' : K → V} {stage : Stage K V R}

/-- Only what a transaction holds matters for it. -/
theorem Stage.Sound.congr (sound : stage.Sound store)
    (same : ∀ held ∈ stage.held, store' held.key = store held.key) :
    stage.Sound store' ∧ stage.phase store' = stage.phase store ∧
      ∀ key value, stage.Promises store' key value ↔
        stage.Promises store key value := by
  cases stage with
  | idle => exact ⟨trivial, rfl, fun _ _ => .rfl⟩
  | growing txn held pending =>
      obtain ⟨wellLocked, locks, old⟩ := sound
      refine ⟨⟨wellLocked, locks, ?_⟩, rfl, fun _ _ => .rfl⟩
      intro lock member
      rw [old lock member, same lock member]
  | holding txn body held =>
      obtain ⟨distinct, within⟩ := sound
      have locked : ∀ lock ∈ held.map Held.lock,
          store' lock.1 = store lock.1 := by
        intro lock member
        obtain ⟨other, here, rfl⟩ := List.mem_map.mp member
        exact same other here
      obtain ⟨sameCommit, sameRes, sameStore⟩ := within.run_congr locked
      refine ⟨⟨distinct, within⟩, ?_, ?_⟩
      · simp only [Stage.phase, sameRes]
      · intro key value
        refine exists_congr fun lock => and_congr_right fun member =>
          and_congr_right fun here => ?_
        have stored := sameStore _ (List.mem_map_of_mem member)
        rw [here] at stored
        rw [sameCommit, stored]

/-! ## One step -/

variable {control : ι → Stage K V R}
  {state state' : State ι (K → V) (Txn K V R) R} {p : ι}

theorem Related.other_key (related : Related ⟨store, control⟩ state)
    {held : Held K V}
    (member : held ∈ (control p).held)
    (exclusive : held.isReadOnly = false) {q : ι}
    (different : q ≠ p) {held' : Held K V}
    (member' : held' ∈ (control q).held) :
    held'.key ≠ held.key := by
  intro same
  have shared := related.apart p held member q different held' member' same
  simp [Held.lock, exclusive] at shared

variable [DecidableEq ι]

/-- A process that changes only what the others do not hold. -/
theorem Related.moves (related : Related ⟨store, control⟩ state)
    (others : ∀ q, q ≠ p → ∀ held ∈ (control q).held,
      store' held.key = store held.key)
    (sound : stage.Sound store')
    (apart : ∀ held ∈ stage.held, held ∈ (control p).held ∨
      Free control p held.lock)
    (phase : state'.phase p = stage.phase store')
    (phases : ∀ q, q ≠ p → state'.phase q = state.phase q)
    (promised : ∀ key value, stage.Promises store' key value →
      state'.object key = value)
    (kept : ∀ q, q ≠ p → ∀ key value, (control q).Promises store key value →
      state'.object key = state.object key)
    (settled : ∀ key, (∀ value, ¬ stage.Promises store' key value) →
      (∀ q, q ≠ p → ∀ value, ¬ (control q).Promises store key value) →
      state'.object key = store' key) :
    Related ⟨store', Function.update control p stage⟩ state' := by
  have congr : ∀ q, q ≠ p → (control q).Sound store' ∧
      (control q).phase store' = (control q).phase store ∧
      ∀ key value, (control q).Promises store' key value ↔
          (control q).Promises store key value :=
    fun q different => (related.sound q).congr (others q different)
  have free : ∀ held ∈ stage.held, Free control p held.lock := by
    intro held member
    rcases apart held member with already | new
    · exact related.apart p held already
    · exact new
  constructor
  · intro q
    by_cases here : q = p
    · subst here
      simpa using sound
    · simpa [here] using (congr q here).1
  · intro q held member r different held' member' sameKey
    simp only at member member'
    by_cases here : q = p
    · subst here
      rw [Function.update_self] at member
      rw [Function.update_of_ne different] at member'
      exact free held member r different held' member' sameKey
    · rw [Function.update_of_ne here] at member
      by_cases there : r = p
      · subst there
        rw [Function.update_self] at member'
        obtain ⟨first, second⟩ :=
          free held' member' q here held member sameKey.symm
        exact ⟨second, first⟩
      · rw [Function.update_of_ne there] at member'
        exact related.apart q held member r different held' member' sameKey
  · intro q
    by_cases here : q = p
    · subst here
      simpa using phase
    · simpa [here, (congr q here).2.1, phases q here] using related.phase q
  · intro q key value promises
    by_cases here : q = p
    · subst here
      exact promised key value (by simpa using promises)
    · have before :=
        ((congr q here).2.2 key value).mp (by simpa [here] using promises)
      rw [kept q here key value before]
      exact related.promised q key value before
  · intro key nobody
    apply settled key
    · intro value promises
      exact nobody p value (by simpa using promises)
    · intro q here value promises
      exact nobody q value
        (by simpa [here] using ((congr q here).2.2 key value).mpr promises)

theorem Related.unpromised (related : Related ⟨store, control⟩ state)
    {held : Held K V} (member : held ∈ (control p).held)
    (nothing : ∀ key value, ¬ (control p).Promises store key value) :
    state.object held.key = store held.key := by
  apply related.settled
  intro q value promises
  by_cases here : q = p
  · subst here
    exact nothing _ _ promises
  · simp only at promises
    generalize now : control q = stage at promises
    cases stage with
    | idle | growing => exact promises
    | holding txn body other =>
        obtain ⟨lock, member', sameLock, -⟩ := promises
        obtain ⟨sameKey, exclusive⟩ := Prod.mk.inj sameLock
        have inOther : lock ∈ (control q).held := by
          rw [now]
          exact member'
        exact related.other_key inOther exclusive (Ne.symm here) member
          sameKey.symm

theorem Related.beside {config : Config ι (K → V) (Stage K V R)}
    (related : Related config state)
    (p : ι) (key : K) (here : ∀ value,
      ¬ (config.control p).Promises config.shared key value)
    (others : ∀ q, q ≠ p → ∀ value,
      ¬ (config.control q).Promises config.shared key value) :
    state.object key = config.shared key := by
  apply related.settled
  intro q value
  by_cases same : q = p
  · subst same
    exact here value
  · exact others q same value

/-- A step that is not visible leaves the object as it is. -/
theorem Related.silent {config next : Config ι (K → V) (Stage K V R)}
    (related : Related config state) (step : Step config (p, none) next) :
    Related next state := by
  have before := related.beside p
  cases step with
  | @acquire store control _ txn held lock pending now free =>
      have sound : (control p).Sound store := related.sound p
      have phase : state.phase p = (control p).phase store := related.phase p
      rw [now] at sound phase
      obtain ⟨wellLocked, locks, old⟩ := sound
      refine related.moves (fun _ _ _ _ => rfl) ⟨wellLocked, ?_, ?_⟩ ?_ phase
        (fun _ _ => rfl)
        (fun _ _ promises => promises.elim) (fun _ _ _ _ _ => rfl) ?_
      · simpa [Held.lock] using locks
      · intro other member
        rcases List.mem_append.mp member with already | new
        · exact old other already
        · obtain rfl := List.mem_singleton.mp new
          rfl
      · intro other member
        rw [now]
        rcases List.mem_append.mp member with already | new
        · exact .inl already
        · obtain rfl := List.mem_singleton.mp new
          exact .inr free
      · intro key _ others
        refine before key (fun value promises => ?_) others
        simp only [now] at promises
        exact promises
  | @read store control _ txn held key reads now =>
      have sound : (control p).Sound store := related.sound p
      have phase : state.phase p = (control p).phase store := related.phase p
      have promised := related.promised p
      simp only [now] at sound phase promised before
      obtain ⟨distinct, -, within⟩ := sound
      refine related.moves (fun _ _ _ _ => rfl) ⟨distinct, within _⟩ ?_ phase
        (fun _ _ => rfl)
        promised (fun _ _ _ _ _ => rfl) before
      intro other member
      rw [now]
      exact .inl member
  | @write store control _ txn held key value writes now =>
      have sound : (control p).Sound store := related.sound p
      have phase : state.phase p = (control p).phase store := related.phase p
      have promised := related.promised p
      simp only [now] at sound phase promised before
      obtain ⟨distinct, locked, within⟩ := sound
      obtain ⟨own, member, isLock⟩ := List.mem_map.mp locked
      obtain ⟨rfl, exclusive⟩ := Prod.mk.inj isLock
      have inHeld : own ∈ (control p).held := by
        rw [now]
        exact member
      refine related.moves ?_ ⟨distinct, within⟩ ?_ phase
        (fun _ _ => rfl) promised
        (fun _ _ _ _ _ => rfl) ?_
      · intro q different other member'
        exact Function.update_of_ne
          (related.other_key inHeld exclusive different member') _ _
      · intro other member'
        rw [now]
        exact .inl member'
      · intro other here others
        have different : other ≠ own.key := by
          rintro rfl
          exact here _ ⟨own, member, isLock, rfl⟩
        rw [Function.update_of_ne different]
        exact before other here others
  | @release store control _ txn lock held doCommit res now =>
      have sound : (control p).Sound store := related.sound p
      have phase : state.phase p = (control p).phase store := related.phase p
      have promised := related.promised p
      simp only [now] at sound phase promised before
      obtain ⟨distinct, within⟩ := sound
      rw [List.map_cons, List.nodup_cons] at distinct
      have inHeld : lock ∈ (control p).held := by
        rw [now]
        exact List.mem_cons_self ..
      refine related.moves ?_ ⟨distinct.2, trivial⟩ ?_ phase (fun _ _ => rfl) ?_
        (fun _ _ _ _ _ => rfl) ?_
      · intro q different other member
        exact restore_other fun exclusive =>
          related.other_key inHeld exclusive different member
      · intro other member
        rw [now]
        exact .inl (List.mem_cons_of_mem _ member)
      · rintro key value ⟨other, member, isLock, rfl⟩
        obtain ⟨rfl, -⟩ := Prod.mk.inj isLock
        have different : other.key ≠ lock.key := by
          intro same
          exact distinct.1 (same ▸ List.mem_map_of_mem member)
        apply promised
        refine ⟨other, List.mem_cons_of_mem _ member, isLock, ?_⟩
        simp only [Body.run, restore_other fun _ => different]
        rfl
      · intro key here others
        by_cases own : lock.isReadOnly = false ∧ key = lock.key
        · obtain ⟨exclusive, rfl⟩ := own
          rw [restore_same exclusive]
          apply promised
          exact ⟨lock, List.mem_cons_self .., Prod.ext rfl exclusive, rfl⟩
        · have different : lock.isReadOnly = false → key ≠ lock.key :=
            fun exclusive same => own ⟨exclusive, same⟩
          rw [restore_other different]
          refine before key ?_ others
          rintro value ⟨other, member, isLock, rfl⟩
          obtain ⟨sameKey, exclusive⟩ := Prod.mk.inj isLock
          rcases List.mem_cons.mp member with rfl | later
          · exact different exclusive sameKey.symm
          · exact here _ ⟨other, later, isLock, rfl⟩

/-- A transaction with all its locks takes effect on what it finds. -/
theorem Related.takesEffect (related : Related ⟨store, control⟩ state)
    {txn : Txn K V R}
    {held : List (Held K V)} (now : control p = .growing txn held []) :
    ∃ after, txn.effect state.object after
        ((txn.body (held.map Held.old)).run store).res ∧
      Related ⟨store, Function.update control p
        (.holding txn (txn.body (held.map Held.old)) held)⟩
        (({ state with object := after } :
          State ι (K → V) (Txn K V R) R).setPhase p
          (.done txn ((txn.body (held.map Held.old)).run store).res)) := by
  have sound : (control p).Sound store := related.sound p
  have before := related.beside p
  simp only [now] at sound before
  obtain ⟨wellLocked, locks, old⟩ := sound
  rw [List.append_nil] at locks
  have inHeld : ∀ lock ∈ held, lock ∈ (control p).held := by
    intro lock member
    rw [now]
    exact member
  have same : ∀ lock ∈ txn.locks, state.object lock.1 = store lock.1 := by
    rw [← locks]
    intro lock member
    obtain ⟨own, here, rfl⟩ := List.mem_map.mp member
    refine related.unpromised (inHeld own here) fun _ _ promises => ?_
    rw [now] at promises
    exact promises
  have values : txn.locks.map (fun lock => state.object lock.1) =
      held.map Held.old := by
    rw [← locks, List.map_map]
    apply List.map_congr_left
    intro lock member
    have found := same lock.lock (locks ▸ List.mem_map_of_mem member)
    exact found.trans (old lock member).symm
  have within := wellLocked.within (held.map Held.old)
  obtain ⟨sameCommit, sameRes, sameStore⟩ := within.run_congr same
  have outcome : txn.outcome state.object =
      (txn.body (held.map Held.old)).run state.object := by
    rw [Txn.outcome, values]
  generalize txn.body (held.map Held.old) =
    body at within sameCommit sameRes sameStore outcome
  let after : K → V :=
    if (body.run state.object).doCommit then (body.run state.object).store
    else state.object
  have unchanged : ∀ key, (key, false) ∉ txn.locks →
      after key = state.object key := by
    intro key other
    simp only [after]
    split
    · exact within.run_other other
    · rfl
  refine ⟨after, ⟨by rw [outcome], by rw [outcome, sameRes]⟩, ?_⟩
  refine related.moves (fun _ _ _ _ => rfl) ⟨?_, ?_⟩ ?_ (by simp [Stage.phase])
    (fun q other => State.setPhase_other _ other _) ?_ ?_ ?_
  · have distinct := wellLocked.distinct
    rw [← locks, List.map_map] at distinct
    exact distinct
  · rw [locks]
    exact within
  · exact fun lock member => .inl (inHeld lock member)
  · rintro key value ⟨lock, member, isLock, rfl⟩
    have locked : (key, false) ∈ txn.locks := by
      rw [← locks, ← isLock]
      exact List.mem_map_of_mem member
    obtain ⟨rfl, -⟩ := Prod.mk.inj isLock
    change after lock.key = _
    simp only [after, sameCommit]
    split
    · exact sameStore _ locked
    · exact (same _ locked).trans (old lock member).symm
  · intro q different key value promises
    apply unchanged
    intro locked
    rw [← locks] at locked
    obtain ⟨own, member, isLock⟩ := List.mem_map.mp locked
    obtain ⟨rfl, exclusive⟩ := Prod.mk.inj isLock
    generalize there : control q = stage at promises
    cases stage with
    | idle | growing => exact promises
    | holding txn' body' held' =>
        obtain ⟨other, member', isOther, -⟩ := promises
        have inOther : other ∈ (control q).held := by
          rw [there]
          exact member'
        exact related.other_key (inHeld own member) exclusive different inOther
          (Prod.mk.inj isOther).1
  · intro key here others
    have other : (key, false) ∉ txn.locks := by
      intro locked
      rw [← locks] at locked
      obtain ⟨own, member, isLock⟩ := List.mem_map.mp locked
      exact here _ ⟨own, member, isLock, rfl⟩
    exact (unchanged key other).trans
      (before key (fun _ promises => promises) others)

/-- A visible step is one of the object. -/
theorem Related.visible {config next : Config ι (K → V) (Stage K V R)}
    {event : Event (Txn K V R) R} (related : Related config state)
    (step : Step config (p, some event) next) :
    ∃ state', AtomicObject.Step Txn.effect state (p, event) state' ∧
      Related next state' := by
  have phase := related.phase p
  have before := related.beside p
  cases step with
  | @start store control _ txn now wellLocked =>
      simp only [now] at phase before
      refine ⟨_, .call txn phase,
        related.moves (fun _ _ _ _ => rfl) ⟨wellLocked, rfl, ?_⟩ ?_ ?_
        (fun q other => State.setPhase_other _ other _)
          (fun _ _ promises => promises.elim)
        (fun _ _ _ _ _ => rfl) ?_⟩
      · intro lock member
        cases member
      · intro lock member
        cases member
      · simp [Stage.phase]
      · exact fun key _ others => before key (fun _ promises => promises) others
  | @locked store control _ txn held now =>
      obtain ⟨after, effect, related'⟩ := related.takesEffect now
      simp only [now] at phase
      exact ⟨_, .commit phase effect, related'⟩
  | @ended store control _ txn doCommit res now =>
      simp only [now] at phase before
      refine ⟨_, .ret phase, related.moves (fun _ _ _ _ => rfl) trivial ?_ ?_
        (fun q other => State.setPhase_other _ other _)
          (fun _ _ promises => promises.elim)
        (fun _ _ _ _ _ => rfl) ?_⟩
      · intro lock member
        cases member
      · simp [Stage.phase]
      · intro key _ others
        refine before key ?_ others
        rintro value ⟨lock, member, -⟩
        cases member

/-! ## Runs -/

/-- Nobody has started a transaction yet. -/
def initially (store : K → V) : Config ι (K → V) (Stage K V R) :=
  ⟨store, fun _ => .idle⟩

omit [DecidableEq ι] in
theorem related_initially :
    Related (initially store : Config ι (K → V) (Stage K V R))
    (AtomicObject.initial store) where
  sound _ := trivial
  apart _ _ member := by cases member
  phase _ := rfl
  promised _ _ _ promises := promises.elim
  settled _ _ := rfl

theorem serializable {config : Config ι (K → V) (Stage K V R)}
    {trace : List (ι × Option (Event (Txn K V R) R))}
    (run : Run Step (initially store) trace config) :
    ∃ state, Run (AtomicObject.Step Txn.effect) (AtomicObject.initial store)
        (trace.filterMap fun label => label.2.map fun event =>
          (label.1, event)) state ∧
      Related config state := by
  refine run.simulate _ Related ?_ ?_ related_initially
  · rintro config ⟨p, label⟩ next state related step observed
    cases label with
    | none => exact related.silent step
    | some event => cases observed
  · rintro config ⟨p, label⟩ next state event related step observed
    cases label with
    | none => cases observed
    | some event =>
        obtain rfl := Option.some.inj observed
        exact related.visible step

end Protocol

end TwoPhaseLocking
