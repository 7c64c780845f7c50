import Mathlib.Data.Multiset.AddSub
import EMS.AtomicHistory
import EMS.WriteTags

/-!
# Elements as readers-writer locks

`EMSreadRW` takes an element for reading, and `EMSreleaseRW` gives it back.
Here is what its reader count says as long as a process only gives back what it
has taken, whatever else the processes do with the element: it is the number of
readers, nobody takes the element exclusively meanwhile, and no release fails.
-/

namespace EMS

open SharedProgram Interleaving Protocol AtomicObject

abbrev TagCommit (ι : Type) := Commit ι TagOp TagRes

/-- The call has taken the element for reading. -/
def TakesForReading : TagOp × TagRes → Prop
  | (.readRW _, .value (.ok _)) | (.readRW _, .written (.ok _)) => True
  | _ => False

instance : (call : TagOp × TagRes) → Decidable (TakesForReading call)
  | (.readRW _, .value (.ok _)) | (.readRW _, .written (.ok _)) =>
    isTrue trivial
  | (.readRW _, .value (.error _)) | (.readRW _, .written (.error _))
  | (.readRW _, .released _) => isFalse id
  | (.write _, _) | (.readFE _, _) | (.writeEF _, _) |
        (.releaseRW, _) | (.faa _, _)
  | (.cas _ _, _) => isFalse id

def TagOp.IsRelease : TagOp → Prop
  | .releaseRW => True
  | _ => False

instance : (op : TagOp) → Decidable op.IsRelease
  | .releaseRW => isTrue trivial
  | .write _ | .readFE _ | .writeEF _ | .readRW _ | .faa _ | .cas _ _ =>
      isFalse id

/-- The operation wants the element for itself. -/
def TagOp.IsExclusive : TagOp → Prop
  | .readFE _ | .writeEF _ | .faa _ | .cas _ _ => True
  | _ => False

section Readers

variable {ι : Type} [DecidableEq ι]

/-- How often a process has taken the element for reading. -/
def taken (p : ι) (commits : List (TagCommit ι)) : Nat :=
  (commitsOf p commits).countP TakesForReading

/-- How often a process has given the element back. -/
def givenBack (p : ι) (commits : List (TagCommit ι)) : Nat :=
  (commitsOf p commits).countP (·.1.IsRelease)

/-- The processes that hold the element for reading, as often as they do. -/
def readers (commits : List (TagCommit ι)) : Multiset ι :=
  commits.foldl (fun held commit =>
    if TakesForReading (commit.op, commit.res) then commit.process ::ₘ held
    else if commit.op.IsRelease then held.erase commit.process
    else held) 0

theorem readers_snoc (commits : List (TagCommit ι)) (commit : TagCommit ι) :
    readers (commits ++ [commit]) =
      if TakesForReading (commit.op, commit.res) then
        commit.process ::ₘ readers commits
      else if commit.op.IsRelease then (readers commits).erase commit.process
      else readers commits := by
  simp [readers]

/-- A process gives the element back only if it has been returned it more often
than it has called for giving it back. -/
def ReleasesOwn (events : List (ι × TagEvent)) : Prop :=
  ∀ earlier p later, events = earlier ++ (p, .call .releaseRW) :: later →
    (callsOf p earlier).countP (·.IsRelease) <
      (returnsOf p earlier).countP TakesForReading

theorem ReleasesOwn.before {events : List (ι × TagEvent)} {event : ι × TagEvent}
    (own : ReleasesOwn (events ++ [event])) : ReleasesOwn events := by
  intro earlier p later split
  exact own earlier p (later ++ [event]) (by simp [split])

private theorem callsOf_seen (p : ι) (events : List (ι × TagEvent)) :
    callsOf p (events.filterMap seenEvent) = callsOf p events := by
  induction events with
  | nil => rfl
  | cons event events induction =>
      obtain ⟨q, event⟩ := event
      by_cases same : q = p
      · cases event <;>
          simpa [seenEvent, callsOf, Event.called, same,
            List.filterMap_cons] using induction
      · cases event <;> simpa [seenEvent, callsOf, same,
          List.filterMap_cons] using induction

theorem returnsOf_seen (p : ι) (events : List (ι × TagEvent)) :
    returnsOf p (events.filterMap seenEvent) = returnsOf p events := by
  induction events with
  | nil => rfl
  | cons event events induction =>
      obtain ⟨q, event⟩ := event
      by_cases same : q = p
      · cases event <;>
          simpa [seenEvent, returnsOf, Event.returned, same,
            List.filterMap_cons] using induction
      · cases event <;> simpa [seenEvent, returnsOf, same,
          List.filterMap_cons] using induction

/-! ## The invariant -/

/-- What the reader count says, unless an operation has failed on the element
and left it busy. -/
structure LockCounts (held : Multiset ι) (lock : Lock) : Prop where
  count : lock.fe ≠ .busy → lock.rw.val = held.card ∧
    (lock.fe = .rwLock ↔ held ≠ 0)
  atMost : held.card ≤ 7

structure ReadersInv (commits : List (TagCommit ι))
    (state : AtomicObject.State ι Lock TagOp TagRes) :
    Prop where
  counts : LockCounts (readers commits) state.object
  held : ∀ p, (readers commits).count p + givenBack p commits = taken p commits
  own : ∀ p, state.phase p = .pending .releaseRW →
    givenBack p commits < taken p commits
  released : ∀ commit ∈ commits, ∀ count, commit.op = .releaseRW →
    commit.res = .released count → 0 ≤ count
  exclusive : ∀ earlier commit later, commits = earlier ++ commit :: later →
    commit.op.IsExclusive → readers earlier = 0
  last : ∀ earlier commit, commits = earlier ++ [commit] → commit.op.IsRelease →
    readers commits = 0 → state.object.fe = .full

/-! ### One operation -/

variable {held : Multiset ι} {lock next taking : Lock} {op : TagOp}
  {res : TagRes} {p : ι}

/-- Nobody takes an element for itself that is taken for reading. -/
theorem LockCounts.exclusive (counts : LockCounts held lock)
    (exclusive : op.IsExclusive)
    (takes : op.holds lock = some taking) : held = 0 ∧ taking.rw.val = 0 := by
  have free : (lock.fe = .full ∨ lock.fe = .empty) ∧
      taking = ⟨.busy, lock.rw⟩ := by
    cases op with
    | readFE | faa | cas | writeEF =>
        simp only [TagOp.holds, Option.ite_none_right_eq_some,
          Option.some.injEq] at takes
        simp [takes.1, takes.2]
    | write | readRW | releaseRW => exact exclusive.elim
  obtain ⟨state, rfl⟩ := free
  have notBusy : lock.fe ≠ .busy := by
    rcases state with state | state <;> simp [state]
  have notLocked : lock.fe ≠ .rwLock := by
    rcases state with state | state <;> simp [state]
  obtain ⟨count, locked⟩ := counts.count notBusy
  have nobody : held = 0 := by
    by_contra somebody
    exact notLocked (locked.mpr somebody)
  exact ⟨nobody, by simp [count, nobody]⟩

theorem TagOp.exclusive_leaves (exclusive : op.IsExclusive)
    (alone : taking.rw.val = 0) :
    (op.leaves taking).fe ≠ .rwLock ∧ (op.leaves taking).rw.val = 0 := by
  cases op with
  | readFE | faa => exact ⟨by simp [TagOp.leaves], alone⟩
  | writeEF | cas => exact ⟨by simp [TagOp.leaves], rfl⟩
  | write | readRW | releaseRW => exact exclusive.elim

omit [DecidableEq ι] in
theorem LockCounts.of_busy (counts : LockCounts held lock)
    (busy : next.fe = .busy) :
    LockCounts held next :=
  ⟨fun notBusy => absurd busy notBusy, counts.atMost⟩

theorem LockCounts.after_exclusive (counts : LockCounts held lock)
    (exclusive : op.IsExclusive)
    (effect : op.effect lock next res) : LockCounts held next := by
  have taken : ∃ taking, op.holds lock = some taking ∧
      (res.isOk ∧ next = op.leaves taking ∨ res.Fails ∧ next = taking) := by
    cases op with
    | readFE | faa | cas | writeEF => exact effect
    | write | readRW | releaseRW => exact exclusive.elim
  obtain ⟨taking, takes, ends⟩ := taken
  obtain ⟨nobody, alone⟩ := counts.exclusive exclusive takes
  rcases ends with ⟨-, rfl⟩ | ⟨-, rfl⟩
  · obtain ⟨notLocked, zero⟩ := TagOp.exclusive_leaves exclusive alone
    refine ⟨fun _ => ⟨by simp [zero, nobody], ?_⟩, counts.atMost⟩
    simp [notLocked, nobody]
  · exact counts.of_busy (TagOp.holds_busy takes).2

omit [DecidableEq ι] in
/-- One more reader has been counted. -/
theorem LockCounts.after_read {stack : Tag} (counts : LockCounts held lock)
    (effect : (TagOp.readRW stack).effect lock next res) :
    LockCounts (if TakesForReading (.readRW stack, res) then p ::ₘ held
      else held) next := by
  obtain ⟨taking, takes, ends⟩ := effect
  have busy := (TagOp.holds_busy takes).2
  have notBusy := (TagOp.holds_busy takes).1
  rcases ends with ⟨ok, rfl⟩ | ⟨fails, rfl⟩
  · have reads : TakesForReading (.readRW stack, res) := by
      cases res with
      | value res | written res =>
          cases res <;> simp_all [TakesForReading, TagRes.isOk]
      | released => exact ok
    rw [if_pos reads]
    simp only [TagOp.holds, Option.ite_none_right_eq_some,
      Option.some.injEq] at takes
    obtain ⟨⟨-, room⟩, rfl⟩ := takes
    obtain ⟨count, -⟩ := counts.count notBusy
    have more : (lock.rw + 1).val = lock.rw.val + 1 := by
      revert room
      generalize lock.rw = rw
      revert rw
      decide
    have below : lock.rw.val < 7 := room
    refine ⟨fun _ => ⟨?_, ?_⟩, ?_⟩
    · simpa [TagOp.leaves, count] using more
    · simp [TagOp.leaves]
    · rw [Multiset.card_cons]
      omega
  · have failed : ¬ TakesForReading (.readRW stack, res) := by
      intro reads
      cases res with
      | value res | written res =>
          cases res <;> simp_all [TakesForReading, TagRes.Fails]
      | released => exact reads
    rw [if_neg failed]
    exact counts.of_busy busy

/-- A process that reads is counted, so giving the element back does not
fail. -/
theorem LockCounts.after_release (counts : LockCounts held lock)
    (reads : p ∈ held)
    (effect : TagOp.releaseRW.effect lock next res) :
    LockCounts (held.erase p) next ∧
      (∃ count : Int, res = .released count ∧ 0 ≤ count) ∧
      (held.erase p = 0 → next.fe = .full) := by
  have somebody : held ≠ 0 := by
    rintro rfl
    simp at reads
  have fewer := Multiset.card_erase_add_one reads
  simp only [TagOp.effect] at effect
  split at effect
  case isTrue counted =>
    obtain ⟨locked, positive⟩ := counted
    obtain ⟨rfl, rfl⟩ := effect
    obtain ⟨count, -⟩ := counts.count (by simp [locked])
    have less : (lock.rw - 1).val + 1 = lock.rw.val := by
      revert positive
      generalize lock.rw = rw
      revert rw
      decide
    have same : (lock.rw - 1).val = (held.erase p).card := by omega
    have none : lock.rw - 1 = 0 ↔ held.erase p = 0 := by
      rw [← Multiset.card_eq_zero, ← same]
      exact Fin.ext_iff
    refine ⟨⟨fun _ => ⟨same, ?_⟩, ?_⟩, ⟨_, rfl, by simp⟩, ?_⟩
    · split
      case isTrue zero => simp [none.mp zero]
      case isFalse left => simpa using fun zero => left (none.mpr zero)
    · have atMost := counts.atMost
      omega
    · intro zero
      simp [none.mpr zero]
  case isFalse uncounted =>
    obtain ⟨notBusy, rfl, rfl⟩ := effect
    obtain ⟨count, locked⟩ := counts.count notBusy
    refine absurd ⟨locked.mpr somebody, ?_⟩ uncounted
    intro zero
    rw [zero] at count
    exact somebody (Multiset.card_eq_zero.mp count.symm)

/-- What an operation of a process does to the readers. -/
structure CommitCounts (p : ι) (op : TagOp) (res : TagRes) (held : Multiset ι)
    (next : Lock) :
    Prop where
  counts : LockCounts (if TakesForReading (op, res) then p ::ₘ held
    else if op.IsRelease then held.erase p else held) next
  released : op.IsRelease → p ∈ held ∧
    (∃ count : Int, res = .released count ∧ 0 ≤ count) ∧
    (held.erase p = 0 → next.fe = .full)
  exclusive : op.IsExclusive → held = 0

theorem LockCounts.commit (counts : LockCounts held lock)
    (own : op.IsRelease → p ∈ held)
    (effect : op.effect lock next res) : CommitCounts p op res held next := by
  cases op with
  | write value =>
      obtain ⟨taking, takes, -⟩ := effect
      cases takes
  | readFE | faa | cas | writeEF =>
      refine ⟨counts.after_exclusive (by trivial) effect,
        fun release => release.elim, fun _ => ?_⟩
      obtain ⟨taking, takes, -⟩ := effect
      exact (counts.exclusive (by trivial) takes).1
  | readRW stack =>
      exact ⟨counts.after_read effect, fun release => release.elim,
        fun exclusive => exclusive.elim⟩
  | releaseRW =>
      obtain ⟨after, released, last⟩ :=
        counts.after_release (own trivial) effect
      exact ⟨after, fun _ => ⟨own trivial, released, last⟩,
        fun exclusive => exclusive.elim⟩

/-! ### Whole runs -/

variable {commits : List (TagCommit ι)}
  {state : AtomicObject.State ι Lock TagOp TagRes}

theorem TakesForReading.not_release {call : TagOp × TagRes}
    (takes : TakesForReading call) :
    ¬ call.1.IsRelease := by
  obtain ⟨op, res⟩ := call
  cases op with
  | readRW => exact id
  | _ => exact takes.elim

theorem ReadersInv.count (inv : ReadersInv commits state)
    (facts : CommitCounts p op res (readers commits) next) (q : ι) :
    (readers (commits ++ [⟨p, op, res⟩])).count q + givenBack q
    (commits ++ [⟨p, op, res⟩]) =
      taken q (commits ++ [⟨p, op, res⟩]) := by
  have before := inv.held q
  rw [readers_snoc]
  by_cases same : q = p
  · subst same
    simp only [givenBack, taken] at before ⊢
    simp only [commitsOf_same, List.countP_append, List.countP_singleton,
      decide_eq_true_eq]
    by_cases takes : TakesForReading (op, res)
    · rw [if_pos takes, if_pos takes, if_neg takes.not_release,
        Multiset.count_cons_self]
      omega
    · rw [if_neg takes, if_neg takes]
      by_cases release : op.IsRelease
      · have positive := Multiset.count_pos.mpr (facts.released release).1
        rw [if_pos release, if_pos release, Multiset.count_erase_self]
        omega
      · rw [if_neg release, if_neg release]
        omega
  · have other : (⟨p, op, res⟩ : TagCommit ι).process ≠ q := Ne.symm same
    simp only [givenBack, taken, commitsOf_other commits other] at before ⊢
    rw [← before]
    split
    · rw [Multiset.count_cons_of_ne same]
    · split
      · rw [Multiset.count_erase_of_ne same]
      · rfl

theorem ReadersInv.commit (inv : ReadersInv commits state)
    (pending : state.phase p = .pending op)
    (effect : op.effect state.object next res) :
    ReadersInv (commits ++ [⟨p, op, res⟩])
      ({ state with object := next }.setPhase p (.done op res)) := by
  have reads : op.IsRelease → p ∈ readers commits := by
    intro release
    have isRelease : op = .releaseRW := by
      cases op with
      | releaseRW => rfl
      | _ => exact release.elim
    have own := inv.own p (by rw [pending, isRelease])
    have held := inv.held p
    rw [← Multiset.count_pos]
    omega
  have facts := inv.counts.commit reads effect
  refine ⟨?_, inv.count facts, ?_, ?_, ?_, ?_⟩
  · rw [readers_snoc]
    exact facts.counts
  · intro q waits
    by_cases same : q = p
    · subst same
      rw [State.setPhase_same] at waits
      cases waits
    · rw [State.setPhase_other { state with object := next } same] at waits
      have other : (⟨p, op, res⟩ : TagCommit ι).process ≠ q := Ne.symm same
      simpa only [givenBack, taken,
        commitsOf_other commits other] using inv.own q waits
  · intro commit member count isRelease isReleased
    rcases List.mem_append.mp member with earlier | here
    · exact inv.released commit earlier count isRelease isReleased
    · obtain rfl := List.mem_singleton.mp here
      simp only at isRelease isReleased
      subst isRelease
      obtain ⟨-, ⟨released, same, positive⟩, -⟩ := facts.released trivial
      obtain rfl := TagRes.released.inj (same.symm.trans isReleased)
      exact positive
  · exact forall_split_snoc inv.exclusive facts.exclusive
  · intro earlier commit split release nobody
    obtain ⟨-, here⟩ := List.append_inj' split rfl
    obtain rfl : _ = commit := (List.cons.inj here).1
    have notTakes : ¬ TakesForReading (op, res) :=
      fun takes => takes.not_release release
    rw [readers_snoc, if_neg notTakes, if_pos release] at nobody
    exact (facts.released release).2.2 nobody

/-- A process that is to give the element back holds it. -/
theorem ReadersInv.call (inv : ReadersInv commits state)
    {events : List (ι × TagEvent)}
    {object : Lock} (records : Records TagOp.effect object events commits state)
    (op : TagOp)
    (idle : state.phase p = .idle)
    (own : ReleasesOwn ((events ++ [(p, Event.call op)]).filterMap seenEvent)) :
    ReadersInv commits (state.setPhase p (.pending op)) := by
  refine ⟨inv.counts, inv.held, ?_, inv.released, inv.exclusive, inv.last⟩
  intro q pending
  by_cases same : q = p
  · subst same
    rw [State.setPhase_same] at pending
    obtain rfl := Phase.pending.inj pending
    have fewer := own (events.filterMap seenEvent) q [] (by simp [seenEvent])
    rw [callsOf_seen, returnsOf_seen] at fewer
    have calls := records.calls q
    have returns := records.returns q
    simp only [idle, Phase.waiting, Phase.returning,
      List.append_nil] at calls returns
    rw [calls, ← returns, List.countP_map] at fewer
    exact fewer
  · rw [State.setPhase_other state same] at pending
    exact inv.own q pending

theorem ReadersInv.of_records {events : List (ι × TagEvent)} {object : Lock}
    (full : object = ⟨.full, 0⟩)
    (records : Records TagOp.effect object events commits state)
    (own : ReleasesOwn (events.filterMap seenEvent)) :
    ReadersInv commits state := by
  induction records with
  | nil =>
      refine ⟨⟨fun _ => ?_, by simp [readers]⟩, ?_,
        ?_, by simp, by simp, by simp⟩
      · simp [full, initial, readers]
      · intro p
        simp [readers, givenBack, taken, commitsOf]
      · intro p pending
        cases pending
  | @call events commits state p op before idle induction =>
      refine (induction ?_).call before op idle own
      have seen : (events ++ [(p, Event.call op)]).filterMap seenEvent =
          events.filterMap seenEvent ++ [(p, .call op)] := by
        simp [seenEvent]
      rw [seen] at own
      exact own.before
  | @commit events commits state p op next res before pending takesEffect
        induction =>
      refine ReadersInv.commit (induction ?_) pending takesEffect
      simpa [seenEvent, List.filterMap_cons] using own
  | @ret events commits state p op res before done induction =>
      have seen : (events ++ [(p, Event.ret op res)]).filterMap seenEvent =
          events.filterMap seenEvent ++ [(p, .ret op res)] := by
        simp [seenEvent]
      rw [seen] at own
      obtain ⟨counts, held, owns, released, exclusive, last⟩ :=
        induction own.before
      refine ⟨counts, held, ?_, released, exclusive, last⟩
      intro q pending
      by_cases same : q = p
      · subst same
        rw [State.setPhase_same] at pending
        cases pending
      · rw [State.setPhase_other state same] at pending
        exact owns q pending

end Readers

/-! ## The lock -/

section Machine

variable {ι : Type} [DecidableEq ι]

/-- What holds of the tag of an element after a run, where the calls of the
others take effect in the order `commits`. -/
structure ReadersWriter (writer : ι) (cell : Cell) (trace : List (ι × TagLabel))
    (buf : EmsBuf)
    (commits : List (TagCommit ι))
    (spec : AtomicObject.State ι Lock TagOp TagRes) : Prop where
  counted : (buf.tag cell).fe ≠ .busy →
    (buf.tag cell).rw.val = (readers commits).card ∧
      ((buf.tag cell).fe = .rwLock ↔ readers commits ≠ 0)
  atMost : (readers commits).card ≤ 7
  held : ∀ p, (readers commits).count p + givenBack p commits = taken p commits
  exclusive : ∀ earlier commit later, commits = earlier ++ commit :: later →
    commit.op.IsExclusive → readers earlier = 0
  released : ∀ p count,
    p ≠ writer → (p, .ret .releaseRW (.released count)) ∈ trace → 0 ≤ count
  last : ∀ earlier commit, commits = earlier ++ [commit] → commit.op.IsRelease →
    readers commits = 0 → spec.object.fe = .full

theorem Records.of_returned {writer p : ι} {op : TagOp} {res : TagRes}
    {object : Lock}
    {events : List (ι × TagEvent)} {commits : List (TagCommit ι)}
    {spec : AtomicObject.State ι Lock TagOp TagRes}
    {trace : List (ι × TagLabel)}
    (records : Records TagOp.effect object events commits spec)
    (seen : events.filterMap seenEvent = trace.filterMap (tagEvent writer))
    (other : p ≠ writer)
    (member : (p, .ret op res) ∈ trace) :
    ∃ commit ∈ commits, commit.op = op ∧ commit.res = res := by
  have inEvents : (p, Event.ret op res) ∈ events.filterMap seenEvent := by
    rw [seen]
    exact List.mem_filterMap.mpr ⟨_, member, by simp [tagEvent, other]⟩
  have returned : (op, res) ∈ returnsOf p events := by
    rw [← returnsOf_seen]
    refine List.mem_filterMap.mpr
      ⟨_, List.mem_filter.mpr ⟨inEvents, by simp⟩, rfl⟩
  have committed : (op, res) ∈ commitsOf p commits := by
    rw [records.returns p]
    exact List.mem_append_left _ returned
  obtain ⟨commit, inCommits, same⟩ := List.mem_map.mp committed
  obtain ⟨rfl, rfl⟩ := Prod.mk.inj same
  exact ⟨commit, (List.mem_filter.mp inCommits).1, rfl, rfl⟩

/-- An element that is free at first is a readers-writer lock.  Any number of
processes take it with `EMSreadRW` and with the operations that want it for
themselves, and give it back with `EMSreleaseRW` only if they have taken it; one
more process may call `EMSwrite` as long as nobody changes the tag between its
load and its store.  In every run the reader count is the number of readers, at
most seven; the element is in the state RW_LOCK exactly if there are readers; no
operation takes effect for itself while there are; no release fails, and the
last one leaves the element full. -/
theorem readers_writer_lock [CRuntime] {writer : ι} {n idx : Int} {buf : EmsBuf}
    (inside : 0 ≤ idx) (below : idx < n)
    (free : lockOf (buf.tag (EMSdataCell idx)) = ⟨.full, 0⟩)
    {trace : List (ι × TagLabel)}
    {final : (tagMachine writer false n idx).State}
    (run : Run (tagMachine writer false n idx).Step
      ((tagMachine writer false n idx).start buf)
      trace final)
    (unraced : Unraced writer (EMSdataCell idx) trace)
    (own : ReleasesOwn (trace.filterMap (tagEvent writer))) :
    ∃ events commits spec, Records TagOp.effect ⟨.full, 0⟩ events commits spec ∧
      events.filterMap seenEvent = trace.filterMap (tagEvent writer) ∧
      ReadersWriter writer (EMSdataCell idx) trace final.shared
        commits spec := by
  have careful := (unraced.run inside below run).1
  let ghost : TagGhost ι :=
    ⟨none, AtomicObject.initial (lockOf (buf.tag (EMSdataCell idx)))⟩
  have initially : TagInv writer (EMSdataCell idx) (ghost, buf) := rfl
  have idle : ∀ p, TagIdle p (ghost, buf) := fun p => ⟨rfl, by simp [ghost]⟩
  obtain ⟨ghost', protocolRun, inv, -⟩ :=
    (tagImplements writer n idx inside below).run ghost initially idle
      (Machine.lenient_run careful)
  obtain ⟨events, specRun, seen⟩ := tag_simulates initially protocolRun
  obtain ⟨commits, records⟩ := Records.of_run specRun
  rw [free] at records
  have holds : ReadersInv commits ghost'.spec :=
    ReadersInv.of_records rfl records (by rwa [seen])
  refine ⟨events, commits, _, records, seen, ?_,
    holds.counts.atMost, holds.held,
    holds.exclusive, ?_, holds.last⟩
  · intro notBusy
    have atRest : TagInv writer (EMSdataCell idx) (ghost', final.shared) := inv
    obtain ⟨-, object⟩ := atRest.free notBusy
    have counted := holds.counts.count
    rw [← object] at counted
    exact counted notBusy
  · intro p count other member
    obtain ⟨commit, inCommits, isRelease, isReleased⟩ :=
      Records.of_returned records seen other member
    exact holds.released commit inCommits count isRelease isReleased

end Machine

/-! ## A run with two readers -/

/-- Whether a call to give the element back comes after one that has taken
it. -/
def ownRelease (events : List (Fin 3 × TagEvent)) (k : Nat) : Bool :=
  match events[k]? with
  | some (p, .call op) => !decide op.IsRelease ||
      decide ((callsOf p (events.take k)).countP (·.IsRelease) <
        (returnsOf p (events.take k)).countP TakesForReading)
  | _ => true

private theorem releasesOwn_of_all {events : List (Fin 3 × TagEvent)}
    (all : (List.range events.length).all (ownRelease events) = true) :
    ReleasesOwn events := by
  intro earlier p later split
  have here : ownRelease events earlier.length = true := by
    refine List.all_eq_true.mp all _ (List.mem_range.mpr ?_)
    simp [split]
  have isRelease : TagOp.releaseRW.IsRelease := trivial
  simpa [ownRelease, split, isRelease] using here

/-- Two processes take the element for reading, the third one writes to it, and
the first one gives the element back. -/
def readersSchedule : List (Fin 3 × Choice TagOp) :=
  [(0, .call (.readRW ⟨.full, .invalid, 0⟩) 1)] ++ List.replicate 5 (0, .go) ++
    [(1, .call (.readRW ⟨.full, .invalid, 0⟩) 1)] ++
      List.replicate 5 (1, .go) ++
    [(2, .call (.write (scalar .integer 9)) 1)] ++ List.replicate 4 (2, .go) ++
    [(0, .call .releaseRW 1)] ++ List.replicate 3 (0, .go)

theorem readers_writer_lock_two :
    letI := ieeeRuntime
    ∃ (trace : List (Fin 3 × TagLabel)) (buf : EmsBuf),
      buf.tag (EMSdataCell 0) = ⟨.rwLock, .integer, 1⟩ ∧
        buf.word (EMSdataCell 0) = 9 ∧
      ∃ events commits spec,
        Records TagOp.effect ⟨.full, 0⟩ events commits spec ∧
        events.filterMap seenEvent = trace.filterMap (tagEvent 2) ∧
        ReadersWriter 2 (EMSdataCell 0) trace buf commits spec := by
  let _ : CRuntime := ieeeRuntime
  let machine := tagMachine (2 : Fin 3) false 1 0
  obtain ⟨trace, final, run, checked⟩ := machine.exists_run
    (machine.start (uniformBuf ⟨.full, .integer, 0⟩ 5)) readersSchedule
    (fun played =>
        decide (played.2.shared.tag (EMSdataCell 0) = ⟨.rwLock, .integer, 1⟩ ∧
        played.2.shared.word (EMSdataCell 0) = 9 ∧
          Unraced 2 (EMSdataCell 0) played.1) &&
      (List.range (played.1.filterMap (tagEvent 2)).length).all
        (ownRelease (played.1.filterMap (tagEvent 2)))) (by decide +kernel)
  obtain ⟨reached, own⟩ := (Bool.and_eq_true _ _).mp checked
  obtain ⟨tag, word, unraced⟩ := of_decide_eq_true reached
  exact ⟨trace, final.shared, tag, word,
    readers_writer_lock (by decide) (by decide) rfl run
    unraced (releasesOwn_of_all own)⟩

end EMS
