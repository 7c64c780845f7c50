import EMS.AtomicObject

/-!
# The order in which calls take effect

The operations on an atomic object commit one after the other.  A run of the
object is told here together with the list of what has committed.  The list is
a run of the object without any processes, and every process finds in it its
own calls and returns, in the order in which it made them.
-/

namespace AtomicObject

open Interleaving

variable {ι A Op Res : Type}

/-- An operation that has taken effect, with the process that called it and its
result. -/
structure Commit (ι Op Res : Type) where
  process : ι
  op : Op
  res : Res

def Event.called : Event Op Res → Option Op
  | .call op => some op
  | .commit | .ret _ _ => none

def Event.returned : Event Op Res → Option (Op × Res)
  | .call _ | .commit => none
  | .ret op res => some (op, res)

/-- The operation that waits to take effect. -/
def Phase.waiting : Phase Op Res → List Op
  | .pending op => [op]
  | .idle | .done _ _ => []

/-- What has taken effect and is to be returned. -/
def Phase.returning : Phase Op Res → List (Op × Res)
  | .done op res => [(op, res)]
  | .idle | .pending _ => []

variable [DecidableEq ι]

/-- The operations that a process calls. -/
def callsOf (p : ι) (events : List (ι × Event Op Res)) : List Op :=
  (events.filter (·.1 = p)).filterMap (·.2.called)

/-- What the calls of a process return. -/
def returnsOf (p : ι) (events : List (ι × Event Op Res)) : List (Op × Res) :=
  (events.filter (·.1 = p)).filterMap (·.2.returned)

/-- What has taken effect for a process. -/
def commitsOf (p : ι) (commits : List (Commit ι Op Res)) : List (Op × Res) :=
  (commits.filter (·.process = p)).map fun commit => (commit.op, commit.res)

/-- What is said of every commit and those before it, when one is added. -/
theorem forall_split_snoc {α : Type} {items : List α} {last : α}
    {holds : List α → α → Prop}
    (before : ∀ earlier item later, items = earlier ++ item :: later →
      holds earlier item)
    (here : holds items last) :
    ∀ earlier item later, items ++ [last] = earlier ++ item :: later →
      holds earlier item := by
  intro earlier item later split
  rcases List.append_eq_append_iff.mp split with ⟨more, rfl, final⟩ |
    ⟨more, rfl, rest⟩
  · cases more with
    | nil =>
        obtain ⟨rfl, -⟩ := List.cons.inj final
        simpa using here
    | cons other more => simp at final
  · cases more with
    | nil =>
        obtain ⟨rfl, -⟩ := List.cons.inj rest
        simpa using here
    | cons other more =>
        obtain ⟨rfl, -⟩ := List.cons.inj rest
        exact before earlier item more rfl

theorem commitsOf_same (commits : List (Commit ι Op Res)) (p : ι) (op : Op)
    (res : Res) :
    commitsOf p (commits ++ [⟨p, op, res⟩]) =
      commitsOf p commits ++ [(op, res)] := by
  simp [commitsOf]

theorem commitsOf_other (commits : List (Commit ι Op Res)) {p : ι}
    {commit : Commit ι Op Res}
    (different : commit.process ≠ p) :
    commitsOf p (commits ++ [commit]) = commitsOf p commits := by
  simp [commitsOf, different]

/-- A run of the object, with the operations in the order in which they take
effect. -/
inductive Records (effect : Op → A → A → Res → Prop) (object : A) :
    List (ι × Event Op Res) → List (Commit ι Op Res) →
      State ι A Op Res → Prop where
  | nil : Records effect object [] [] (initial object)
  | call {events : List (ι × Event Op Res)} {commits : List (Commit ι Op Res)}
      {state : State ι A Op Res} {p : ι} (op : Op) :
      Records effect object events commits state → state.phase p = .idle →
      Records effect object (events ++ [(p, .call op)]) commits
        (state.setPhase p (.pending op))
  | commit {events : List (ι × Event Op Res)} {commits : List (Commit ι Op Res)}
      {state : State ι A Op Res} {p : ι} {op : Op} {next : A} {res : Res} :
      Records effect object events commits state → state.phase p = .pending op →
      effect op state.object next res →
      Records effect object (events ++ [(p, .commit)])
        (commits ++ [⟨p, op, res⟩])
        ({ state with object := next }.setPhase p (.done op res))
  | ret {events : List (ι × Event Op Res)} {commits : List (Commit ι Op Res)}
      {state : State ι A Op Res} {p : ι} {op : Op} {res : Res} :
      Records effect object events commits state →
        state.phase p = .done op res →
      Records effect object (events ++ [(p, .ret op res)]) commits
        (state.setPhase p .idle)

section Runs

variable {effect : Op → A → A → Res → Prop} {object : A}
  {events : List (ι × Event Op Res)}
  {commits : List (Commit ι Op Res)} {state : State ι A Op Res}

theorem Records.of_run (run : Run (Step effect) (initial object) events state) :
    ∃ commits, Records effect object events commits state := by
  induction run with
  | nil => exact ⟨[], .nil⟩
  | snoc _ step induction =>
      obtain ⟨commits, records⟩ := induction
      cases step with
      | call op idle => exact ⟨_, records.call op idle⟩
      | commit pending takesEffect =>
          exact ⟨_, records.commit pending takesEffect⟩
      | ret done => exact ⟨_, records.ret done⟩

theorem Records.run (records : Records effect object events commits state) :
    Run (Step effect) (initial object) events state := by
  induction records with
  | nil => exact .nil
  | call op _ idle induction => exact induction.snoc (.call op idle)
  | commit _ pending takesEffect induction =>
      exact induction.snoc (.commit pending takesEffect)
  | ret _ done induction => exact induction.snoc (.ret done)

theorem Records.sequential
    (records : Records effect object events commits state) :
    Run (fun before (commit : Commit ι Op Res) after =>
      effect commit.op before after commit.res)
      object commits state.object := by
  induction records with
  | nil => exact .nil
  | call op _ idle induction => exact induction
  | commit _ pending takesEffect induction => exact induction.snoc takesEffect
  | ret _ done induction => exact induction

/-- A process has called what has taken effect for it, and what waits to. -/
theorem Records.calls
    (records : Records effect object events commits state) (p : ι) :
    callsOf p events = (commitsOf p commits).map Prod.fst ++
      (state.phase p).waiting := by
  induction records with
  | nil => rfl
  | @call events commits state q op _ idle induction =>
      by_cases same : q = p
      · subst same
        simp only [idle, Phase.waiting, List.append_nil] at induction
        simp [callsOf, ← induction, Event.called, Phase.waiting]
      · have other := State.setPhase_other state (Ne.symm same) (.pending op)
        simpa [callsOf, same, other] using induction
  | @commit events commits state q op next res _ pending takesEffect
        induction =>
      by_cases same : q = p
      · subst same
        simp only [pending, Phase.waiting] at induction
        simpa [callsOf, commitsOf, Event.called, Phase.waiting] using induction
      · have other :=
          State.setPhase_other { state with object := next } (Ne.symm same)
          (.done op res)
        simpa [callsOf, commitsOf, same, other] using induction
  | @ret events commits state q op res _ done induction =>
      by_cases same : q = p
      · subst same
        simp only [done, Phase.waiting, List.append_nil] at induction
        simpa [callsOf, Event.called, Phase.waiting] using induction
      · have other := State.setPhase_other state (Ne.symm same) .idle
        simpa [callsOf, same, other] using induction

/-- A process is returned what has taken effect for it. -/
theorem Records.returns
    (records : Records effect object events commits state) (p : ι) :
    commitsOf p commits = returnsOf p events ++ (state.phase p).returning := by
  induction records with
  | nil => rfl
  | @call events commits state q op _ idle induction =>
      by_cases same : q = p
      · subst same
        simp only [idle, Phase.returning, List.append_nil] at induction
        simpa [returnsOf, Event.returned, Phase.returning] using induction
      · have other := State.setPhase_other state (Ne.symm same) (.pending op)
        simpa [returnsOf, same, other] using induction
  | @commit events commits state q op next res _ pending takesEffect
        induction =>
      by_cases same : q = p
      · subst same
        simp only [pending, Phase.returning, List.append_nil] at induction
        simpa [returnsOf, commitsOf, Event.returned,
          Phase.returning] using induction
      · have other :=
          State.setPhase_other { state with object := next } (Ne.symm same)
          (.done op res)
        simpa [returnsOf, commitsOf, same, other] using induction
  | @ret events commits state q op res _ done induction =>
      by_cases same : q = p
      · subst same
        simp only [done, Phase.returning] at induction
        simpa [returnsOf, Event.returned, Phase.returning] using induction
      · have other := State.setPhase_other state (Ne.symm same) .idle
        simpa [returnsOf, same, other] using induction

/-- The operations that wait to take effect, with the processes that wait. -/
structure Outstanding (state : State ι A Op Res)
    (waiting : List (ι × Op)) : Prop where
  mem_iff : ∀ p op, (p, op) ∈ waiting ↔ state.phase p = .pending op
  nodup : (waiting.map Prod.fst).Nodup

/-- What has been called has taken effect or waits to. -/
theorem Records.all_calls
    (records : Records effect object events commits state) :
    ∃ waiting, Outstanding state waiting ∧
      (events.filterMap (·.2.called)).Perm
        (commits.map Commit.op ++ waiting.map Prod.snd) := by
  induction records with
  | nil =>
      refine ⟨[], ⟨?_, .nil⟩, .refl _⟩
      intro p op
      simp [initial]
  | @call events commits state p op _ idle induction =>
      obtain ⟨waiting, ⟨known, nodup⟩, same⟩ := induction
      have fresh : ∀ other, (p, other) ∉ waiting := by
        intro other member
        rw [known, idle] at member
        cases member
      refine ⟨waiting ++ [(p, op)], ⟨?_, ?_⟩, ?_⟩
      · intro q other
        by_cases here : q = p
        · subst here
          simp [fresh, eq_comm]
        · simp [State.setPhase_other state here, known, here]
      · rw [List.map_append, List.nodup_append]
        refine ⟨nodup, by simp, ?_⟩
        intro q member q' member' equal
        obtain ⟨entry, inWaiting, rfl⟩ := List.mem_map.mp member
        obtain rfl : q' = p := by simpa using member'
        exact fresh entry.2 (equal ▸ inWaiting)
      · simpa [Event.called] using same.append_right [op]
  | @commit events commits state p op next res _ pending takesEffect
        induction =>
      obtain ⟨waiting, ⟨known, nodup⟩, same⟩ := induction
      obtain ⟨earlier, later, rfl⟩ :=
        List.append_of_mem ((known p op).mpr pending)
      have distinct := (List.perm_middle.map Prod.fst).nodup_iff.mp nodup
      rw [List.map_cons, List.nodup_cons] at distinct
      refine ⟨earlier ++ later, ⟨?_, distinct.2⟩, ?_⟩
      · intro q other
        by_cases here : q = p
        · subst here
          rw [State.setPhase_same]
          constructor
          · intro member
            exact absurd (List.mem_map_of_mem member) distinct.1
          · intro waits
            cases waits
        · rw [State.setPhase_other { state with object := next } here]
          simpa [here] using known q other
      · have moved : (commits.map Commit.op ++
            (earlier ++ (p, op) :: later).map Prod.snd).Perm
            ((commits ++ [(⟨p, op, res⟩ : Commit ι Op Res)]).map Commit.op ++
              (earlier ++ later).map Prod.snd) := by
          simpa using List.perm_middle.append_left (commits.map Commit.op)
        simpa [Event.called] using same.trans moved
  | @ret events commits state p op res _ done induction =>
      obtain ⟨waiting, ⟨known, nodup⟩, same⟩ := induction
      refine ⟨waiting, ⟨?_, nodup⟩, by simpa [Event.called] using same⟩
      intro q other
      by_cases here : q = p
      · subst here
        simp [known, done]
      · rw [State.setPhase_other state here]
        exact known q other

theorem Records.called (records : Records effect object events commits state)
    {commit : Commit ι Op Res} (member : commit ∈ commits) :
    commit.op ∈ events.filterMap (·.2.called) := by
  obtain ⟨waiting, -, same⟩ := records.all_calls
  exact same.mem_iff.mpr (List.mem_append_left _ (List.mem_map_of_mem member))

theorem Records.calls_of_idle
    (records : Records effect object events commits state)
    (finished : ∀ p, state.phase p = .idle) :
    (events.filterMap (·.2.called)).Perm (commits.map Commit.op) := by
  obtain ⟨waiting, outstanding, same⟩ := records.all_calls
  have nothing : waiting = [] := by
    apply List.eq_nil_iff_forall_not_mem.mpr
    intro entry member
    have pending := (outstanding.mem_iff entry.1 entry.2).mp member
    rw [finished] at pending
    cases pending
  simpa [nothing] using same

end Runs

end AtomicObject
