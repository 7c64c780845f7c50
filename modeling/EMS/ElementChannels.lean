import Mathlib.Algebra.BigOperators.Group.List.Basic
import EMS.AtomicHistory
import EMS.ScalarAtomicity

/-!
# Elements as channels, as counters and in elections

Since the scalar operations are atomic, what any number of processes do with
one element can be told as a list.  An element that is only written with
`EMSwriteEF` and read with `EMSreadFE` is a channel with one place.  One that
is only used with `EMSfaa` is a counter that loses no update.  One for which
processes compete with `EMScas` goes to one of them.
-/

namespace EMS

open SharedProgram Interleaving AtomicObject

/-! ## One element of many -/

abbrev ScalarCommit (ι : Type) := Commit ι ScalarOp ScalarRes

/-- What has taken effect on one element. -/
def onElement {ι : Type} (idx : Int) (commits : List (ScalarCommit ι)) :
    List (ScalarCommit ι) :=
  commits.filter (·.op.idx = idx)

theorem onElement_ops {ι : Type} (idx : Int) (commits : List (ScalarCommit ι)) :
    (commits.map Commit.op).filter
    (·.idx = idx) = (onElement idx commits).map Commit.op := by
  simp [onElement, List.filter_map, Function.comp_def]

/-- The calls for one element. -/
def calledOn {ι : Type} (idx : Int) (trace : List (ι × ScalarLabel)) :
    List ScalarOp :=
  ((trace.filterMap scalarEvent).filterMap (·.2.called)).filter (·.idx = idx)

section Elements

variable {ι : Type} [CRuntime]

/-- One operation on an element that nobody else uses. -/
def ElementStep (before : Element) (commit : ScalarCommit ι)
    (after : Element) : Prop :=
  commit.op.apply before = some (after, commit.res)

private theorem run_onElement {elements final : Int → Element}
    {commits : List (ScalarCommit ι)}
    (run : Run (fun before (commit : ScalarCommit ι) after =>
      commit.op.effect before after commit.res) elements commits final)
        (idx : Int) :
    Run ElementStep (elements idx) (onElement idx commits) (final idx) := by
  induction run with
  | nil => exact .nil
  | @snoc commits before after commit _ step induction =>
      obtain ⟨element, applies, rfl⟩ := step
      by_cases here : commit.op.idx = idx
      · subst here
        rw [Function.update_self]
        have steps : ElementStep (before commit.op.idx) commit element :=
          applies
        simpa [onElement] using induction.snoc steps
      · rw [Function.update_of_ne (Ne.symm here)]
        simpa [onElement, here] using induction

variable [DecidableEq ι] {n : Int}

/-- The calls of a run take effect in the order `commits`, and leave the
elements as `state` says. -/
structure ScalarRecorded (buf : EmsBuf) (trace : List (ι × ScalarLabel))
    (config : (scalarMachine ι n).State) (commits : List (ScalarCommit ι))
    (state : ScalarState ι) : Prop where
  records : Records ScalarOp.effect buf.elements (trace.filterMap scalarEvent)
    commits state
  idle : ∀ p, config.control p = .idle → state.phase p = .idle
  settled : ∀ idx, 0 ≤ idx → idx < n →
    (config.shared.tag (EMSdataCell idx)).fe ≠ .busy →
    config.shared.elements idx = state.object idx

theorem scalar_recorded {buf : EmsBuf}
    (elements : ∀ idx, 0 ≤ idx → idx < n →
      (buf.tag (EMSdataCell idx)).fe ≠ .busy ∧
      IsScalar (buf.tag (EMSdataCell idx)).type)
    {trace : List (ι × ScalarLabel)} {config : (scalarMachine ι n).State}
    (run : Run (scalarMachine ι n).Step
      ((scalarMachine ι n).start buf) trace config) :
    ∃ commits state, ScalarRecorded buf trace config commits state := by
  let ghost : ScalarGhost ι :=
    ⟨fun _ => none, AtomicObject.initial buf.elements⟩
  have initially : ScalarInv n (ghost, buf) := by
    intro idx inside below
    exact ⟨(elements idx inside below).1, (elements idx inside below).2, rfl⟩
  obtain ⟨ghost', abstractRun, inv, everybody⟩ :=
    (scalarImplements (ι := ι) (n := n)).run ghost initially (fun _ => rfl) run
  obtain ⟨state, specRun, rfl⟩ := scalar_simulates initially abstractRun
  obtain ⟨commits, records⟩ := Records.of_run specRun
  refine ⟨commits, _, records, ?_, ?_⟩
  · intro p idle
    have here := everybody p
    rw [idle] at here
    exact here
  · intro idx inside below free
    have here := inv idx inside below
    cases owner : ghost'.owner idx with
    | none =>
        simp only [owner] at here
        exact here.2.2.symm
    | some q =>
        simp only [owner] at here
        exact absurd here free

variable {buf : EmsBuf} {trace : List (ι × ScalarLabel)}
  {config : (scalarMachine ι n).State}
  {commits : List (ScalarCommit ι)} {state : ScalarState ι}

theorem ScalarRecorded.onElement
    (recorded : ScalarRecorded buf trace config commits state)
    (idx : Int) :
    Run ElementStep (buf.elements idx) (onElement idx commits)
      (state.object idx) :=
  run_onElement recorded.records.sequential idx

theorem ScalarRecorded.calls
    (recorded : ScalarRecorded buf trace config commits state)
    (idx : Int) : ∃ waiting,
      (calledOn idx trace).Perm
        ((EMS.onElement idx commits).map Commit.op ++ waiting) := by
  obtain ⟨waiting, -, same⟩ := recorded.records.all_calls
  refine ⟨(waiting.map Prod.snd).filter (·.idx = idx), ?_⟩
  rw [← onElement_ops, ← List.filter_append]
  exact same.filter _

theorem ScalarRecorded.calls_of_idle
    (recorded : ScalarRecorded buf trace config commits state)
    (finished : ∀ p, config.control p = .idle) (idx : Int) :
    (calledOn idx trace).Perm ((EMS.onElement idx commits).map Commit.op) := by
  rw [← onElement_ops]
  exact (recorded.records.calls_of_idle fun p =>
    recorded.idle p (finished p)).filter _

theorem ScalarRecorded.called
    (recorded : ScalarRecorded buf trace config commits state)
    {idx : Int} {commit : ScalarCommit ι}
    (member : commit ∈ EMS.onElement idx commits) :
    commit.op ∈ calledOn idx trace := by
  obtain ⟨inCommits, here⟩ := List.mem_filter.mp member
  exact List.mem_filter.mpr ⟨recorded.records.called inCommits, here⟩

end Elements

/-! ## Channels -/

section Channels

variable {ι : Type}

/-- The operations on a channel. -/
def ScalarOp.OnChannel : ScalarOp → Prop
  | .writeEF _ _ | .readFE _ _ => True
  | _ => False

instance : (op : ScalarOp) → Decidable op.OnChannel
  | .writeEF _ _ | .readFE _ _ => isTrue trivial
  | .readFF _ _ | .writeXF _ _ | .writeXE _ _ | .faa _ _ | .cas _ _ _ =>
      isFalse id

/-- The value that an operation puts in a channel, as it is read. -/
def ScalarOp.sent : ScalarOp → Option EMSvalueType
  | .writeEF _ value => some (Element.holding .full value).read
  | _ => none

/-- The value that an operation takes out of a channel. -/
def received (commit : ScalarCommit ι) : Option EMSvalueType :=
  match commit.op, commit.res with
  | .readFE _ _, .ok value => value
  | _, _ => none

/-- What is in the channel. -/
def Element.content (element : Element) : List EMSvalueType :=
  if element.fe = .full then [element.read] else []

/-- Writes and reads take turns, beginning with a write, and the values come out
as they were put in. -/
structure InTurn (commits : List (ScalarCommit ι))
    (element : Element) : Prop where
  turns : ∀ k commit, commits[k]? = some commit →
    (commit.op.sent.isSome ↔ k % 2 = 0)
  state : element.fe = if commits.length % 2 = 0 then .empty else .full
  delivered : commits.filterMap (·.op.sent) =
    commits.filterMap received ++ element.content

theorem InTurn.of_run [CRuntime] {commits : List (ScalarCommit ι)}
    {start final : Element}
    (empty : start.fe = .empty)
    (channel : ∀ commit ∈ commits, commit.op.OnChannel)
    (run : Run ElementStep start commits final) : InTurn commits final := by
  induction run with
  | nil =>
      exact ⟨by simp, by simpa using empty, by simp [Element.content, empty]⟩
  | @snoc commits before after commit _ step induction =>
      obtain ⟨turns, fe, delivered⟩ := induction fun commit member =>
        channel commit (List.mem_append_left _ member)
      have onChannel := channel commit (by simp)
      have turn : (commit.op.sent.isSome ↔ commits.length % 2 = 0) →
          ∀ k other, (commits ++ [commit])[k]? = some other →
            (other.op.sent.isSome ↔ k % 2 = 0) := by
        intro last k other found
        rw [List.getElem?_append] at found
        split at found
        · exact turns k other found
        · have here : k = commits.length := by
            have inside := (List.getElem?_eq_some_iff.mp found).1
            simp only [List.length_singleton] at inside
            omega
          subst here
          obtain rfl : commit = other := by simpa using found
          exact last
      obtain ⟨p, op, res⟩ := commit
      unfold ElementStep at step
      cases op with
      | writeEF idx value =>
          simp only [ScalarOp.apply, Option.ite_none_right_eq_some,
            Option.some.injEq,
            Prod.mk.injEq] at step
          obtain ⟨isEmpty, rfl, rfl⟩ := step
          have even : commits.length % 2 = 0 := by
            by_contra odd
            rw [isEmpty, if_neg odd] at fe
            cases fe
          refine ⟨turn (by simp [ScalarOp.sent, even]), ?_, ?_⟩
          · have odd : (commits.length + 1) % 2 ≠ 0 := by omega
            simp [odd, Element.holding]
          · have nothing : before.content = [] := by
              simp [Element.content, isEmpty]
            have put : (ScalarOp.writeEF idx value).sent =
                some (Element.holding .full value).read := rfl
            have taken : received
              (⟨p, .writeEF idx value, .ok none⟩ : ScalarCommit ι) = none := rfl
            have inside : (Element.holding .full value).content =
                [(Element.holding .full value).read] := if_pos rfl
            simp [delivered, nothing, put, taken, inside]
      | readFE stack idx =>
          simp only [ScalarOp.apply, Option.ite_none_right_eq_some,
            Option.some.injEq,
            Prod.mk.injEq] at step
          obtain ⟨isFull, rfl, rfl⟩ := step
          have odd : commits.length % 2 ≠ 0 := by
            intro even
            rw [isFull, if_pos even] at fe
            cases fe
          refine ⟨turn (by simp [ScalarOp.sent, odd]), ?_, ?_⟩
          · have even : (commits.length + 1) % 2 = 0 := by omega
            simp [even]
          · have inside : before.content = [before.read] := if_pos isFull
            have nothing : { before with fe := FE.empty }.content = [] := rfl
            have put : (ScalarOp.readFE stack idx).sent = none := rfl
            have taken : received
                (⟨p, .readFE stack idx, .ok (some before.read)⟩ :
                  ScalarCommit ι) =
                some before.read := rfl
            simp [delivered, inside, nothing, put, taken]
      | readFF | writeXF | writeXE | faa | cas => exact onChannel.elim

variable [DecidableEq ι] [CRuntime] {n : Int}

/-- An element is a channel with one place: the calls of every process take
effect between their calls and returns in an order in which writes and reads
take turns and every value comes out once, in the order in which it was put
in. -/
theorem one_place_channel {buf : EmsBuf}
    (elements : ∀ idx, 0 ≤ idx → idx < n →
      (buf.tag (EMSdataCell idx)).fe ≠ .busy ∧
      IsScalar (buf.tag (EMSdataCell idx)).type)
    {idx : Int} (empty : (buf.tag (EMSdataCell idx)).fe = .empty)
    {trace : List (ι × ScalarLabel)} {config : (scalarMachine ι n).State}
    (run : Run (scalarMachine ι n).Step
      ((scalarMachine ι n).start buf) trace config)
    (channel : ∀ op ∈ calledOn idx trace, op.OnChannel) :
    ∃ commits state, ScalarRecorded buf trace config commits state ∧
      InTurn (onElement idx commits) (state.object idx) := by
  obtain ⟨commits, state, recorded⟩ := scalar_recorded elements run
  refine ⟨commits, state, recorded,
    InTurn.of_run empty ?_ (recorded.onElement idx)⟩
  exact fun commit member => channel commit.op (recorded.called member)

end Channels

/-- A read waits for a write of another process. -/
def channelSchedule : List (Fin 2 × Choice ScalarOp) :=
  [(0, .call (.readFE ⟨.full, .invalid, 0⟩ 0) 2), (0, .go),
    (1, .call (.writeEF 0 (scalar .integer 7)) 1)] ++
    List.replicate 7 (1, .go) ++ List.replicate 5 (0, .go)

theorem one_place_channel_waiting :
    letI := ieeeRuntime
    ∃ (trace : List (Fin 2 × ScalarLabel))
        (config : (scalarMachine (Fin 2) 1).State),
      hasRead 0 (scalar .integer 7) trace = true ∧
      ∃ commits state,
        ScalarRecorded (uniformBuf ⟨.empty, .integer, 0⟩ 0) trace config
          commits state ∧
        InTurn (onElement 0 commits) (state.object 0) := by
  let _ : CRuntime := ieeeRuntime
  obtain ⟨trace, config, run, checked⟩ := (scalarMachine (Fin 2) 1).exists_run
    ((scalarMachine (Fin 2) 1).start (uniformBuf ⟨.empty, .integer, 0⟩ 0))
      channelSchedule
    (fun played => hasRead 0 (scalar .integer 7) played.1 &&
      (calledOn 0 played.1).all (·.OnChannel)) (by decide +kernel)
  obtain ⟨read, onlyChannel⟩ := (Bool.and_eq_true _ _).mp checked
  refine ⟨trace, config, read, one_place_channel ?_ rfl run ?_⟩
  · exact fun _ _ _ => ⟨by simp [uniformBuf], .inr (.inl rfl)⟩
  · simpa using onlyChannel

/-! ## Counters -/

section Counters

variable {ι : Type}

/-- The integer that a fetch-and-add adds. -/
def ScalarOp.amount : ScalarOp → Int
  | .faa _ value => value.value
  | _ => 0

/-- The operation adds an integer. -/
def ScalarOp.Counts : ScalarOp → Prop
  | .faa _ value => value.type = .integer
  | _ => False

instance : (op : ScalarOp) → Decidable op.Counts
  | .faa _ value => inferInstanceAs (Decidable (value.type = .integer))
  | .writeEF _ _ | .readFE _ _ | .readFF _ _ | .writeXF _ _ | .writeXE _ _ |
        .cas _ _ _ =>
      isFalse id

def counted (ops : List ScalarOp) : Int := (ops.map ScalarOp.amount).sum

/-- The integers that are added, without their signs. -/
def effort (ops : List ScalarOp) : Nat :=
  (ops.map fun op => op.amount.natAbs).sum

/-- Each call is returned what the ones before it have counted. -/
structure CountedUp (first : Int) (commits : List (ScalarCommit ι))
    (element : Element) : Prop where
  returned : ∀ earlier commit later, commits = earlier ++ commit :: later →
    commit.res = .ok (some
      (scalar .integer (first + counted (earlier.map Commit.op))))
  element : element = ⟨.full, .integer, first + counted (commits.map Commit.op)⟩

private theorem natAbs_counted_le (ops : List ScalarOp) :
    (counted ops).natAbs ≤ effort ops := by
  induction ops with
  | nil => rfl
  | cons op ops induction =>
      simp only [counted, effort, List.map_cons, List.sum_cons] at induction ⊢
      omega

theorem CountedUp.of_run [CRuntime] {commits : List (ScalarCommit ι)}
    {start final : Element}
    {first : Int} (integer : start = ⟨.full, .integer, first⟩)
    (counts : ∀ commit ∈ commits, commit.op.Counts)
    (small : first.natAbs + effort (commits.map Commit.op) < 2 ^ 30)
    (run : Run ElementStep start commits final) :
    CountedUp first commits final := by
  induction run with
  | nil => exact ⟨by simp, by simp [integer, counted]⟩
  | @snoc commits before after commit _ step induction =>
      have bounded : first.natAbs + effort (commits.map Commit.op) +
          commit.op.amount.natAbs < 2 ^ 30 := by
        simpa [effort, Nat.add_assoc] using small
      obtain ⟨returned, rfl⟩ := induction
        (fun commit member => counts commit (List.mem_append_left _ member))
          (by omega)
      have isCount := counts commit (by simp)
      obtain ⟨p, op, res⟩ := commit
      cases op with
      | faa idx value =>
          have type : value.type = .integer := isCount
          have within := natAbs_counted_le (commits.map Commit.op)
          simp only [ScalarOp.amount] at bounded
          have exactly : toInt64
              (first + counted (commits.map Commit.op) + value.value) =
              first + counted (commits.map Commit.op) + value.value := by
            apply Int.bmod_eq_of_le <;> omega
          have below : ¬ (2 : Int) ^ 30 ≤
              first + counted (commits.map Commit.op) + value.value := by omega
          simp only [ElementStep, ScalarOp.apply, if_true, scalarSum, type,
            exactly, below,
            if_false, Option.some.injEq, Prod.mk.injEq] at step
          obtain ⟨rfl, rfl⟩ := step
          refine ⟨?_, ?_⟩
          · exact forall_split_snoc returned (by simp [Element.faaOld])
          · simp [counted, ScalarOp.amount, Int.add_assoc]
      | readFE | readFF | writeEF | writeXF | writeXE | cas =>
          exact isCount.elim

variable [DecidableEq ι] [CRuntime] {n : Int}

/-- An element that holds an integer is a counter: the calls of every process
take effect between their calls and returns in an order in which each is
returned what the ones before it have added, and once all calls have returned
the element holds what all of them have added. -/
theorem shared_counter {buf : EmsBuf}
    (elements : ∀ idx, 0 ≤ idx → idx < n →
      (buf.tag (EMSdataCell idx)).fe ≠ .busy ∧
      IsScalar (buf.tag (EMSdataCell idx)).type)
    {idx first : Int} (inside : 0 ≤ idx) (below : idx < n)
    (integer : buf.elements idx = ⟨.full, .integer, first⟩)
    {trace : List (ι × ScalarLabel)} {config : (scalarMachine ι n).State}
    (run : Run (scalarMachine ι n).Step
      ((scalarMachine ι n).start buf) trace config)
    (counts : ∀ op ∈ calledOn idx trace, op.Counts)
    (small : first.natAbs + effort (calledOn idx trace) < 2 ^ 30) :
    (∃ commits state, ScalarRecorded buf trace config commits state ∧
      CountedUp first (onElement idx commits) (state.object idx)) ∧
    ((∀ p, config.control p = .idle) →
      (config.shared.tag (EMSdataCell idx)).fe ≠ .busy →
      config.shared.elements idx =
        ⟨.full, .integer, first + counted (calledOn idx trace)⟩) := by
  obtain ⟨commits, state, recorded⟩ := scalar_recorded elements run
  obtain ⟨waiting, called⟩ := recorded.calls idx
  have fewer : effort (calledOn idx trace) =
      effort ((onElement idx commits).map Commit.op) + effort waiting := by
    simpa [effort] using (called.map fun op => op.amount.natAbs).sum_eq
  have countedUp : CountedUp first (onElement idx commits) (state.object idx) :=
    CountedUp.of_run integer
      (fun commit member => counts commit.op (recorded.called member))
      (by omega) (recorded.onElement idx)
  refine ⟨⟨commits, state, recorded, countedUp⟩, fun finished free => ?_⟩
  have same : counted (calledOn idx trace) =
      counted ((onElement idx commits).map Commit.op) :=
    ((recorded.calls_of_idle finished idx).map ScalarOp.amount).sum_eq
  rw [recorded.settled idx inside below free, countedUp.element, same]

end Counters

/-- Two processes add to an element, and one waits for the other. -/
def countingSchedule : List (Fin 2 × Choice ScalarOp) :=
  [(0, .call (.faa 0 (scalar .integer 3)) 2), (0, .go), (0, .go),
    (1, .call (.faa 0 (scalar .integer 4)) 2), (1, .go), (1, .go)] ++
    List.replicate 5 (0, .go) ++ List.replicate 7 (1, .go)

theorem shared_counter_two :
    letI := ieeeRuntime
    ∃ (trace : List (Fin 2 × ScalarLabel))
        (config : (scalarMachine (Fin 2) 1).State),
      config.shared.elements 0 = ⟨.full, .integer, 12⟩ ∧
      ∃ commits state,
        ScalarRecorded (uniformBuf ⟨.full, .integer, 0⟩ 5) trace config
          commits state ∧
        CountedUp 5 (onElement 0 commits) (state.object 0) := by
  let _ : CRuntime := ieeeRuntime
  obtain ⟨trace, config, run, checked⟩ := (scalarMachine (Fin 2) 1).exists_run
    ((scalarMachine (Fin 2) 1).start (uniformBuf ⟨.full, .integer, 0⟩ 5))
      countingSchedule
    (fun played => decide (played.2.shared.elements 0 = ⟨.full, .integer, 12⟩ ∧
      (∀ op ∈ calledOn 0 played.1, op.Counts) ∧
        effort (calledOn 0 played.1) = 7))
    (by decide +kernel)
  obtain ⟨twelve, counts, seven⟩ := of_decide_eq_true checked
  refine ⟨trace, config, twelve,
    (shared_counter ?_ (by decide) (by decide) rfl run counts ?_).1⟩
  · exact fun _ _ _ => ⟨by simp [uniformBuf], .inr (.inl rfl)⟩
  · simp [seven]

/-! ## Elections -/

private theorem casEqual_congr {first second value other : EMSvalueType}
    (isFirst : casEqual first value = true)
    (isSecond : casEqual second value = true) :
    casEqual first other = casEqual second other := by
  simp only [casEqual, Bool.and_eq_true, beq_iff_eq] at isFirst isSecond
  obtain ⟨firstType, firstContent⟩ := isFirst
  obtain ⟨secondType, secondContent⟩ := isSecond
  rw [casEqual, casEqual, firstType, secondType]
  by_cases type : value.type = other.type
  · rw [type] at firstContent secondContent
    cases kind : other.type with
    | boolean | integer | float | json | string =>
        simp only [kind, beq_iff_eq] at firstContent secondContent
        rw [← firstContent, ← secondContent]
    | invalid | unassigned | undefined => rfl
  · rw [beq_eq_false_iff_ne.mpr type, Bool.false_and, Bool.false_and]

section Elections

variable {ι : Type}

/-- The operation is a swap of what is in the element for something else. -/
def ScalarOp.Claims (element : Element) : ScalarOp → Prop
  | .cas _ oldValue newValue => casEqual oldValue element.casOld = true ∧
      casEqual oldValue (Element.holding .full newValue).casOld = false
  | _ => False

instance (element : Element) : (op : ScalarOp) → Decidable (op.Claims element)
  | .cas _ _ _ => inferInstanceAs (Decidable (_ ∧ _))
  | .writeEF _ _ | .readFE _ _ | .readFF _ _ | .writeXF _ _ |
        .writeXE _ _ | .faa _ _ =>
      isFalse id

/-- The value that a swap stores, if it succeeds. -/
def ScalarOp.swapsIn : ScalarOp → Option EMSvalueType
  | .cas _ _ newValue => some newValue
  | _ => none

/-- The value returned is the one that was to be replaced. -/
def wins (commit : ScalarCommit ι) : Bool :=
  match commit.op, commit.res with
  | .cas _ oldValue _, .ok (some current) => casEqual oldValue current
  | _, _ => false

/-- The first swap succeeds.  The others are returned what it has stored. -/
structure OneWins (start : Element) (commits : List (ScalarCommit ι))
    (element : Element) :
    Prop where
  nobody : commits = [] → element = start
  first : ∀ winner others, commits = winner :: others →
    wins winner = true ∧ winner.op.swapsIn.map (Element.holding .full) =
      some element
  others : ∀ winner others, commits = winner :: others →
    ∀ commit ∈ others, wins commit = false ∧
      commit.res = .ok (some element.casOld)

theorem OneWins.of_run [CRuntime] {commits : List (ScalarCommit ι)}
    {start final : Element}
    (full : start.fe = .full)
    (claims : ∀ commit ∈ commits, commit.op.Claims start)
    (run : Run ElementStep start commits final) :
    OneWins start commits final := by
  induction run with
  | nil => exact ⟨fun _ => rfl, by simp, by simp⟩
  | @snoc commits before after commit _ step induction =>
      obtain ⟨nobody, first, others⟩ := induction fun commit member =>
        claims commit (List.mem_append_left _ member)
      have claim := claims commit (by simp)
      obtain ⟨p, op, res⟩ := commit
      cases op with
      | cas idx oldValue newValue =>
          obtain ⟨same, different⟩ := claim
          cases commits with
          | nil =>
              obtain rfl := nobody rfl
              simp only [ElementStep, ScalarOp.apply, full, same, if_true,
                Option.some.injEq,
                Prod.mk.injEq] at step
              obtain ⟨rfl, rfl⟩ := step
              refine ⟨by simp, ?_, by simp⟩
              intro winner others split
              obtain ⟨rfl, -⟩ := List.cons.inj split
              exact ⟨same, rfl⟩
          | cons winner earlier =>
              obtain ⟨won, stored⟩ := first winner earlier rfl
              -- the winner has stored something else
              have lost : before.fe = .full ∧
                  casEqual oldValue before.casOld = false := by
                have claimed := claims winner (by simp)
                obtain ⟨q, op, res⟩ := winner
                cases op with
                | cas idx' oldValue' newValue' =>
                    obtain rfl := Option.some.inj stored
                    exact ⟨rfl, (casEqual_congr same claimed.1).trans claimed.2⟩
                | readFE | readFF | writeEF | writeXF | writeXE | faa =>
                    exact claimed.elim
              simp only [ElementStep, ScalarOp.apply, lost.1, lost.2, if_true,
                Bool.false_eq_true,
                if_false, Option.some.injEq, Prod.mk.injEq] at step
              obtain ⟨rfl, rfl⟩ := step
              refine ⟨by simp, ?_, ?_⟩
              · intro winner' others' split
                obtain ⟨rfl, -⟩ := List.cons.inj split
                exact ⟨won, stored⟩
              · intro winner' others' split commit member
                obtain ⟨rfl, rfl⟩ := List.cons.inj split
                rcases List.mem_append.mp member with already | new
                · exact others _ _ rfl commit already
                · obtain rfl := List.mem_singleton.mp new
                  exact ⟨lost.2, rfl⟩
      | readFE | readFF | writeEF | writeXF | writeXE | faa => exact claim.elim

variable [DecidableEq ι] [CRuntime] {n : Int}

/-- Processes that compare and swap an element with what is in it, for something
else, elect one of them: the calls take effect between their calls and returns
in an order in which the first one succeeds, and every other one is returned
what the first has stored. -/
theorem one_swap_wins {buf : EmsBuf}
    (elements : ∀ idx, 0 ≤ idx → idx < n →
      (buf.tag (EMSdataCell idx)).fe ≠ .busy ∧
      IsScalar (buf.tag (EMSdataCell idx)).type)
    {idx : Int} (full : (buf.elements idx).fe = .full)
    {trace : List (ι × ScalarLabel)} {config : (scalarMachine ι n).State}
    (run : Run (scalarMachine ι n).Step
      ((scalarMachine ι n).start buf) trace config)
    (claims : ∀ op ∈ calledOn idx trace, op.Claims (buf.elements idx)) :
    ∃ commits state, ScalarRecorded buf trace config commits state ∧
      OneWins (buf.elements idx) (onElement idx commits)
        (state.object idx) := by
  obtain ⟨commits, state, recorded⟩ := scalar_recorded elements run
  refine ⟨commits, state, recorded,
    OneWins.of_run full ?_ (recorded.onElement idx)⟩
  exact fun commit member => claims commit.op (recorded.called member)

end Elections

/-- Two processes swap an undefined element for their own numbers. -/
def swappingSchedule : List (Fin 2 × Choice ScalarOp) :=
  [(0, .call (.cas 0 (scalar .undefined 0) (scalar .integer 1)) 2), (0, .go),
    (1, .call (.cas 0 (scalar .undefined 0) (scalar .integer 2)) 2),
    (1, .go)] ++
    List.replicate 5 (1, .go) ++ List.replicate 7 (0, .go)

theorem one_swap_wins_second :
    letI := ieeeRuntime
    ∃ (trace : List (Fin 2 × ScalarLabel))
        (config : (scalarMachine (Fin 2) 1).State),
      config.shared.elements 0 = ⟨.full, .integer, 2⟩ ∧
      ∃ commits state,
        ScalarRecorded (uniformBuf ⟨.full, .undefined, 0⟩ 0) trace config
          commits state ∧
        OneWins ⟨.full, .undefined, 0⟩ (onElement 0 commits)
            (state.object 0) := by
  let _ : CRuntime := ieeeRuntime
  obtain ⟨trace, config, run, checked⟩ := (scalarMachine (Fin 2) 1).exists_run
    ((scalarMachine (Fin 2) 1).start (uniformBuf ⟨.full, .undefined, 0⟩ 0))
      swappingSchedule
    (fun played => decide (played.2.shared.elements 0 = ⟨.full, .integer, 2⟩ ∧
      ∀ op ∈ calledOn 0 played.1, op.Claims ⟨.full, .undefined, 0⟩))
        (by decide +kernel)
  obtain ⟨second, claims⟩ := of_decide_eq_true checked
  refine ⟨trace, config, second, one_swap_wins ?_ rfl run claims⟩
  exact fun _ _ _ => ⟨by simp [uniformBuf], .inr (.inr (.inr rfl))⟩

end EMS
