import EMS.ConcurrentMap
import EMS.RegionCreation

/-!
# Attaching to a live region

A process that calls `EMSinitialize` with `useExisting` stores every map tag
of its share as full while others look keys up and insert them.  As long as it
loads only full tags, and nobody changes a tag that it has loaded before it is
stored, keys stay apart.  A store over a tag that is busy lets two keys into
one slot.
-/

namespace EMS

open SharedProgram Interleaving OpenAddressing Protocol

/-- The loop of `EMSinitialize` over its share of a mapped array that exists,
when there is no data fill and no tag is to be set. -/
def attachElements (array : EmsArray) : List Int → EmsProg Unit
  | [] => pure ()
  | idx :: share => do
      storeFE (EMSmapCell array.nElem idx) .full
      attachElements array share

inductive LiveChoice where
  | call (choice : MapChoice)
  | attach (nThreads EMSmyID : Nat)

/-- Some processes attach to the region, the others are using it. -/
def liveWorkflow [CRuntime] {ι : Type} (array : EmsArray)
    (attaches : ι → Bool) :
    Workflow ι Access Reply MapCaller LiveChoice where
  code p caller choice :=
    match choice with
    | .call choice =>
        if attaches p then none else mapCalls array false caller choice
    | .attach nThreads EMSmyID =>
        if attaches p then some do
          attachElements array (elementShare array.nElem nThreads EMSmyID)
          return .idle
        else none

/-- The tag is found as it is stored. -/
def Access.KeepsTag : Access → EmsBuf → Prop
  | .storeTag cell tag, buf => buf.tag cell = tag
  | _, _ => True

instance (act : Access) (buf : EmsBuf) : Decidable (act.KeepsTag buf) :=
  match act with
  | .storeTag _ _ => inferInstanceAs (Decidable (_ = _))
  | .load _ | .store _ _ | .loadTag _ | .casTag _ _ _ | .casMutex _ _ |
        .storeMutex _
  | .memAlloc _ | .memFree _ | .loadByte _ | .storeByte _ _ => isTrue trivial

/-- The memory of a live region.  When `careful` is set, a process that attaches
only stores tags as it finds them. -/
def liveMachine {ι : Type} (attaches : ι → Bool) (careful : Bool) :
    Machine ι EmsBuf Access Reply Unit Unit where
  perform _ := Access.perform
  code _ _ _ := .spin
  admits _ _ _ := False
  permits p act buf := careful = true → attaches p = true → act.KeepsTag buf

instance {ι : Type} (attaches : ι → Bool) (careful : Bool) (p : ι)
    (act : Access) (buf : EmsBuf) :
    Decidable ((liveMachine attaches careful).permits p act buf) :=
  inferInstanceAs (Decidable (_ → _ → _))

/-- The tag that a process loads next. -/
def nextLoad : Stage Access Reply MapCaller → Option Cell
  | .running (.access (.loadTag cell) _) => some cell
  | _ => none

/-- The tag that a process stores next. -/
def nextStore : Stage Access Reply MapCaller → Option Cell
  | .running (.access (.storeTag cell _) _) => some cell
  | _ => none

/-- A process that attaches finds the tag full that it loads, and nobody changes
the tag that another one has loaded and stores next. -/
structure Unhurried {ι : Type} (attaches : ι → Bool)
    (config : WorkState ι EmsBuf Access Reply MapCaller) (p : ι)
    (memory : EmsBuf) : Prop where
  full : attaches p = true → ∀ cell ∈ nextLoad (config.control p),
    (config.shared.tag cell).fe = .full
  kept : ∀ q, q ≠ p → attaches q = true → ∀ cell ∈ nextStore (config.control q),
    memory.tag cell = config.shared.tag cell

instance {n : Nat} {attaches : Fin n → Bool}
    {config : WorkState (Fin n) EmsBuf Access Reply MapCaller} {p : Fin n}
    {memory : EmsBuf} :
    Decidable (Unhurried attaches config p memory) :=
  decidable_of_iff
    ((attaches p = true → ∀ cell ∈ nextLoad (config.control p),
        (config.shared.tag cell).fe = .full) ∧
      ∀ q, q ≠ p → attaches q = true → ∀ cell ∈ nextStore (config.control q),
        memory.tag cell = config.shared.tag cell)
    ⟨fun both => ⟨both.1, both.2⟩,
      fun unhurried => ⟨unhurried.full, unhurried.kept⟩⟩

/-- The steps of a region in use.  When `careful` is set, nobody disturbs those
who attach. -/
def LiveStep [CRuntime] {ι : Type} [DecidableEq ι] (careful : Bool)
    (array : EmsArray)
    (attaches : ι → Bool) (config : WorkState ι EmsBuf Access Reply MapCaller)
    (label : ι × StageLabel MapCaller)
    (next : WorkState ι EmsBuf Access Reply MapCaller) :
    Prop :=
  (careful = true → Unhurried attaches config label.1 next.shared) ∧
    (liveWorkflow array attaches).Step (liveMachine attaches false)
      config label next

/-- In every run, and however it goes on, keys are placed and stay where they
are, and a process that attaches changes no tag of the map that is busy. -/
def AttachSafe (careful : Bool) (array : EmsArray) : Prop :=
  ∀ [CRuntime] (ι : Type) [DecidableEq ι] (attaches : ι → Bool) (level : Nat)
    (buf : EmsBuf)
    (earlier later : List (ι × StageLabel MapCaller))
    (middle final : WorkState ι EmsBuf Access Reply MapCaller),
    InitialKeys array level buf →
    Run (LiveStep careful array attaches) ⟨buf, fun _ => .resting .idle⟩
      earlier middle →
    Run (LiveStep careful array attaches) middle later final →
    (∃ table table', KeysPlaced array table middle.shared earlier ∧
      KeysPlaced array table' final.shared (earlier ++ later) ∧
        Extends table table') ∧
    ∀ p label next, attaches p = true →
      (liveWorkflow array attaches).Step (liveMachine attaches false) final
        (p, label) next →
      ∀ i : Nat, (i : Int) < array.nElem →
        (final.shared.tag (slotCell array i)).fe = .busy →
        next.shared.tag (slotCell array i) = final.shared.tag (slotCell array i)

section Live

variable {ι : Type} {array : EmsArray} {level : Nat} {attaches : ι → Bool}

/-- The moves on the map, where those who attach change nothing. -/
def liveProtocol (array : EmsArray) (level : Nat) (attaches : ι → Bool) :
    Protocol ι EmsBuf Access Reply Unit Unit (MapGhost ι) where
  move p _ state next :=
    MapMove array level p state next ∧ (attaches p = true → next.2 = state.2)
  inv state := MapInv array level state.1 state.2
  keeps inv move := move.1.keeps inv

private theorem liveProtocol_moves {state next : MapGhost ι × EmsBuf}
    (moves : (liveProtocol array level attaches).Moves state next) :
    (mapProtocol array level).Moves state next :=
  Relation.ReflTransGen.mono
    (fun _ _ ⟨p, label, move⟩ => ⟨p, label, move.1⟩) _ _ moves

private theorem live_stable {p : ι} {assertion : MapGhost ι × EmsBuf → Prop}
    (stable : (mapProtocol array level).Stable p assertion) :
    (liveProtocol array level attaches).Stable p assertion :=
  fun {q label _ _} different inv holds move =>
    @stable q label _ _ different inv holds move.1

private theorem live_hosts {p : ι} (uses : attaches p = false) :
    Hosts (mapProtocol array level) (mapMachine ι)
      (liveProtocol array level attaches)
      (liveMachine attaches true) p id fun _ => True where
  invariant inv := inv
  others {q label _ _} different _ move := .single ⟨q, label, different, move.1⟩
  stable _ _ _ _ := trivial
  permits _ := trivial
  replies := rfl
  moves _ _ _ move :=
    ⟨_, ⟨move, fun wrong => absurd wrong (by simp [uses])⟩, rfl, trivial⟩

private theorem storeFE_attach {p : ι} (attaching : attaches p = true)
    {cell : Cell} :
    (liveProtocol array level attaches).Triple (liveMachine attaches true) p
    (fun _ => True)
      (storeFE cell .full) fun _ _ => True := by
  have stable : (liveProtocol array level attaches).Stable p fun _ => True :=
    fun _ _ _ _ => trivial
  refine Triple.access (fun _ _ => True) stable ?_ fun tag => ?_
  · exact fun ghost buf _ _ _ => ⟨ghost, ⟨.load, fun _ => rfl⟩, trivial⟩
  · refine Triple.access (fun _ _ => True) stable ?_ fun _ =>
      Triple.ret stable fun _ _ _ => trivial
    intro ghost buf inv _ permitted
    have found : buf.tag cell = { tag with fe := .full } :=
      permitted rfl attaching
    have same : buf.setTag cell { tag with fe := .full } = buf := by
      rw [← found, EmsBuf.setTag_self]
    refine ⟨ghost, ⟨?_, fun _ => same⟩, trivial⟩
    change MapMove array level p (ghost, buf)
      (ghost, buf.setTag cell { tag with fe := .full })
    rw [same]
    exact .load

private theorem attachElements_triple {p : ι} (attaching : attaches p = true)
    {share : List Int} :
    (liveProtocol array level attaches).Triple (liveMachine attaches true) p
    (fun _ => True)
      (attachElements array share) fun _ _ => True := by
  induction share with
  | nil => exact Triple.ret (fun _ _ _ _ => trivial) fun _ _ _ => trivial
  | cons idx share induction =>
      exact (storeFE_attach attaching).bind fun _ => induction

variable [CRuntime]

private theorem liveWorkflow_guides (mapped : array.isMapped = true)
    (positive : 0 < array.nElem) :
    (liveProtocol array level attaches).Guides (liveMachine attaches true)
      (liveWorkflow array attaches) (mapRests array) where
  stable p caller := live_stable (growing_rests caller).stable
  triples p caller choice prog offered := by
    cases choice with
    | call choice =>
        cases attaching : attaches p with
        | true => simp [liveWorkflow, attaching] at offered
        | false =>
            simp only [liveWorkflow, attaching, Bool.false_eq_true,
              if_false] at offered
            have triple :=
              (@live_hosts ι array level attaches p attaching).triple
              (mapCalls_triple mapped positive
                ((fun wrong => nomatch wrong) : false = true →
                  1 < array.nElem) offered)
            intro state inv rests
            exact (triple state inv ⟨trivial, rests⟩).mono fun _ _
              both => both.2
    | attach nThreads EMSmyID =>
        cases attaching : attaches p with
        | false => simp [liveWorkflow, attaching] at offered
        | true =>
            simp only [liveWorkflow, attaching, if_true,
              Option.some.injEq] at offered
            subst offered
            refine Triple.pre ((attachElements_triple attaching).bind fun _ =>
              ?_) fun _ _ _ => trivial
            exact Triple.ret (fun _ _ _ _ => trivial) fun _ _ _ => trivial

/-! ### Where an attaching process stands -/

/-- What is left of the loop of a process that attaches: it is between two
elements, or about to store the full tag that it has loaded. -/
inductive Attaching (array : EmsArray) (buf : EmsBuf) :
    Stage Access Reply MapCaller → Prop where
  | resting (caller : MapCaller) : Attaching array buf (.resting caller)
  | between (share : List Int) :
      Attaching array buf
        (.running (attachElements array share >>= fun _ => pure .idle))
  | loaded (cell : Cell) (tag : Tag) (share : List Int) :
      buf.tag cell = tag → tag.fe = .full →
      Attaching array buf
          (.running (.access (.storeTag cell { tag with fe := .full }) fun _ =>
        attachElements array share >>= fun _ => pure .idle))

omit [CRuntime] in
theorem Attaching.stays {buf memory : EmsBuf}
    {stage : Stage Access Reply MapCaller}
    (here : Attaching array buf stage)
    (kept : ∀ cell ∈ nextStore stage, memory.tag cell = buf.tag cell) :
    Attaching array memory stage := by
  cases here with
  | resting caller => exact .resting caller
  | between share => exact .between share
  | loaded cell tag share found full =>
      exact .loaded cell tag share ((kept cell rfl).trans found) full

/-- A step of a process that attaches stores a tag as it is. -/
theorem Attaching.step {p : ι} (attaching : attaches p = true)
    {buf memory : EmsBuf}
    {stage stage' : Stage Access Reply MapCaller} {label : StageLabel MapCaller}
    (here : Attaching array buf stage)
    (moved : (liveWorkflow array attaches).Program
      (liveMachine attaches false) p buf stage label
      memory stage') :
    (liveWorkflow array attaches).Program
    (liveMachine attaches true) p buf stage label
        memory stage' ∧
      ((∀ cell ∈ nextLoad stage, (buf.tag cell).fe = .full) →
        Attaching array memory stage') := by
  cases here with
  | resting caller =>
      cases moved with
      | start choice offered =>
          refine ⟨.start choice offered, fun _ => ?_⟩
          cases choice with
          | call choice => simp [liveWorkflow, attaching] at offered
          | attach nThreads EMSmyID =>
              simp only [liveWorkflow, attaching, if_true,
                Option.some.injEq] at offered
              exact offered ▸ .between _
  | between share =>
      cases share with
      | nil =>
          cases moved with
          | rest => exact ⟨.rest, fun _ => .resting _⟩
      | cons idx share =>
          cases moved with
          | access permitted =>
              refine ⟨.access fun _ _ => trivial, fun full => ?_⟩
              exact .loaded _ _ share rfl (full _ rfl)
  | loaded cell tag share found full =>
      have same : buf.tag cell = { tag with fe := .full } := by
        rw [found, ← full]
      cases moved with
      | access permitted =>
          exact ⟨.access fun _ _ => same, fun _ => .between share⟩

/-- Those who attach are where they stand in their loop. -/
def AttachersStand (array : EmsArray) (attaches : ι → Bool)
    (config : WorkState ι EmsBuf Access Reply MapCaller) : Prop :=
  ∀ q, attaches q = true → Attaching array config.shared (config.control q)

/-- Whether a step is careful or not, it stores only tags that are there
already. -/
theorem AttachersStand.careful [DecidableEq ι]
    {label : ι × StageLabel MapCaller}
    {config next : WorkState ι EmsBuf Access Reply MapCaller}
    (stand : AttachersStand array attaches config)
    (step : (liveWorkflow array attaches).Step
      (liveMachine attaches false) config label next) :
    (liveWorkflow array attaches).Step (liveMachine attaches true) config label
      next := by
  cases step with
  | @mk p label memory control moved =>
      refine .mk ?_
      cases attaching : attaches p with
      | true => exact (Attaching.step attaching (stand p attaching) moved).1
      | false =>
          generalize config.control p = stage at moved ⊢
          cases moved with
          | start choice offered => exact .start choice offered
          | access permitted =>
              exact .access fun _ wrong => absurd (attaching ▸ wrong) (by simp)
          | rest => exact .rest

theorem AttachersStand.step [DecidableEq ι] {label : ι × StageLabel MapCaller}
    {config next : WorkState ι EmsBuf Access Reply MapCaller}
    (stand : AttachersStand array attaches config)
    (unhurried : Unhurried attaches config label.1 next.shared)
    (step : (liveWorkflow array attaches).Step
      (liveMachine attaches false) config label next) :
    AttachersStand array attaches next := by
  cases step with
  | @mk p label memory control moved =>
      intro q attaching
      by_cases same : q = p
      · subst same
        simp only [Function.update_self]
        exact (Attaching.step attaching (stand q attaching) moved).2
          (unhurried.full attaching)
      · simp only [ne_eq, same, not_false_eq_true, Function.update_of_ne]
        exact (stand q attaching).stays (unhurried.kept q same attaching)

end Live

/-- Attaching is safe as long as every tag is full that is loaded, and unchanged
until it is stored. -/
theorem attach_safe {array : EmsArray} (mapped : array.isMapped = true)
    (positive : 0 < array.nElem) : AttachSafe true array := by
  intro _ ι _ attaches level buf earlier later middle final initially
    allRun allRun'
  have narrows : ∀ config label next, AttachersStand array attaches config →
      LiveStep true array attaches config label next →
      (liveWorkflow array attaches).Step (liveMachine attaches true) config
        label next ∧
        AttachersStand array attaches next :=
    fun _ _ _ stand step =>
      ⟨stand.careful step.2, stand.step (step.1 rfl) step.2⟩
  obtain ⟨run, stand⟩ := allRun.narrow _ narrows fun q _ => .resting .idle
  obtain ⟨run', stand'⟩ := allRun'.narrow _ narrows stand
  have guides := @liveWorkflow_guides ι array level attaches _ mapped positive
  have covers : (liveProtocol array level attaches).Covers
      (liveMachine attaches true)
      (mapRests array) ⟨fun _ => none, fun _ => none, [], fun _ => none⟩
      ⟨buf, fun _ => .resting .idle⟩ :=
    ⟨initially.inv, fun _ => trivial⟩
  obtain ⟨ghost, ghost', placed, placed', extends', covers'⟩ :=
    covers_placed (fun inv => inv)
    (fun moves => moves_grow (liveProtocol_moves moves)) guides covers run run'
  refine ⟨⟨ghost.table, ghost'.table, placed, placed', extends'⟩, ?_⟩
  intro p label next attaching step i below busy
  rcases covers'.moved (stand'.careful step) with same | ⟨after, act, move⟩
  · rw [same]
  · have same : next.shared = final.shared := move.2 attaching
    rw [same]

def threeElements : EmsArray := ⟨3, true⟩

/-- Process 0 attaches to the slots 0 and 1 while process 1 inserts 5 into slot
2, and to slot 2 when that slot is full again, while process 2 inserts 8. -/
def unhurriedSchedule : List (Fin 3 × Option LiveChoice) :=
  (1, some (.call (.insert (integerKey 5) 2))) :: List.replicate 8 (1, none) ++
  (0, some (.attach 1 0)) :: List.replicate 4 (0, none) ++
  List.replicate 2 (1, none) ++
  (1, some (.call .release)) :: List.replicate 3 (1, none) ++
  (0, none) :: (2, some (.call (.insert (integerKey 8) 2))) :: (2, none) ::
  List.replicate 2 (0, none) ++ List.replicate 19 (2, none)

theorem attach_safe_three : ∃ trace final,
    Run (@LiveStep ieeeRuntime (Fin 3) _ true threeElements (· == 0))
      ⟨uniformBuf ⟨.full, .undefined, 0⟩ 0, fun _ => .resting .idle⟩
        trace final ∧
    trace.any (wasTold (.integer 5) 2) = true ∧
      trace.any (wasTold (.integer 8) 0) = true ∧
    ∃ table, KeysPlaced threeElements table final.shared trace := by
  let _ : CRuntime := ieeeRuntime
  let attaches : Fin 3 → Bool := (· == 0)
  obtain ⟨trace, final, run, checked⟩ :=
    (liveWorkflow threeElements attaches).exists_run_where
      (liveMachine attaches false)
      (fun config p next => decide (Unhurried attaches config p next.shared))
      ⟨uniformBuf ⟨.full, .undefined, 0⟩ 0, fun _ => .resting .idle⟩
        unhurriedSchedule
      (fun played => played.1.any (wasTold (.integer 5) 2) &&
        played.1.any (wasTold (.integer 8) 0))
      (by decide +kernel)
  have initially : InitialKeys threeElements 0
      (uniformBuf ⟨.full, .undefined, 0⟩ 0) :=
    ⟨fun _ _ => ⟨rfl, rfl⟩, rfl⟩
  have careful : Run (LiveStep true threeElements attaches) _ trace final :=
    run.mono fun _ _ _ step => ⟨fun _ => of_decide_eq_true step.1, step.2⟩
  obtain ⟨first, second⟩ := (Bool.and_eq_true _ _).mp checked
  obtain ⟨⟨table, -, placed, -⟩, -⟩ :=
    @attach_safe threeElements rfl (by decide) _
    (Fin 3) _ attaches 0 _ trace [] final final initially careful .nil
  exact ⟨trace, final, careful, first, second, table, placed⟩

/-- Process 0 stores the tag of the slot as full in which process 1 is inserting
5.  The slot then has the type of 5 and still the word 0, which is the key of
process 2. -/
def attachSchedule : List (Fin 3 × Option LiveChoice) :=
  (1, some (.call (.insert (integerKey 5) 1))) :: List.replicate 8 (1, none) ++
  (0, some (.attach 1 0)) :: List.replicate 3 (0, none) ++
  (2, some (.call (.insert (integerKey 0) 1))) :: List.replicate 11 (2, none) ++
  List.replicate 2 (1, none)

theorem not_attach_safe : ¬ AttachSafe false oneElement := by
  intro safe
  let _ : CRuntime := ieeeRuntime
  obtain ⟨trace, final, run, checked⟩ :=
    (liveWorkflow oneElement (· == (0 : Fin 3))).exists_run
    (liveMachine (· == (0 : Fin 3)) false)
    ⟨uniformBuf ⟨.full, .undefined, 0⟩ 0, fun _ => .resting .idle⟩
      attachSchedule
    (fun played => played.1.any (wasTold (.integer 5) 0) &&
      played.1.any (wasTold (.integer 0) 0))
    (by decide +kernel)
  have initially : InitialKeys oneElement 0
      (uniformBuf ⟨.full, .undefined, 0⟩ 0) :=
    ⟨fun _ _ => ⟨rfl, rfl⟩, rfl⟩
  have careless : Run (LiveStep false oneElement (· == (0 : Fin 3))) _
      trace final :=
    run.mono fun _ _ _ step => ⟨fun wrong => absurd wrong (by simp), step⟩
  obtain ⟨⟨table, -, placed, -⟩, -⟩ :=
    safe (Fin 3) _ 0 _ trace [] final final initially careless .nil
  exact absurd (placed.told_same checked) (by decide)

end EMS
