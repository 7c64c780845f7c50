import EMS.MapProtocol

/-!
# Keys that many processes insert

Processes look keys up, insert keys, and act on the index that they were told:
while they wait for the element they give the tag of the slot back to full and
make it busy again, and in the end they store it as full.  In every run each key
has a slot of its own and keeps it, unless the array has a single element.  In
such an array `EMSkey2index` returns 0 for a key that it has not found.
-/

namespace EMS

open SharedProgram Interleaving OpenAddressing Protocol

/-- An argument that names a key. -/
structure NamedKey where
  key : EMSvalueType
  k : MapKey
  names : key.Names k

/-- What a process acts on between its accesses to the map. -/
inductive MapCaller where
  | idle
  | acting (key : NamedKey) (idx : Int)

/-- What a process does next. -/
inductive MapChoice where
  | lookup (key : NamedKey) (patience : Nat)
  | insert (key : NamedKey) (patience : Nat)
  | release
  | reacquire (patience : Nat)
  | finish
  | leave

/-- A process acts on an index unless it is negative. -/
def MapCaller.told (key : NamedKey) (idx : Int) : MapCaller :=
  if 0 ≤ idx then .acting key idx else .idle

/-- The programs of a process.  It may act on what `EMSkey2index` returns, as
readers do, or forget it. -/
def mapCalls [CRuntime] (array : EmsArray) (acts : Bool) :
    MapCaller → MapChoice → Option (EmsProg MapCaller)
  | .idle, .lookup key patience => some do
      let idx ← EMSkey2index patience array key.key array.isMapped
      return if acts then .told key idx else .idle
  | .idle, .insert key patience => some do
      let idx ← EMSwriteIndexMap patience array key.key
      return .told key idx
  | .acting key idx, .release => some do
      storeFE (EMSmapCell array.nElem idx) .full
      return .acting key idx
  | .acting key idx, .reacquire patience => some do
      let _ ← EMStransitionFEtag patience (EMSmapCell array.nElem idx)
        none .full .busy
      return .acting key idx
  | .acting _ idx, .finish => some do
      storeFE (EMSmapCell array.nElem idx) .full
      return .idle
  | .acting _ _, .leave => some (pure .idle)
  | _, _ => none

def mapWorkflow [CRuntime] (ι : Type) (array : EmsArray) :
    Workflow ι Access Reply MapCaller MapChoice where
  code _ := mapCalls array true

/-- No key has been inserted. -/
structure InitialKeys (array : EmsArray) (level : Nat)
    (buf : EmsBuf) : Prop where
  slots : ∀ i : Nat, (i : Int) < array.nElem →
    (buf.tag (slotCell array i)).fe = .full ∧
      (buf.tag (slotCell array i)).type = .undefined
  mem : buf.mem = emsMem_new level

/-- Each key has a slot of its own, and whoever was told an index was told that
of his key. -/
structure KeysPlaced {ι : Type} (array : EmsArray) (table : Table MapKey)
    (buf : EmsBuf)
    (trace : List (ι × StageLabel MapCaller)) : Prop where
  unique : ∀ i j k, table i = some k → table j = some k → i = j
  bound : ∀ (i : Nat) (k : MapKey), (i : Int) < array.nElem → table i = some k →
    (buf.tag (slotCell array i)).type = k.value.type ∧
      ∃ blocks, WordHolds (buf.word (slotCell array i)) buf.heap k.value blocks
  free : ∀ i : Nat, (i : Int) < array.nElem → table i = none →
    (buf.tag (slotCell array i)).fe = .busy ∨
      (buf.tag (slotCell array i)).fe = .full ∧
      (buf.tag (slotCell array i)).type = .undefined
  told : ∀ p key (idx : Int), (p, StageLabel.rest (.acting key idx)) ∈ trace →
    ∃ i : Nat, idx = i ∧ (i : Int) < array.nElem ∧ table i = some key.k
  sameSlot : ∀ p p' key key' (idx idx' : Int),
    (p, StageLabel.rest (.acting key idx)) ∈ trace →
    (p', StageLabel.rest (.acting key' idx')) ∈ trace →
      (idx = idx' ↔ key.k = key'.k)

/-- In every run, and however it goes on, keys are placed and stay where they
are. -/
def KeysApart (array : EmsArray) : Prop :=
  ∀ [CRuntime] (ι : Type) [DecidableEq ι] (level : Nat) (buf : EmsBuf)
    (earlier later : List _)
    (middle final : WorkState ι EmsBuf Access Reply MapCaller),
    InitialKeys array level buf →
    Run ((mapWorkflow ι array).Step (mapMachine ι))
      ⟨buf, fun _ => .resting .idle⟩ earlier middle →
    Run ((mapWorkflow ι array).Step (mapMachine ι)) middle later final →
    ∃ table table', KeysPlaced array table middle.shared earlier ∧
      KeysPlaced array table' final.shared (earlier ++ later) ∧
        Extends table table'

section Runs

variable {ι : Type} {array : EmsArray} {level : Nat}

/-! ## What the processes know -/

/-- A process that acts on an index has been told the slot of its key. -/
def mapRests (array : EmsArray) (_ : ι) : MapCaller → MapGhost ι × EmsBuf → Prop
  | .idle, _ => True
  | .acting key idx, state => IndexOf array key.k idx state

theorem growing_rests {p : ι} (caller : MapCaller) :
    Growing (mapRests array p caller) := by
  cases caller with
  | idle => exact growing_const
  | acting key idx => exact growing_indexOf

theorem mapRests_told {p : ι} {key : NamedKey} {idx : Int}
    {state : MapGhost ι × EmsBuf}
    (index : 0 ≤ idx → IndexOf array key.k idx state) :
    mapRests array p (.told key idx) state := by
  unfold MapCaller.told
  split
  case isTrue inside => exact index inside
  case isFalse => trivial

variable [CRuntime]

/-- A process keeps to the moves of the map, if it acts on the indexes of
lookups only when there are several elements. -/
theorem mapCalls_triple (mapped : array.isMapped = true)
    (positive : 0 < array.nElem) {acts : Bool}
    (many : acts = true → 1 < array.nElem) {p : ι} {caller : MapCaller}
    {choice : MapChoice}
    {prog : EmsProg MapCaller}
    (offered : mapCalls array acts caller choice = some prog) :
    MapTriple array level p (mapRests array p caller) prog
      (mapRests array p) := by
  have rests : ∀ caller,
      MapTriple array level p (mapRests array p caller) (pure caller)
      (mapRests array p) :=
    fun caller =>
      Triple.ret (growing_rests caller).stable fun _ _ holds => holds
  have anywhere : ∀ caller,
      MapTriple array level p (mapRests array p caller) (pure .idle)
      (mapRests array p) :=
    fun caller => Triple.ret (growing_rests caller).stable fun _ _ _ => trivial
  -- on the slot that it was told, a process stores the tag of its key
  have stores : ∀ (key : NamedKey) (idx : Int), MapTriple array level p
      (mapRests array p (.acting key idx))
        (storeFE (EMSmapCell array.nElem idx) .full)
      fun _ => mapRests array p (.acting key idx) := by
    rintro key idx state inv ⟨i, rfl, below, bound⟩
    refine (storeFE_bound below growing_const (.inl rfl) state inv
      ⟨trivial, bound⟩).mono ?_
    exact fun _ _ both => ⟨i, rfl, below, both.2⟩
  unfold mapCalls at offered
  split at offered
  case h_1 key patience =>
    obtain rfl := Option.some.inj offered
    rw [mapped]
    refine (EMSkey2index_triple positive key.names growing_const).bind
      fun idx => ?_
    cases acts with
    | false =>
        exact Triple.ret (growing_const.and growing_indexOf.of_imp).stable fun _
          _ _ => trivial
    | true =>
        refine Triple.ret (growing_const.and growing_indexOf.of_imp).stable ?_
        exact fun _ _ both => mapRests_told fun inside =>
          both.2 (.inr ⟨inside, many rfl⟩)
  case h_2 key patience =>
    obtain rfl := Option.some.inj offered
    refine (EMSwriteIndexMap_triple mapped positive key.names
      growing_const).bind fun idx => ?_
    refine Triple.ret (growing_const.and growing_indexOf.of_imp).stable ?_
    exact fun _ _ both => mapRests_told both.2
  case h_3 key idx =>
    obtain rfl := Option.some.inj offered
    exact (stores key idx).bind fun _ => rests _
  case h_4 key idx patience =>
    obtain rfl := Option.some.inj offered
    rintro state inv ⟨i, rfl, below, bound⟩
    refine ((transition_triple below growing_bound).bind fun tag => ?_)
      state inv bound
    refine Triple.pre (rests (.acting key i)) ?_
    exact fun _ _ both => ⟨i, rfl, below, both.1⟩
  case h_5 key idx =>
    obtain rfl := Option.some.inj offered
    exact (stores key idx).bind fun _ => anywhere (.acting key idx)
  case h_6 key idx =>
    obtain rfl := Option.some.inj offered
    exact anywhere _
  case h_7 => cases offered

private theorem mapWorkflow_guides (mapped : array.isMapped = true)
    (many : 1 < array.nElem) :
    (mapProtocol array level).Guides (mapMachine ι) (mapWorkflow ι array)
    (mapRests array) where
  stable p caller := (growing_rests caller).stable
  triples _ _ _ _ offered :=
    mapCalls_triple mapped (by omega) (fun _ => many) offered

/-! ## Runs -/

omit [CRuntime] in
theorem InitialKeys.inv {buf : EmsBuf}
    (initially : InitialKeys array level buf) :
    MapInv array level
      (⟨fun _ => none, fun _ => none, [], fun _ => none⟩ : MapGhost ι) buf where
  sound := sound_free
  slots i below := initially.slots i below
  heap := ⟨.unused, initially.mem ▸ HeapShape.fresh level⟩
  owned _ _ wrong := nomatch wrong

omit [CRuntime] in
theorem InitialKeys.covers {buf : EmsBuf}
    (initially : InitialKeys array level buf)
    (machine : Machine ι EmsBuf Access Reply Unit Unit) :
    (mapProtocol array level).Covers machine (mapRests array)
      ⟨fun _ => none, fun _ => none, [], fun _ => none⟩
        ⟨buf, fun _ => .resting .idle⟩ :=
  ⟨initially.inv, fun _ => trivial⟩

omit [CRuntime] in
theorem moves_grow {state next : MapGhost ι × EmsBuf}
    (moves : (mapProtocol array level).Moves state next) :
    Extends state.1.table next.1.table := by
  induction moves with
  | refl => exact fun _ _ bound => bound
  | tail _ any induction =>
      obtain ⟨p, label, move⟩ := any
      exact fun slot key bound =>
        MapMove.grows move slot key (induction slot key bound)

omit [CRuntime] in
/-- What the invariant of the map says about everybody who was told an index. -/
theorem MapInv.placed {ghost : MapGhost ι} {buf : EmsBuf}
    {trace : List (ι × StageLabel MapCaller)}
    (inv : MapInv array level ghost buf)
    (told : ∀ p caller, (p, StageLabel.rest caller) ∈ trace →
      mapRests array p caller (ghost, buf)) :
    KeysPlaced array ghost.table buf trace := by
  have index : ∀ p key idx, (p, StageLabel.rest (.acting key idx)) ∈ trace →
      IndexOf array key.k idx (ghost, buf) :=
        fun p key idx member => told p _ member
  constructor
  · exact fun i j k bound bound' => inv.sound.unique bound bound'
  · intro i k below bound
    obtain ⟨type, blocks, holds, -⟩ := (inv.slots i below).bound bound
    exact ⟨type, blocks, holds⟩
  · intro i below free
    cases held : ghost.holder i with
    | none => exact .inr ((inv.slots i below).unheld free held)
    | some q => exact .inl ((inv.slots i below).held free held)
  · exact index
  · intro p p' key key' idx idx' member member'
    obtain ⟨i, rfl, -, bound⟩ := index p key idx member
    obtain ⟨i', rfl, -, bound'⟩ := index p' key' idx' member'
    constructor
    · intro same
      obtain rfl := Int.ofNat_inj.mp same
      exact Option.some.inj (bound.symm.trans bound')
    · intro same
      rw [same] at bound
      exact congrArg _ (inv.sound.unique bound bound')

omit [CRuntime] in
/-- Two runs, one after the other, within a protocol that keeps the map in order
and only adds to its table. -/
theorem covers_placed [DecidableEq ι] {C : Type}
    {workflow : Workflow ι Access Reply MapCaller C}
    {machine : Machine ι EmsBuf Access Reply Unit Unit}
    {protocol : Protocol ι EmsBuf Access Reply Unit Unit (MapGhost ι)}
    (ordered : ∀ {state}, protocol.inv state →
      MapInv array level state.1 state.2)
    (grow : ∀ {state next}, protocol.Moves state next →
      Extends state.1.table next.1.table)
    (guides : protocol.Guides machine workflow (mapRests array))
    {ghost : MapGhost ι}
    {start middle final : WorkState ι EmsBuf Access Reply MapCaller}
    {earlier later : List (ι × StageLabel MapCaller)}
    (covers : protocol.Covers machine (mapRests array) ghost start)
    (run : Run (workflow.Step machine) start earlier middle)
    (run' : Run (workflow.Step machine) middle later final) :
    ∃ ghost' ghost'' : MapGhost ι,
      KeysPlaced array ghost'.table middle.shared earlier ∧
      KeysPlaced array ghost''.table final.shared (earlier ++ later) ∧
      Extends ghost'.table ghost''.table ∧
      protocol.Covers machine (mapRests array) ghost'' final := by
  obtain ⟨ghost', covers', moves, history⟩ := covers.run guides run
  obtain ⟨ghost'', covers'', moves', history'⟩ := covers'.run guides run'
  refine ⟨ghost', ghost'', (ordered covers'.inv).placed ?_,
    (ordered covers''.inv).placed ?_,
    grow moves', covers''⟩
  · intro p caller member
    obtain ⟨told, inv, rests, since⟩ := history p caller member
    exact growing_rests caller _ _ (grow since) rests
  · intro p caller member
    rcases List.mem_append.mp member with earlier | later
    · obtain ⟨told, inv, rests, since⟩ := history p caller earlier
      exact growing_rests caller _ _ (grow (since.trans moves')) rests
    · obtain ⟨told, inv, rests, since⟩ := history' p caller later
      exact growing_rests caller _ _ (grow since) rests

omit [CRuntime] in
private theorem keysApart_of_many (mapped : array.isMapped = true)
    (many : 1 < array.nElem) :
    KeysApart array := by
  intro _ ι _ level buf earlier later middle final initially run run'
  obtain ⟨ghost, ghost', placed, placed', extends', -⟩ :=
    covers_placed (fun inv => inv) moves_grow
    (mapWorkflow_guides mapped many) (initially.covers _) run run'
  exact ⟨ghost.table, ghost'.table, placed, placed', extends'⟩

end Runs

/-! ## An array of one element -/

/-- A process was told the index for the key. -/
def wasTold {ι : Type} (k : MapKey) (idx : Int) :
    ι × StageLabel MapCaller → Bool
  | (_, .rest (.acting key idx')) => decide (key.k = k ∧ idx' = idx)
  | _ => false

theorem exists_told {ι : Type} {k : MapKey} {idx : Int}
    {trace : List (ι × StageLabel MapCaller)}
    (told : trace.any (wasTold k idx) = true) :
    ∃ p key, key.k = k ∧ (p, StageLabel.rest (.acting key idx)) ∈ trace := by
  obtain ⟨⟨p, label⟩, member, told⟩ := List.any_eq_true.mp told
  unfold wasTold at told
  split at told
  case h_1 key idx' same =>
    obtain ⟨rfl, rfl⟩ := of_decide_eq_true told
    obtain ⟨rfl, rfl⟩ := Prod.mk.inj same
    exact ⟨_, key, rfl, member⟩
  case h_2 => contradiction

theorem KeysPlaced.told_same {ι : Type} {array : EmsArray}
    {table : Table MapKey} {buf : EmsBuf}
    {trace : List (ι × StageLabel MapCaller)}
    (placed : KeysPlaced array table buf trace)
    {k k' : MapKey} {idx : Int}
    (told : (trace.any (wasTold k idx) && trace.any (wasTold k' idx)) = true) :
    k = k' := by
  obtain ⟨first, second⟩ := (Bool.and_eq_true _ _).mp told
  obtain ⟨p, key, rfl, member⟩ := exists_told first
  obtain ⟨p', key', rfl, member'⟩ := exists_told second
  exact (placed.sameSlot p p' key key' idx idx member member').mp rfl

/-- An integer that is its own start. -/
def integerKey (value : Nat) : NamedKey where
  key := scalar .integer value
  k := .integer value
  names := by
    refine ⟨⟨rfl, fun _ => rfl, fun _ => rfl⟩, ⟨⟨nofun, nofun⟩, ?_⟩, ?_⟩
    · rintro (text | text) <;> cases text
    · simp only [MapKey.start, llabs]
      split
      case isTrue wrong => omega
      case isFalse => exact abs_nonneg _

/-- The array of the counterexample. -/
def oneElement : EmsArray := ⟨1, true⟩

/-- Process 2 acts on the index 0 that it is told for a key that is absent, and
stores the slot as full in which process 1 is inserting 5.  The slot then has
the type of 5 and still the word 0. -/
def oneElementSchedule : List (Fin 3 × Option MapChoice) :=
  (2, some (.lookup (integerKey 7) 1)) :: List.replicate 5 (2, none) ++
  (1, some (.insert (integerKey 5) 1)) :: List.replicate 8 (1, none) ++
  (2, some .release) :: List.replicate 3 (2, none) ++
  (0, some (.insert (integerKey 0) 1)) :: List.replicate 11 (0, none) ++
  List.replicate 2 (1, none)

theorem oneElement_shared : ¬ KeysApart oneElement := by
  intro apart
  let _ : CRuntime := ieeeRuntime
  obtain ⟨trace, final, run, checked⟩ :=
    (mapWorkflow (Fin 3) oneElement).exists_run
    (mapMachine (Fin 3)) ⟨uniformBuf ⟨.full, .undefined, 0⟩ 0,
      fun _ => .resting .idle⟩
    oneElementSchedule
    (fun played => played.1.any (wasTold (.integer 5) 0) &&
      played.1.any (wasTold (.integer 0) 0))
    (by decide +kernel)
  have initially : InitialKeys oneElement 0
      (uniformBuf ⟨.full, .undefined, 0⟩ 0) :=
    ⟨fun _ _ => ⟨rfl, rfl⟩, rfl⟩
  obtain ⟨table, -, placed, -⟩ :=
    apart (Fin 3) 0 _ trace [] final final initially run .nil
  exact absurd (placed.told_same checked) (by decide)

/-- Keys are apart in an array of more than one element. -/
theorem keysApart_iff {array : EmsArray} (mapped : array.isMapped = true)
    (positive : 0 < array.nElem) : KeysApart array ↔ 1 < array.nElem := by
  constructor
  · intro apart
    by_contra few
    obtain ⟨nElem, isMapped⟩ := array
    obtain rfl : nElem = 1 := by simp only at positive few; omega
    subst mapped
    exact oneElement_shared apart
  · exact keysApart_of_many mapped

theorem keysApart_iff_several : KeysApart ⟨1000, true⟩ :=
  (keysApart_iff rfl (by decide)).mpr (by decide)

theorem not_keysApart_oneElement : ¬ KeysApart oneElement := oneElement_shared

end EMS
