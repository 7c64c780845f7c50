import EMS.RegionNames

/-!
# The tags of a new region

The processes of a group call `EMSinitialize` for a new file, process 0 first.
Every element is in the share of exactly one of them.  The variable from which
its tag is stored has no full/empty bits of its own unless they are asked for,
and the tag is not stored at all when nothing is asked for.
-/

namespace EMS

open SharedProgram Interleaving

/-! ## The shares -/

/-- The arguments of the process with the number. -/
def InitializeArgs.asID (args : InitializeArgs) (id : Nat) : InitializeArgs :=
  { args with EMSmyID := id }

theorem mem_share {args : InitializeArgs} (positive : 0 < args.nThreads)
    {id : Nat} {idx : Int} :
    idx ∈ (args.asID id).share ↔ 0 ≤ idx ∧ idx < args.nElements ∧
      idx / (args.nElements / args.nThreads + 1) = id :=
  mem_elementShare positive

theorem share_exists_unique {args : InitializeArgs}
    (positive : 0 < args.nThreads) {idx : Int}
    (lower : 0 ≤ idx) (upper : idx < args.nElements) :
    ∃! id, id < args.nThreads ∧ idx ∈ (args.asID id).share := by
  have threads : (0 : Int) < args.nThreads := Int.natCast_pos.mpr positive
  have quotient : 0 ≤ args.nElements / args.nThreads :=
    Int.ediv_nonneg (by omega) threads.le
  have counted : 0 ≤ idx / (args.nElements / args.nThreads + 1) :=
    Int.ediv_nonneg lower (by omega)
  have few : idx / (args.nElements / args.nThreads + 1) < args.nThreads := by
    apply Int.ediv_lt_of_lt_mul (by omega)
    have all := Int.lt_ediv_add_one_mul_self args.nElements threads
    rw [Int.mul_comm]
    omega
  refine ⟨(idx / (args.nElements / args.nThreads + 1)).toNat,
    ⟨by omega, ?_⟩, ?_⟩
  · exact (mem_share positive).mpr ⟨lower, upper, by omega⟩
  · rintro id ⟨-, member⟩
    have number := ((mem_share positive).mp member).2.2
    omega

/-! ## The calls of a group -/

section Group

variable {Mapping : Type} (args : InitializeArgs)
  (system : Nat → SystemCalls Mapping)
  (stackFE : Nat → FE)

/-- One process calls, and returns.  The file is mapped, and the heap has room
for its share. -/
inductive InitializeCall : Ledger → Nat → Ledger → Prop where
  | mk {ledger after : Ledger} {id : Nat} {res : InitializeRes Mapping}
      (patience : Nat)
      (buffers : Buffers Mapping) (bufInt32 : ControlBlock)
      (maps : (system id).Maps)
      (serves : (args.asID id).Fillable (args.asID id).share.length
      ledger.buf.mem)
      (returned : heapSolo.Returns
      ((args.asID id).code patience (system id) (stackFE id)
        args.nElements buffers bufInt32) ledger res after) :
          InitializeCall ledger id after

/-- All processes of a group have called, process 0 first. -/
structure Initialization (after : Ledger) : Prop where
  run : ∃ ids, ids.Perm (List.range args.nThreads) ∧ ids.head? = some 0 ∧
    Run (InitializeCall args system stackFE)
      (zeroFile args.layout.level) ids after

/-- The state that the elements are to be in. -/
def InitializeArgs.requestedFE : FE :=
  if args.doSetFEtags && !args.setFEtagsFull then .empty else .full

/-- The value that an element is to have. -/
def InitializeArgs.requestedValue : EMSvalueType :=
  if args.doDataFill then args.fillValue else scalar .undefined 0

/-- An operation that waits for the state of the element gets it at once, and a
read of an element that is full returns its value. -/
structure FirstSucceeds (ledger : Ledger) (idx : Int) : Prop where
  acquires : ∀ (patience : Nat) (mapTag : Option Cell) (newFE : FE),
    (quietSolo False).Yields
    (EMStransitionFEtag (patience + 1) (EMSdataCell idx) mapTag args.requestedFE
      newFE) ledger.buf
    { ledger.buf.tag (EMSdataCell idx) with fe := newFE }
    (ledger.buf.setTag (EMSdataCell idx)
      { ledger.buf.tag (EMSdataCell idx) with fe := newFE })
  reads : args.requestedFE = .full →
    ∀ (array : EmsArray) (patience : Nat) (stack : Tag)
    (finalFE : Option FE), args.requestedValue.text.bytes.length < patience →
    (quietSolo False).Ends (fun res _ => ∃ value, res = .ok value ∧
        Reads ledger.buf.heap value args.requestedValue)
      (readLoop patience array idx (some .full) finalFE patience stack)
        ledger.buf

/-- The element has no readers, a type of values, its value, and the state that
it is to be in. -/
structure DefiniteElement (ledger : Ledger) (idx : Int) : Prop where
  readers : (ledger.buf.tag (EMSdataCell idx)).rw = 0
  type : (ledger.buf.tag (EMSdataCell idx)).type = args.requestedValue.type
  isValue : IsValue (ledger.buf.tag (EMSdataCell idx)).type
  state : (ledger.buf.tag (EMSdataCell idx)).fe = args.requestedFE
  value : ∃ blocks : List Block, (∀ block ∈ blocks, block ∈ ledger.live) ∧
    WordHolds (ledger.buf.word (EMSdataCell idx)) ledger.buf.heap
      args.requestedValue blocks
  first : FirstSucceeds args ledger idx

/-- Each element has been initialised by one process, and is definite. -/
structure DefiniteTags (after : Ledger) : Prop where
  once : ∀ idx : Int, 0 ≤ idx → idx < args.nElements →
    ∃! id, id < args.nThreads ∧ idx ∈ (args.asID id).share
  elements : ∀ idx : Int, 0 ≤ idx → idx < args.nElements →
    DefiniteElement args after idx

/-- The tag of an element of a fresh file. -/
def zeroTag : Tag := ⟨.full, .invalid, 0⟩

/-- What holds when some processes have initialised their shares. -/
structure InitialProgress (level : Nat) (done : List Nat)
    (ledger : Ledger) : Prop where
  shape : ∃ tree, HeapShape level ⟨ledger.buf.mem, ledger.live⟩ tree
  initialized : ∀ id ∈ done, ∀ idx ∈ (args.asID id).share,
    ElementInitialized args ledger idx ∧
    ledger.buf.tag (EMSdataCell idx) = args.finalTag (stackFE id) zeroTag
  untouched : ∀ idx : Int, 0 ≤ idx → idx < args.nElements →
    (∀ id ∈ done, idx ∉ (args.asID id).share) →
      ledger.buf.tag (EMSdataCell idx) = zeroTag

end Group

section Progress

variable {Mapping : Type} {args : InitializeArgs}
  {system : Nat → SystemCalls Mapping}
  {stackFE : Nat → FE} {level : Nat} {done : List Nat} {id : Nat}
    {ledger after : Ledger}

theorem InitialProgress.start :
    InitialProgress args stackFE level [] (zeroFile level) where
  shape := ⟨_, HeapShape.fresh level⟩
  initialized := by simp
  untouched := fun _ _ _ _ => rfl

theorem InitialProgress.afterHeader
    (progress : InitialProgress args stackFE level done ledger)
    (positive : 0 < args.nThreads) :
    InitialProgress args stackFE level done (headed (args.asID id) ledger) where
  shape := by
    rw [headed_mem, headed_live]
    exact progress.shape
  initialized := by
    intro other member idx inShare
    obtain ⟨lower, upper, -⟩ := (mem_share positive).mp inShare
    obtain ⟨⟨filled, slot⟩, tag⟩ :=
      progress.initialized other member idx inShare
    obtain ⟨sameTag, sameWord⟩ := @headed_data (args.asID id) ledger idx lower
    refine ⟨⟨?_, ?_⟩, ?_⟩
    · rw [headed_live, headed_heap, sameWord]
      exact filled
    · rw [EMSmapCell_eq, (headed_data (by omega)).1, ← EMSmapCell_eq]
      exact slot
    · rw [sameTag, tag]
  untouched := by
    intro idx lower upper nobody
    rw [(headed_data lower).1]
    exact progress.untouched idx lower upper nobody

/-- A share is added to what has been initialised. -/
theorem InitialProgress.share
    (progress : InitialProgress args stackFE level done ledger)
    (positive : 0 < args.nThreads) (fresh : id ∉ done)
    (initialized : ShareInitialized (args.asID id) level (stackFE id)
      (args.asID id).share
      ledger after) : InitialProgress args stackFE level
        (done ++ [id]) after := by
  have inside : ∀ idx ∈ (args.asID id).share, 0 ≤ idx ∧ idx < args.nElements :=
    InitializeArgs.share_inside positive
  have apart : ∀ other ∈ done, ∀ idx ∈ (args.asID other).share,
      idx ∉ (args.asID id).share := by
    intro other member idx first second
    have number := ((mem_share positive).mp first).2.2
    have number' := ((mem_share positive).mp second).2.2
    obtain rfl : other = id := by omega
    exact fresh member
  refine ⟨initialized.shape, ?_, ?_⟩
  · intro other member idx inShare
    obtain ⟨lower, upper, -⟩ := (mem_share positive).mp inShare
    rcases List.mem_append.mp member with earlier | here
    · obtain ⟨element, tag⟩ := progress.initialized other earlier idx inShare
      have outside := apart other earlier idx inShare
      have kept :=
        initialized.keeps.initialized outside inside lower
          ⟨element.filled, element.slot⟩
      exact ⟨⟨kept.filled, kept.slot⟩,
        (initialized.keeps.dataTag outside inside upper).trans tag⟩
    · obtain rfl : other = id := by simpa using here
      have element := initialized.elements idx inShare
      refine ⟨⟨element.filled, element.slot⟩, ?_⟩
      rw [initialized.dataTags idx inShare, progress.untouched idx lower upper]
      · rfl
      · exact fun earlier member' inShare' =>
          apart earlier member' idx inShare' inShare
  · intro idx lower upper nobody
    rw [initialized.keeps.dataTag (nobody id (by simp)) inside upper]
    exact progress.untouched idx lower upper fun other member =>
      nobody other (by simp [member])

/-- A call adds its share. -/
theorem InitialProgress.call
    (progress : InitialProgress args stackFE level done ledger)
    (positive : 0 < args.nThreads)
    (fits : args.doDataFill → args.fillValue.TextFits) (fresh : id ∉ done)
    (called : InitializeCall args system stackFE ledger id after) :
    InitialProgress args stackFE level (done ++ [id]) after := by
  obtain ⟨patience, buffers, bufInt32, maps, serves, returned⟩ := called
  have sameSize : 0 < (args.asID id).nElements →
      (args.asID id).WritesHeader ∨ args.nElements = (args.asID id).nElements :=
        fun _ => .inr rfl
  rcases EMSinitialize_returns sameSize positive returned with
    ⟨closed, -⟩ | ⟨emsBuf, outcome, -, -, looped, -⟩
  · exact absurd maps closed
  · have before : InitialProgress args stackFE level done
        (headed (args.asID id) ledger) :=
      progress.afterHeader positive
    have fits' : (args.asID id).doDataFill →
      (args.asID id).fillValue.TextFits := fits
    have share :=
      initializeElements_returns fits' (InitializeArgs.share_inside positive)
      before.shape looped
    cases outcome with
    | error result =>
        rw [headed_mem] at share
        exact absurd serves share.1
    | ok => exact before.share positive fresh share

private theorem initialization_progress (positive : 0 < args.nThreads)
    (fits : args.doDataFill → args.fillValue.TextFits)
    {ids : List Nat} (apart : ids.Nodup)
    (run : Run (InitializeCall args system stackFE)
      (zeroFile level) ids after) :
    InitialProgress args stackFE level ids after := by
  induction run with
  | nil => exact .start
  | snoc _ called induction =>
      obtain ⟨earlier, -, fresh⟩ := List.nodup_append.mp apart
      refine (induction earlier).call positive fits ?_ called
      intro member
      exact fresh _ member _ (by simp) rfl

/-! ## Definite tags -/

private theorem firstSucceeds {idx : Int} {blocks : List Block}
    (wellFormed : args.requestedValue.WellFormed)
    (type : (ledger.buf.tag (EMSdataCell idx)).type = args.requestedValue.type)
    (state : (ledger.buf.tag (EMSdataCell idx)).fe = args.requestedFE)
    (holds : WordHolds
      (ledger.buf.word (EMSdataCell idx)) ledger.buf.heap args.requestedValue
      blocks) : FirstSucceeds args ledger idx where
  acquires := by
    intro patience mapTag newFE
    exact EMStransitionFEtag_yields state (by omega) trivial fun _ _ => trivial
  reads := by
    intro full array patience stack finalFE long
    have ended : (quietSolo False).Ends
        (ReadOk array idx finalFE
          { ledger.buf.tag (EMSdataCell idx) with fe := .busy }
          (acquiredRead idx (some .full) ledger.buf) args.requestedValue)
        (readLoop patience array idx (some .full) finalFE patience stack)
            ledger.buf :=
      readLoop_ends holds type wellFormed.boolean (by simp)
        (by simp [state, full]) (by omega)
    apply ended.mono
    rintro res _ ⟨-, value, rfl, reads⟩
    exact ⟨value, rfl, reads⟩

theorem Initialization.element (positive : 0 < args.nThreads)
    (fits : args.doDataFill → args.fillValue.TextFits)
    (initialization : Initialization args system stackFE after) :
    ∀ id, id < args.nThreads → ∀ idx ∈ (args.asID id).share,
      ElementInitialized args after idx ∧
      after.buf.tag (EMSdataCell idx) = args.finalTag (stackFE id) zeroTag := by
  obtain ⟨ids, all, -, run⟩ := initialization
  have progress :=
    initialization_progress positive fits
      (all.nodup_iff.mpr List.nodup_range) run
  intro id below
  exact progress.initialized id (all.mem_iff.mpr (List.mem_range.mpr below))

/-- A tag that is made from a variable in the requested state is definite. -/
theorem ElementInitialized.definite {idx : Int} {fe : FE}
    (wellFormed : args.requestedValue.WellFormed)
    (element : ElementInitialized args after idx)
    (tag : after.buf.tag (EMSdataCell idx) = args.finalTag fe zeroTag)
    (asks : args.doSetFEtags ∨ args.doDataFill ∧ fe = .full) :
    DefiniteElement args after idx := by
  have stores : (args.doSetFEtags || args.doDataFill) = true := by
    rcases asks with sets | ⟨fills, -⟩
    · simp [sets]
    · simp [fills]
  rw [InitializeArgs.finalTag, if_pos stores] at tag
  have type : (after.buf.tag (EMSdataCell idx)).type =
      args.requestedValue.type := by
    rw [tag, InitializeArgs.elementTag, InitializeArgs.requestedValue]
    cases args.doDataFill <;> rfl
  have state : (after.buf.tag (EMSdataCell idx)).fe = args.requestedFE := by
    rw [tag, InitializeArgs.elementTag, InitializeArgs.requestedFE]
    rcases asks with sets | ⟨-, rfl⟩
    · cases args.setFEtagsFull <;> simp [sets]
    · cases args.doSetFEtags <;> cases args.setFEtagsFull <;> rfl
  have value : ∃ blocks : List Block, (∀ block ∈ blocks, block ∈ after.live) ∧
      WordHolds (after.buf.word (EMSdataCell idx)) after.buf.heap
          args.requestedValue blocks := by
    cases fills : args.doDataFill with
    | false =>
        exact
          ⟨[], by simp, by simp [InitializeArgs.requestedValue, fills, WordHolds, scalar]⟩
    | true =>
        simpa [InitializeArgs.requestedValue, fills] using element.filled fills
  obtain ⟨blocks, live, holds⟩ := value
  refine ⟨?_, type, ?_, state, ⟨blocks, live, holds⟩,
    firstSucceeds wellFormed type state holds⟩
  · rw [tag]
    rfl
  · rw [type]
    exact wellFormed.isValue

/-- The tags are definite exactly when the state is asked for, or a fill value
is and the variables in which the tags are made hold full already. -/
theorem initialization_definite_tags (positive : 0 < args.nThreads)
    (elements : 0 < args.nElements)
    (fillValue : args.doDataFill → args.fillValue.WellFormed)
    (initialization : Initialization args system stackFE after) :
    DefiniteTags args after ↔ args.doSetFEtags ∨
      args.doDataFill ∧ ∀ id, id < args.nThreads → (args.asID id).share ≠ [] →
        stackFE id = .full := by
  have fits : args.doDataFill → args.fillValue.TextFits :=
    fun fills => (fillValue fills).text
  have wellFormed : args.requestedValue.WellFormed := by
    cases fills : args.doDataFill with
    | false =>
        simp only [InitializeArgs.requestedValue, fills,
          Bool.false_eq_true, if_false]
        exact ⟨⟨by decide, fun text => absurd text (by decide)⟩, fun wrong => by
          cases wrong⟩
    | true => simpa [InitializeArgs.requestedValue, fills] using fillValue fills
  have initialized := initialization.element positive fits
  constructor
  · intro definite
    by_cases sets : args.doSetFEtags
    · exact .inl sets
    right
    have fills : args.doDataFill = true := by
      by_contra without
      obtain ⟨id, ⟨below, member⟩, -⟩ := definite.once 0 le_rfl elements
      have type := (definite.elements 0 le_rfl elements).isValue
      rw [(initialized id below 0 member).2, InitializeArgs.finalTag,
        if_neg (by simp [sets, without])]
        at type
      exact absurd type (by decide)
    refine ⟨fills, fun id below some => ?_⟩
    obtain ⟨idx, member⟩ := List.exists_mem_of_ne_nil _ some
    obtain ⟨lower, upper, -⟩ := (mem_share positive).mp member
    have state := (definite.elements idx lower upper).state
    simpa [(initialized id below idx member).2, InitializeArgs.finalTag,
      InitializeArgs.elementTag,
      InitializeArgs.requestedFE, fills, sets] using state
  · intro asks
    refine ⟨fun idx lower upper => share_exists_unique positive lower upper, ?_⟩
    intro idx lower upper
    obtain ⟨id, ⟨below, member⟩, -⟩ := share_exists_unique positive lower upper
    obtain ⟨element, tag⟩ := initialized id below idx member
    refine element.definite wellFormed tag
      (asks.imp_right fun both => ⟨both.1, ?_⟩)
    exact both.2 id below (List.ne_nil_of_mem member)

end Progress

/-! ## Runs -/

section Runs

theorem exists_initialization (args : InitializeArgs)
    (single : args.nThreads = 1) (fe : FE)
    (serves : (args.asID 0).Fillable (args.asID 0).share.length
      (zeroFile args.layout.level).buf.mem)
    (check : InitializeRes Nat × Ledger → Bool)
    (checked : (heapSolo.execute
      ((args.asID 0).code 1 (mapsTo 7) fe args.nElements
      emptyBuffers fun _ => 0) (zeroFile args.layout.level)).any check = true) :
    ∃ res after, Initialization args (fun _ => mapsTo 7) (fun _ => fe) after ∧
      check (res, after) = true := by
  obtain ⟨res, after, returned, holds⟩ :=
    heapSolo.exists_returns _ _ check checked
  refine ⟨res, after, ⟨[0], ?_, rfl, ?_⟩, holds⟩
  · rw [single]
    exact .refl _
  · exact Run.nil.snoc
      (.mk 1 emptyBuffers (fun _ => 0) ⟨by decide, by decide, rfl⟩
        serves returned)

theorem initialization_definite_tags_integer :
    ∃ after, Initialization (fillWith 2 (scalar .integer 5)) (fun _ => mapsTo 7)
      (fun _ => .busy)
        after ∧
      DefiniteTags (fillWith 2 (scalar .integer 5)) after := by
  have noText : ¬ (scalar .integer 5).type.IsText := by decide
  obtain ⟨res, after, initialization, -⟩ :=
    exists_initialization (fillWith 2 (scalar .integer 5)) rfl .busy
      (fun _ _ => ⟨by decide, fun text => absurd text noText⟩) (fun _ => true)
        (by decide +kernel)
  refine ⟨after, initialization, ?_⟩
  refine (initialization_definite_tags (by decide) (by decide) (fun _ => ?_)
    initialization).mpr
    (.inl rfl)
  exact ⟨⟨by decide, fun text => absurd text noText⟩, fun wrong => by
    cases wrong⟩

/-- A region for which neither a fill value nor tags are asked. -/
def fillNothing (nElements : Int) : InitializeArgs :=
  { fillWith nElements (scalar .undefined 0)
    with doDataFill := false, doSetFEtags := false }

/-- The type of its elements is none of a value. -/
theorem not_initialization_definite_tags :
    ¬ ∀ (args : InitializeArgs) (system : Nat → SystemCalls Nat)
      (stackFE : Nat → FE)
      (after : Ledger), 0 < args.nThreads → 0 < args.nElements →
      (args.doDataFill → args.fillValue.WellFormed) →
        Initialization args system stackFE after →
      DefiniteTags args after := by
  intro definite
  obtain ⟨res, after, initialization, checked⟩ :=
    exists_initialization (fillNothing 1) rfl .full (fun wrong => by
      cases wrong)
      (fun played => (played.2.buf.tag (EMSdataCell 0)).type == .invalid)
        (by decide +kernel)
  have tags :=
    definite (fillNothing 1) (fun _ => mapsTo 7) (fun _ => .full)
      after (by decide)
    (by decide) (fun wrong => by cases wrong) initialization
  have isValue := (tags.elements 0 (by decide) (by decide)).isValue
  rw [beq_iff_eq] at checked
  rw [checked] at isValue
  exact absurd isValue (by decide)

end Runs

end EMS
