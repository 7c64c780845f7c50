import EMS.InitialTags
import EMS.PrivateCells

/-!
# A region that its processes create together

All processes of a group run `EMSinitialize` for a new file, and what they do to
it interleaves.  Each fills and tags the elements of its own share, and takes
the blocks for them from the common heap.  When they have returned, the region
is a store that holds the fill value everywhere, whatever the order of their
accesses was.
-/

namespace EMS

open SharedProgram Interleaving Protocol

/-! ## What a process has initialised -/

/-- The element is as it is to be, in the blocks that are for it. -/
structure ElementDone (args : InitializeArgs) (fe : FE)
    (own : Cell → List Block) (known : EmsBuf)
    (idx : Int) : Prop where
  tag : known.tag (EMSdataCell idx) = args.elementTag fe
  holds : WordHolds (known.word (EMSdataCell idx)) known.heap
    args.requestedValue
    (own (EMSdataCell idx))
  slot : args.useMap → (known.tag (EMSmapCell args.nElements idx)).fe = .full ∧
    (known.tag (EMSmapCell args.nElements idx)).type = .undefined

/-- Some elements are done, and everything else is as it was before. -/
structure ShareDone (args : InitializeArgs) (fe : FE) (before : EmsBuf)
    (done : List Int)
    (own : Cell → List Block) (known : EmsBuf) : Prop where
  elements : ∀ idx ∈ done, ElementDone args fe own known idx
  blocks : ∀ cell, (∀ idx ∈ done, cell ≠ EMSdataCell idx) → own cell = []
  word : ∀ cell, (∀ idx ∈ done, cell ≠ EMSdataCell idx) → known.word cell =
    before.word cell
  tag : ∀ cell, (∀ idx ∈ done, cell ≠ EMSdataCell idx ∧
    (args.useMap → cell ≠ EMSmapCell args.nElements idx)) → known.tag cell =
      before.tag cell

/-- What an element holds when its value has been stored and its tag has not. -/
structure ElementStored (args : InitializeArgs) (idx : Int)
    (own own' : Cell → List Block)
    (known known' : EmsBuf) : Prop where
  holds : WordHolds (known'.word (EMSdataCell idx)) known'.heap
    args.requestedValue
    (own' (EMSdataCell idx))
  blocks : ∀ cell, cell ≠ EMSdataCell idx → own' cell = own cell
  word : ∀ cell, cell ≠ EMSdataCell idx → known'.word cell = known.word cell
  tag : known'.tag = known.tag
  bytes : ∀ cell, cell ≠ EMSdataCell idx → ∀ block ∈ own cell,
    block.Same known.heap known'.heap

section Shares

variable {args : InitializeArgs} {fe : FE} {before known known' : EmsBuf}
  {done : List Int}
  {own own' : Cell → List Block} {idx : Int}

theorem ShareDone.start (noBlocks : ∀ cell, own cell = []) :
    ShareDone args fe before [] own before where
  elements := by simp
  blocks cell _ := noBlocks cell
  word _ _ := rfl
  tag _ _ := rfl

/-- A ledger of which nothing but the memory is used. -/
abbrev bare (buf : EmsBuf) : Ledger := ⟨buf, [], false⟩

/-- One more element has been stored and tagged. -/
theorem ShareDone.tagged (share : ShareDone args fe before done own known)
    (stored : ElementStored args idx own own' known known')
    (stores : (args.doSetFEtags || args.doDataFill) = true)
    (fresh : args.useExisting = false)
    (apart : idx ∉ done)
    (inside : ∀ other ∈ done, 0 ≤ other ∧ other < args.nElements)
    (lower : 0 ≤ idx) (upper : idx < args.nElements) :
    ShareDone args fe before (done ++ [idx]) own'
      (taggedElement args idx (args.elementTag fe) (bare known')).buf := by
  obtain ⟨-, -, sameHeap, sameWord⟩ :=
    @taggedElement_buf args (bare known') idx (args.elementTag fe)
  have dataTag := @taggedElement_dataTag args (bare known') idx fe lower upper
  rw [InitializeArgs.finalTag, if_pos stores] at dataTag
  have others : ∀ cell, cell ≠ EMSdataCell idx →
      (args.useMap → cell ≠ EMSmapCell args.nElements idx) →
      (taggedElement args idx (args.elementTag fe) (bare known')).buf.tag cell =
          known.tag cell := by
    intro cell data slot
    rw [taggedElement_others data slot, stored.tag]
  have different : ∀ other ∈ done, EMSdataCell other ≠ EMSdataCell idx := by
    intro other member
    rw [ne_eq, EMSdataCell_inj]
    rintro rfl
    exact apart member
  refine ⟨?_, ?_, ?_, ?_⟩
  · intro other member
    rcases List.mem_append.mp member with earlier | here
    · obtain ⟨lower', upper'⟩ := inside other earlier
      obtain ⟨tag, holds, slot⟩ := share.elements other earlier
      have data := different other earlier
      refine ⟨?_, ?_, ?_⟩
      · rw [others _ data fun _ => dataCell_ne_mapCell upper' lower]
        exact tag
      · rw [sameWord, sameHeap, stored.blocks _ data, stored.word _ data]
        exact holds.same (stored.bytes _ data)
      · intro mapped
        have slots : EMSmapCell args.nElements other ≠
            EMSmapCell args.nElements idx := by
          rw [ne_eq, EMSmapCell_inj]
          rintro rfl
          exact apart earlier
        rw [others _ (dataCell_ne_mapCell upper lower').symm fun _ => slots]
        exact slot mapped
    · obtain rfl : other = idx := by simpa using here
      refine ⟨dataTag, ?_, ?_⟩
      · rw [sameWord, sameHeap]
        exact stored.holds
      · intro mapped
        obtain ⟨full, undefined⟩ := @taggedElement_slot args (bare known') other
          (args.elementTag fe) mapped
        exact ⟨full, undefined fresh⟩
  · intro cell outside
    rw [stored.blocks cell (outside idx (by simp))]
    exact share.blocks cell fun other member => outside other (by simp [member])
  · intro cell outside
    rw [sameWord, stored.word cell (outside idx (by simp))]
    exact share.word cell fun other member => outside other (by simp [member])
  · intro cell outside
    obtain ⟨data, slot⟩ := outside idx (by simp)
    rw [others cell data slot]
    exact share.tag cell fun other member => outside other (by simp [member])

end Shares

/-! ## What a process does -/

section Loop

variable {ι : Type} {owns : ι → Cell → Prop} {level : Nat} {p : ι}
  {own own' : Cell → List Block}
  {known : EmsBuf} {args : InitializeArgs} {fe : FE}
    {before : EmsBuf} {idx : Int}
  {done share : List Int} {patience : Nat}

/-- The entries of the elements belong to the process. -/
def OwnsElements (owns : ι → Cell → Prop) (args : InitializeArgs) (p : ι)
    (share : List Int) :
    Prop :=
  ∀ idx ∈ share, owns p (EMSdataCell idx) ∧
    (args.useMap → owns p (EMSmapCell args.nElements idx))

private theorem tagElement_yields (mine : owns p (EMSdataCell idx))
    (slot : args.useMap → owns p (EMSmapCell args.nElements idx)) (tag : Tag) :
    (privateSolo owns p own).Yields
    (tagElement args args.nElements idx tag) known ()
      (taggedElement args idx tag (bare known)).buf := by
  have resets : ∀ buf : EmsBuf, (privateSolo owns p own).Yields
      (resetSlot args args.nElements idx) buf ()
          (slotReset args idx (bare buf)).buf := by
    intro buf
    rw [resetSlot, slotReset]
    cases mapped : args.useMap with
    | false => exact ⟨rfl, rfl⟩
    | true =>
        have slot := slot mapped
        simp only [if_true]
        refine Solo.Yields.bind (storeFE_yields slot fun _ => slot) ?_
        cases args.useExisting with
        | true => exact ⟨rfl, rfl⟩
        | false =>
            refine fun _ => ⟨slot, fun _ => ⟨slot, rfl, ?_⟩⟩
            simp [Access.perform, EmsBuf.setTag, Ledger.setTag]
  rw [tagElement, taggedElement]
  cases args.doSetFEtags || args.doDataFill with
  | false => exact resets known
  | true => exact fun _ => ⟨mine, resets _⟩

theorem ElementStored.ofWord {word : Int}
    (noBlocks : own (EMSdataCell idx) = [])
    (holds : WordHolds word known.heap args.requestedValue []) :
    ElementStored args idx own own known
      (known.setWord (EMSdataCell idx) word) where
  holds := by
    rw [noBlocks]
    simpa using holds
  blocks _ _ := rfl
  word cell different := by simp [different]
  tag := rfl
  bytes _ _ _ _ _ _ _ := rfl

theorem ElementStored.ofText {address len : Nat} {heap : Int → UInt8}
    (noBlocks : own (EMSdataCell idx) = [])
    (text : args.requestedValue.type.IsText)
    (room : args.requestedValue.text.bytes.length <
      (⟨address, len⟩ : Block).bytes)
    (mine : ∀ cell, own cell ≠ [] → owns p cell)
    (gained : Gained owns p own known (EMSdataCell idx) ⟨address, len⟩ heap) :
    ElementStored args idx own
      (withBlock own (EMSdataCell idx) ⟨address, len⟩) known
      (((known.setHeap heap).setWord (EMSdataCell idx) address).setHeap
        (writeText heap address args.requestedValue.text.bytes)) where
  holds := by
    rw [wordHolds_text text]
    exact
      ⟨⟨address, len⟩, by simp [noBlocks], by simp, room, writeText_holds _ _ _⟩
  blocks cell different := by simp [different]
  word cell different := by simp [different]
  tag := rfl
  bytes := by
    intro cell _ block member a lower upper
    have owned := mine cell (List.ne_nil_of_mem member)
    have copied : block.Same heap
        (writeText heap address args.requestedValue.text.bytes) :=
      writeText_apart room (gained.apart cell owned block member)
    exact (copied a lower upper).trans
      (gained.kept cell owned block member a lower upper)

/-- The fill value is stored into an element of the process. -/
theorem fillData_triple (apart : OneOwner owns)
    (mine : owns p (EMSdataCell idx))
    (noBlocks : own (EMSdataCell idx) = [])
    (ownMine : ∀ cell, own cell ≠ [] → owns p cell)
    (sized : args.doDataFill → args.fillValue.Sized) {β : Type}
    {rest : Except Int Unit → EmsProg β}
    {post : β → PrivateGhost ι × EmsBuf → Prop}
    (continues : ∀ own' known', ElementStored args idx own own' known known' →
      (∀ cell, own' cell ≠ [] → owns p cell) →
      (privateProtocol owns level).Triple (privateMachine ι) p
        (Works owns false p own' known')
        (rest (.ok ())) post) :
    (privateProtocol owns level).Triple (privateMachine ι) p
    (Works owns false p own known)
      (fillData patience args idx >>= rest) post := by
  cases fills : args.doDataFill with
  | false =>
      have nothing : args.requestedValue = scalar .undefined 0 := by
        simp [InitializeArgs.requestedValue, fills]
      have stored : ElementStored args idx own own known known :=
        ⟨by
          simp [nothing, noBlocks, WordHolds, scalar], fun _ _ => rfl,
          fun _ _ => rfl, rfl,
          fun _ _ _ _ _ _ _ => rfl⟩
      simpa [fillData, fills] using continues own known stored ownMine
  | true =>
      have value : args.requestedValue = args.fillValue := by
        simp [InitializeArgs.requestedValue, fills]
      obtain ⟨isValue, text⟩ := sized fills
      have ofWord : ∀ word, WordHolds word known.heap args.fillValue [] →
          (privateProtocol owns level).Triple (privateMachine ι) p
            (Works owns false p own known)
            ((do store (EMSdataCell idx) word; return .ok ()) >>=
                rest) post := by
        intro word holds
        rw [bind_assoc]
        have stored : ElementStored args idx own own known
            (known.setWord (EMSdataCell idx) word) :=
          .ofWord noBlocks (value.symm ▸ holds)
        apply private_triple apart
        exact fun _ => ⟨mine, continues own _ stored ownMine⟩
      cases type : args.fillValue.type with
      | boolean | integer | float =>
          simp only [fillData, fills, if_true, fillElement, type]
          exact ofWord _ (by simp [WordHolds, type])
      | undefined =>
          simp only [fillData, fills, if_true, fillElement, type]
          exact ofWord _ (by simp [WordHolds, type])
      | invalid | unassigned =>
          rw [type] at isValue
          exact absurd isValue (by decide)
      | json | string =>
          have isText : args.fillValue.type.IsText := by
            simp [type, EMSType.IsText]
          obtain ⟨short, small⟩ := text isText
          simp only [fillData, fills, if_true, fillElement, type, bind_assoc]
          refine emsMutexMem_alloc_triple apart mine
            (by constructor <;> omega) ?_
          intro address heap gained
          have room : args.requestedValue.text.bytes.length <
              (⟨address, args.fillValue.length + 1⟩ : Block).bytes := by
            rw [value]
            simp only
            omega
          have stored :=
            ElementStored.ofText noBlocks (value.symm ▸ isText) room
              ownMine gained
          have positive : ¬ (address : Int) < 0 := by omega
          rw [if_neg positive, bind_assoc]
          apply private_triple apart
          refine fun _ => ⟨mine, ?_⟩
          rw [bind_assoc]
          apply private_triple apart
          refine (copyToHeap_yields ?_).mono ?_
          · intro a byte lower upper
            refine ⟨EMSdataCell idx, mine,
              ⟨address, args.fillValue.length + 1⟩, by simp, lower, ?_⟩
            have long :=
              Block.bytes_le_length ⟨address, args.fillValue.length + 1⟩
            simp only at long ⊢
            omega
          · rintro _ _ ⟨-, rfl⟩
            rw [value] at stored
            refine continues _ _ stored ?_
            intro cell some
            by_cases here : cell = EMSdataCell idx
            · exact here ▸ mine
            · simp only [Function.update_of_ne here] at some
              exact ownMine cell some

/-- What a process knows when it has initialised some elements. -/
def HasDone (owns : ι → Cell → Prop) (p : ι) (args : InitializeArgs) (fe : FE)
    (before : EmsBuf)
    (done : List Int) (state : PrivateGhost ι × EmsBuf) : Prop :=
  ∃ own known, ShareDone args fe before done own known ∧
    Works owns false p own known state

theorem hasDone_stable (apart : OneOwner owns) :
    (privateProtocol owns level).Stable p
    (HasDone owns p args fe before done) := by
  rintro q label state next different inv ⟨own, known, share, works⟩ move
  exact ⟨own, known, share, works_stable apart different inv works move⟩

/-- The loop initialises one element of the process after the other. -/
theorem initializeElements_triple (apart : OneOwner owns)
    (mine : OwnsElements owns args p (done ++ share))
    (once : (done ++ share).Nodup)
    (inside : ∀ idx ∈ done ++ share, 0 ≤ idx ∧ idx < args.nElements)
    (stores : (args.doSetFEtags || args.doDataFill) = true)
    (fresh : args.useExisting = false)
    (sized : args.doDataFill → args.fillValue.Sized) {fe' : FE}
    (sameTag : args.elementTag fe' = args.elementTag fe)
    (progress : ShareDone args fe before done own known) :
    (privateProtocol owns level).Triple (privateMachine ι) p
    (Works owns false p own known)
      (initializeElements patience args args.nElements share fe')
        fun result state =>
        result = .ok () ∧ HasDone owns p args fe before
          (done ++ share) state := by
  induction share generalizing done own known fe' with
  | nil =>
      refine Triple.ret (works_stable apart) fun state _ works =>
        ⟨rfl, own, known, ?_, works⟩
      simpa using progress
  | cons idx share induction =>
      have here : idx ∈ done ++ idx :: share := by simp
      obtain ⟨mineHere, slot⟩ := mine idx here
      obtain ⟨lower, upper⟩ := inside idx here
      have notDone : idx ∉ done := fun earlier =>
        (List.nodup_append.mp once).2.2 idx earlier idx (by simp) rfl
      have noBlocks : own (EMSdataCell idx) = [] := by
        apply progress.blocks
        intro other member
        rw [ne_eq, EMSdataCell_inj]
        rintro rfl
        exact notDone member
      have ownMine : ∀ cell, own cell ≠ [] → owns p cell := by
        intro cell some
        by_contra notMine
        refine some (progress.blocks cell ?_)
        rintro other member rfl
        exact notMine (mine other (List.mem_append_left _ member)).1
      apply fillData_triple apart mineHere noBlocks ownMine sized
      intro own' known' stored ownMine'
      apply private_triple apart
      apply (tagElement_yields mineHere slot _).mono
      rintro _ _ ⟨-, rfl⟩
      rw [sameTag]
      have tagged := progress.tagged stored stores fresh notDone
        (fun other member => inside other (List.mem_append_left _ member)) lower
          upper
      rw [List.append_cons] at mine once inside ⊢
      exact induction mine once inside (args.elementTag_fe fe) tagged

private theorem initializeShare_triple (apart : OneOwner owns)
    (mine : OwnsElements owns args p share)
    (once : share.Nodup)
    (inside : ∀ idx ∈ share, 0 ≤ idx ∧ idx < args.nElements)
    (stores : (args.doSetFEtags || args.doDataFill) = true)
    (fresh : args.useExisting = false)
    (sized : args.doDataFill → args.fillValue.Sized) :
    (privateProtocol owns level).Triple (privateMachine ι) p
      (Works owns false p (fun _ => []) before)
      (initializeElements patience args args.nElements share fe)
        fun result state =>
        result = .ok () ∧ HasDone owns p args fe before share state := by
  have progress : ShareDone args fe before [] (fun _ => []) before :=
    .start fun _ => rfl
  refine initializeElements_triple apart ?_ ?_ ?_ stores fresh sized
    rfl progress
  · exact mine
  · exact once
  · exact inside

end Loop

/-! ## The group -/

/-- Where a process is in the creation of a region. -/
inductive Creator where
  | waiting
  | returned (result : Int)

/-- Each process calls once.  `EMSnew` has a barrier before the calls of the
others than process 0, so that the header is there for them. -/
def creatorCalls {Mapping : Type} (args : InitializeArgs)
    (system : SystemCalls Mapping)
    (stackFE : FE) (buffers : Buffers Mapping) (bufInt32 : ControlBlock)
    (id : Nat) :
    Creator → Nat → Option (EmsProg Creator)
  | .waiting, patience => some do
      let res ← EMSinitialize patience system stackFE args.nElements
        (args.asID id) buffers bufInt32
      return .returned res.result
  | .returned _, _ => none

def creationWorkflow {Mapping : Type} (args : InitializeArgs)
    (system : Nat → SystemCalls Mapping)
    (stackFE : Nat → FE) (buffers : Nat → Buffers Mapping)
    (bufInt32 : Nat → ControlBlock) :
    Workflow (Fin args.nThreads) Access Reply Creator Nat where
  code p := creatorCalls args (system p) (stackFE p) (buffers p) (bufInt32 p) p

/-- The entries of a process: those of its share, and the tops of the stack and
the queue for process 0. -/
def InitializeArgs.owns (args : InitializeArgs) (p : Fin args.nThreads)
    (cell : Cell) : Prop :=
  p.val = 0 ∧ (cell = queueBottom ∨ cell = stackTop) ∨
    ∃ idx ∈ (args.asID p).share, cell = EMSdataCell idx ∨
      cell = EMSmapCell args.nElements idx

section Group

variable {Mapping : Type} {args : InitializeArgs}
  {system : SystemCalls Mapping} {fe : FE}
  {buffers : Buffers Mapping} {bufInt32 : ControlBlock} {level patience : Nat}
  {p : Fin args.nThreads}

private theorem share_same (positive : 0 < args.nThreads)
    {p q : Fin args.nThreads} {idx : Int}
    (first : idx ∈ (args.asID p).share)
    (second : idx ∈ (args.asID q).share) : p = q := by
  have number := ((mem_share positive).mp first).2.2
  have number' := ((mem_share positive).mp second).2.2
  exact Fin.ext (by omega)

private theorem share_nodup (id : Nat) : (args.asID id).share.Nodup := by
  unfold InitializeArgs.share elementShare
  refine List.Nodup.map ?_ List.nodup_range
  intro i j same
  simp only at same
  omega

theorem oneOwner (positive : 0 < args.nThreads) : OneOwner args.owns := by
  have noControl : ∀ {q : Fin args.nThreads} {idx : Int} {cell : Cell},
      idx ∈ (args.asID q).share → cell = EMSdataCell idx ∨
        cell = EMSmapCell args.nElements idx →
      ¬ (cell = queueBottom ∨ cell = stackTop) := by
    rintro q idx cell member here
    obtain ⟨lower, upper, -⟩ := (mem_share positive).mp member
    rw [EMSmapCell_eq] at here
    rcases here with rfl | rfl
    · exact not_or.mpr ⟨EMSdataCell_ne_queueBottom lower,
        EMSdataCell_ne_stackTop lower⟩
    · exact not_or.mpr ⟨EMSdataCell_ne_queueBottom (by omega),
        EMSdataCell_ne_stackTop (by omega)⟩
  rintro p q cell (⟨zero, control⟩ | ⟨idx, member, here⟩)
    (⟨zero', control'⟩ | ⟨idx', member', here'⟩)
  · exact Fin.ext (zero.trans zero'.symm)
  · exact absurd control (noControl member' here')
  · exact absurd control' (noControl member here)
  · obtain ⟨lower, upper, -⟩ := (mem_share positive).mp member
    obtain ⟨lower', upper', -⟩ := (mem_share positive).mp member'
    have same : idx = idx' := by
      rcases here with rfl | rfl <;> rcases here' with here' | here'
      · exact EMSdataCell_inj.mp here'
      · exact absurd here' (dataCell_ne_mapCell upper lower')
      · exact absurd here'.symm (dataCell_ne_mapCell upper' lower)
      · exact EMSmapCell_inj.mp here'
    exact share_same positive member (same ▸ member')

/-- What `EMS_ARR_Q_BOTTOM` and `EMS_ARR_STACKTOP` are in a new region. -/
def topsWritten (buf : EmsBuf) : EmsBuf :=
  (((buf.setWord queueBottom 0).setTag queueBottom ⟨.full, .integer, 0⟩).setWord
    stackTop 0).setTag
    stackTop ⟨.full, .integer, 0⟩

/-- Process 0 writes the header, and lets the others use the allocator. -/
theorem initializeHeader_triple (positive : 0 < args.nThreads)
    (elements : 0 < args.nElements)
    (fresh : args.useExisting = false) {known : EmsBuf} {β : Type}
    {rest : Unit → EmsProg β}
    {post : β → PrivateGhost (Fin args.nThreads) × EmsBuf → Prop}
    (continues : (privateProtocol args.owns level).Triple (privateMachine _) p
      (Works args.owns false p (fun _ => [])
        (if p.val = 0 then topsWritten known else known))
      (rest ()) post) :
    (privateProtocol args.owns level).Triple (privateMachine _) p
      (Works args.owns (decide (p.val = 0)) p (fun _ => []) known)
      (initializeHeader (args.asID p) >>= rest) post := by
  have apart := oneOwner positive
  rw [initializeHeader]
  by_cases first : p.val = 0
  · have writes : (args.asID p).WritesHeader := ⟨first, elements, fresh⟩
    have bottom : args.owns p queueBottom := .inl ⟨first, .inl rfl⟩
    have top : args.owns p stackTop := .inl ⟨first, .inr rfl⟩
    rw [if_pos writes, decide_eq_true first]
    rw [if_pos first] at continues
    simp only [bind_assoc]
    apply private_triple apart
    refine fun _ => ⟨bottom, ?_⟩
    apply private_triple apart
    refine fun _ => ⟨bottom, ?_⟩
    apply private_triple apart
    refine fun _ => ⟨top, ?_⟩
    apply private_triple apart
    refine fun _ => ⟨top, ?_⟩
    apply Triple.access
      (fun _ => Works args.owns false p (fun _ => []) (topsWritten known))
      (works_stable apart)
    · intro ghost buf inv holds _
      obtain ⟨⟨blocks, tag, word, bytes⟩, held⟩ := holds
      exact ⟨{ ghost with holder := none }, .unlock (held.mpr rfl),
        ⟨blocks, tag, word, bytes⟩,
        by simp⟩
    · intro _
      exact continues
  · have leaves : ¬ (args.asID p).WritesHeader := fun writes => first writes.1
    rw [if_neg leaves, decide_eq_false first]
    rw [if_neg first] at continues
    exact continues

/-- What a process knows of a new file when it has been called, or has
returned. -/
def creatorRests (args : InitializeArgs) (level : Nat) (fe : FE)
    (p : Fin args.nThreads) :
    Creator → PrivateGhost (Fin args.nThreads) × EmsBuf → Prop
  | .waiting =>
      Works args.owns (decide (p.val = 0)) p (fun _ => []) (zeroFile level).buf
  | .returned _ =>
      HasDone args.owns p (args.asID p) fe
        (if p.val = 0 then topsWritten (zeroFile level).buf
          else (zeroFile level).buf)
        (args.asID p).share

/-- What is asked for a region: elements with tags of their own, in a new
file. -/
structure InitializeArgs.Creates (args : InitializeArgs) : Prop where
  positive : 0 < args.nThreads
  elements : 0 < args.nElements
  fresh : args.useExisting = false
  stores : (args.doSetFEtags || args.doDataFill) = true
  fillValue : args.doDataFill → args.fillValue.WellFormed

theorem share_owned (p : Fin args.nThreads) :
    OwnsElements args.owns (args.asID p) p (args.asID p).share :=
  fun idx member =>
    ⟨.inr ⟨idx, member, .inl rfl⟩, fun _ => .inr ⟨idx, member, .inr rfl⟩⟩

theorem creatorCalls_triple (creates : args.Creates) (maps : system.Maps)
    {caller : Creator}
    {prog : EmsProg Creator}
    (offered : creatorCalls args system fe buffers bufInt32 p caller patience =
      some prog) :
    (privateProtocol args.owns level).Triple (privateMachine _) p
    (creatorRests args level fe p caller)
      prog (creatorRests args level fe p) := by
  have apart := oneOwner creates.positive
  cases caller with
  | returned result => cases offered
  | waiting =>
      obtain rfl := Option.some.inj offered
      obtain ⟨opened, sized, mapped⟩ := maps
      obtain ⟨emsBuf, mapping⟩ := Option.isSome_iff_exists.mp mapped
      have looks : ¬ ((args.asID p).useExisting && !system.stat) = true := by
        have fresh : (args.asID p).useExisting = false := creates.fresh
        simp [fresh]
      unfold EMSinitialize
      rw [if_neg looks, if_neg (not_lt.mpr opened), if_neg sized]
      simp only [mapping, bind_assoc]
      apply initializeHeader_triple creates.positive creates.elements
        creates.fresh
      have header : (if (args.asID p).WritesHeader then (args.asID p).nElements
          else args.nElements) =
          (args.asID p).nElements := ite_self _
      rw [header]
      have inside : ∀ idx ∈ (args.asID p).share,
          0 ≤ idx ∧ idx < (args.asID p).nElements :=
        InitializeArgs.share_inside creates.positive
      refine (initializeShare_triple apart (share_owned p) (share_nodup p)
        inside creates.stores
        creates.fresh fun fills => (creates.fillValue fills).toSized).bind ?_
      intro result
      refine Triple.of_imp ?_
      rintro rfl
      by_cases free : findBuf buffers.emsBufs EMS_MAX_N_BUFS 0 < EMS_MAX_N_BUFS
      · simp only [if_pos free]
        exact Triple.ret (hasDone_stable apart) fun _ _ done => done
      · simp only [if_neg free]
        exact Triple.ret (hasDone_stable apart) fun _ _ done => done

end Group

/-! ## The region -/

private theorem blocks_byElement {live : List (Cell × Block)} {n : Nat}
    (named : ∀ entry ∈ live, ∃ i < n, entry.1 = EMSdataCell (i : Nat)) :
    ((live.map (·.2) : List Block) : Multiset Block) =
      ∑ i ∈ Finset.range n,
        (blocksAt live (EMSdataCell (i : Nat)) : Multiset Block) := by
  induction live with
  | nil => simp
  | cons entry live induction =>
      obtain ⟨cell, block⟩ := entry
      obtain ⟨i, below, here⟩ := named (cell, block) (by simp)
      simp only at here
      have each : ∀ j : Nat,
          (blocksAt ((cell, block) :: live) (EMSdataCell j) : Multiset Block) =
          (if j = i then {block} else 0) +
              (blocksAt live (EMSdataCell j) : Multiset Block) := by
        intro j
        rw [blocksAt_cons, here]
        by_cases same : j = i
        · simp [same]
        · simp [same, Ne.symm same]
      have rest := induction fun entry member => named entry (by simp [member])
      simp only [each, Finset.sum_add_distrib, ← rest]
      simp [below, ← Multiset.cons_coe]

/-- The elements hold the fill value, nobody is in the allocator, and no block
is out that is not of an element. -/
structure CreatedRegion (args : InitializeArgs) (ledger : Ledger) : Prop where
  store : StoreHolds ⟨args.nElements, args.useMap⟩ args.layout.level 0
    (fun _ => args.requestedValue) ledger
  tags : ∀ idx, 0 ≤ idx → idx < args.nElements →
    (ledger.buf.tag (EMSdataCell idx)).rw = 0 ∧
    (args.doSetFEtags → (ledger.buf.tag (EMSdataCell idx)).fe =
      args.requestedFE)
  slots : args.useMap → ∀ idx, 0 ≤ idx → idx < args.nElements →
    (ledger.buf.tag (EMSmapCell args.nElements idx)).fe = .full ∧
      (ledger.buf.tag (EMSmapCell args.nElements idx)).type = .undefined
  tops : ∀ cell ∈ [queueBottom, stackTop],
    ledger.buf.word cell = 0 ∧ ledger.buf.tag cell = ⟨.full, .integer, 0⟩

section Region

variable {Mapping : Type} {args : InitializeArgs}
  {system : Nat → SystemCalls Mapping}
  {stackFE : Nat → FE} {buffers : Nat → Buffers Mapping}
    {bufInt32 : Nat → ControlBlock}
  {level : Nat}

private theorem creation_guides (creates : args.Creates)
    (maps : ∀ id, (system id).Maps) :
    (privateProtocol args.owns level).Guides (privateMachine _)
      (creationWorkflow args system stackFE buffers bufInt32)
      fun p => creatorRests args level (stackFE p) p where
  stable p caller := by
    have apart := oneOwner creates.positive
    intro q label state next different inv holds move
    cases caller with
    | waiting => exact works_stable apart different inv holds move
    | returned result => exact hasDone_stable apart different inv holds move
  triples p _ _ _ offered := creatorCalls_triple creates (maps p) offered

private theorem creation_start (positive : 0 < args.nThreads) :
    (privateProtocol args.owns level).Covers (privateMachine _)
      (fun p => creatorRests args level (stackFE p) p) ⟨[], some ⟨0, positive⟩⟩
      ⟨(zeroFile level).buf, fun _ => .resting .waiting⟩ where
  inv := ⟨⟨_, HeapShape.fresh level⟩, by simp [zeroFile], by simp⟩
  stages p := by
    refine ⟨⟨fun _ _ => rfl, fun _ _ => rfl, fun _ _ => rfl,
      fun _ _ _ _ _ _ _ => rfl⟩, ?_⟩
    rw [Option.some.injEq, Fin.ext_iff, decide_eq_true_eq]
    exact eq_comm

/-- What one process knows of its elements is so. -/
theorem HasDone.element {p : Fin args.nThreads} {fe : FE} {before : EmsBuf}
    {ghost : PrivateGhost (Fin args.nThreads)} {buf : EmsBuf} {idx : Int}
    (done : HasDone args.owns p (args.asID p) fe before (args.asID p).share
      (ghost, buf))
    (member : idx ∈ (args.asID p).share) :
    buf.tag (EMSdataCell idx) = args.elementTag fe ∧
      WordHolds (buf.word (EMSdataCell idx)) buf.heap args.requestedValue
        (blocksAt ghost.live (EMSdataCell idx)) ∧
      (args.useMap → (buf.tag (EMSmapCell args.nElements idx)).fe = .full ∧
        (buf.tag (EMSmapCell args.nElements idx)).type = .undefined) := by
  obtain ⟨own, known, share, ⟨blocks, tag, word, bytes⟩, -⟩ := done
  obtain ⟨mine, slotMine⟩ := share_owned p idx member
  obtain ⟨sameTag, holds, slot⟩ := share.elements idx member
  refine ⟨(tag _ mine).trans sameTag, ?_, ?_⟩
  · rw [word _ mine, blocks _ mine]
    exact holds.same (bytes _ mine)
  · intro mapped
    have sameSlot : buf.tag (EMSmapCell args.nElements idx) =
        known.tag (EMSmapCell args.nElements idx) := tag _ (slotMine mapped)
    rw [sameSlot]
    exact slot mapped

/-- When everybody has returned, the region is as asked for. -/
theorem createdRegion (creates : args.Creates) (stackFE : Nat → FE)
    {ghost : PrivateGhost (Fin args.nThreads)}
    {buf : EmsBuf} (inv : PrivateInv args.owns args.layout.level (ghost, buf))
    (returned : ∀ p : Fin args.nThreads, ∃ result,
      creatorRests args args.layout.level (stackFE p) p (.returned result)
        (ghost, buf)) :
    CreatedRegion args ⟨buf, ghost.blocks, false⟩ := by
  have positive := creates.positive
  have element : ∀ idx : Int, 0 ≤ idx → idx < args.nElements →
      ∃ p : Fin args.nThreads,
      buf.tag (EMSdataCell idx) = args.elementTag (stackFE p) ∧
      WordHolds (buf.word (EMSdataCell idx)) buf.heap args.requestedValue
        (blocksAt ghost.live (EMSdataCell idx)) ∧
      (args.useMap → (buf.tag (EMSmapCell args.nElements idx)).fe = .full ∧
        (buf.tag (EMSmapCell args.nElements idx)).type = .undefined) := by
    intro idx lower upper
    obtain ⟨id, ⟨below, member⟩, -⟩ := share_exists_unique positive lower upper
    obtain ⟨result, done⟩ := returned ⟨id, below⟩
    exact ⟨⟨id, below⟩, HasDone.element done member⟩
  have nobody : ghost.holder = none := by
    cases held : ghost.holder with
    | none => rfl
    | some p =>
        obtain ⟨result, own, known, -, -, free⟩ := returned p
        exact absurd (free.mp held) (by decide)
  have named : ∀ entry ∈ ghost.live,
      ∃ i < args.nElements.toNat, entry.1 = EMSdataCell (i : Nat) := by
    intro entry member
    obtain ⟨p, mine⟩ := inv.owned entry member
    obtain ⟨result, own, known, share, ⟨blocks, -⟩, -⟩ := returned p
    by_contra outside
    have none : own entry.1 = [] := by
      apply share.blocks
      rintro idx inShare here
      obtain ⟨lower, upper, -⟩ := (mem_share positive).mp inShare
      exact outside
        ⟨idx.toNat, by omega, by rw [here, Int.toNat_of_nonneg lower]⟩
    have here : entry.2 ∈ blocksAt ghost.live entry.1 := mem_blocksAt.mpr member
    rw [blocks entry.1 mine, none] at here
    exact absurd here (by simp)
  have type : args.requestedValue.type = if args.doDataFill then
      args.fillValue.type else .undefined := by
    unfold InitializeArgs.requestedValue
    split <;> rfl
  refine ⟨⟨⟨inv.mutex.mpr nobody, inv.shape⟩, rfl,
    fun i => blocksAt ghost.live (EMSdataCell i), ?_, ?_⟩,
    ?_, ?_, ?_⟩
  · intro i below
    obtain ⟨p, tag, holds, -⟩ := element i (Int.natCast_nonneg i) below
    refine ⟨?_, holds⟩
    rw [type, tag]
    rfl
  · rw [zero_add]
    exact blocks_byElement named
  · intro idx lower upper
    obtain ⟨p, tag, -⟩ := element idx lower upper
    rw [tag]
    refine ⟨rfl, fun sets => ?_⟩
    rw [InitializeArgs.elementTag, InitializeArgs.requestedFE]
    cases args.setFEtagsFull <;> simp [sets]
  · intro mapped idx lower upper
    obtain ⟨p, -, -, slot⟩ := element idx lower upper
    exact slot mapped
  · intro cell control
    obtain ⟨result, own, known, share, ⟨-, tag, word, -⟩, -⟩ :=
      returned ⟨0, positive⟩
    have control : cell = queueBottom ∨ cell = stackTop := by
      simpa using control
    have mine : args.owns ⟨0, positive⟩ cell := .inl ⟨rfl, control⟩
    have outside : ∀ idx ∈ (args.asID 0).share, cell ≠ EMSdataCell idx ∧
        cell ≠ EMSmapCell args.nElements idx := by
      intro idx member
      obtain ⟨lower, upper, -⟩ := (mem_share positive).mp member
      rw [EMSmapCell_eq]
      rcases control with rfl | rfl
      · exact ⟨(EMSdataCell_ne_queueBottom lower).symm,
          (EMSdataCell_ne_queueBottom (by omega)).symm⟩
      · exact ⟨(EMSdataCell_ne_stackTop lower).symm,
          (EMSdataCell_ne_stackTop (by omega)).symm⟩
    have sameWord : buf.word cell =
        (topsWritten (zeroFile args.layout.level).buf).word cell :=
      (word cell mine).trans
        (share.word cell fun idx member => (outside idx member).1)
    have sameTag : buf.tag cell =
        (topsWritten (zeroFile args.layout.level).buf).tag cell :=
      (tag cell mine).trans (share.tag cell fun idx member =>
        ⟨(outside idx member).1, fun _ => (outside idx member).2⟩)
    rw [sameWord, sameTag]
    rcases control with rfl | rfl
    · simp [topsWritten, stackTop_ne_queueBottom.symm]
    · simp [topsWritten]

/-! ## The region as a store -/

/-- What is stored last after a sequence of calls on elements that hold the
values. -/
def storeFrom (store : Store) (calls : List (ElementOp × ElementRes)) : Store :=
  calls.foldl (fun store call => call.1.effect store) store

private theorem storeFrom_snoc (store : Store)
    (calls : List (ElementOp × ElementRes))
    (call : ElementOp × ElementRes) :
    storeFrom store (calls ++ [call]) =
      call.1.effect (storeFrom store calls) := by
  simp [storeFrom]

/-- Every call from then on that is refused no memory answers by what was stored
last, and none fails an assertion. -/
structure RefinesStore [CRuntime] (array : EmsArray) (level : Nat)
    (store : Store)
    (start : Ledger) : Prop where
  holds : ∀ stack calls ledger,
    Run (ElementCall array stack) start calls ledger →
    StoreHolds array level 0 (storeFrom store calls) ledger
  answers : ∀ stack calls ledger,
    Run (ElementCall array stack) start calls ledger →
    ∀ op res after, ElementCall array stack ledger (op, res) after →
      op.Answers (storeFrom store calls) res after.buf.heap
  safe : ∀ stack calls ledger,
    Run (ElementCall array stack) start calls ledger →
    ∀ (op : ElementOp) (patience : Nat), op.Valid array →
      ¬ ledgerSolo.Aborts (op.code array stack patience) ledger

theorem StoreInvariant.refines [CRuntime] (serves : MallocServes)
    {array : EmsArray}
    {store : Store} {start : Ledger}
    (small : EMS_MEM_BLOCKSZ * 2 ^ level < 2 ^ 63)
    (unmapped : array.isMapped = false)
    (initially : StoreInvariant array level store start) :
    RefinesStore array level store start := by
  have invariant : ∀ stack calls ledger,
      Run (ElementCall array stack) start calls ledger →
      StoreInvariant array level (storeFrom store calls) ledger := by
    intro stack calls ledger run
    induction run with
    | nil => exact initially
    | snoc _ call induction =>
        cases call with
        | mk patience allowed returns =>
            rw [storeFrom_snoc]
            exact ((ElementOp.alone serves small unmapped
              induction allowed).returns returns).2
  refine ⟨fun stack calls ledger
    run => (invariant stack calls ledger run).holds, ?_, ?_⟩
  · intro stack calls ledger run op res after call
    cases call with
    | mk patience allowed returns =>
        have held := invariant stack calls ledger run
        exact ((ElementOp.alone serves small unmapped held allowed).returns
          returns).1
  · intro stack calls ledger run op patience allowed
    have held := invariant stack calls ledger run
    exact (ElementOp.alone serves small unmapped held allowed).not_aborts

private theorem requestedValue_wellFormed (creates : args.Creates) :
    args.requestedValue.WellFormed := by
  cases fills : args.doDataFill with
  | false =>
      simp only [InitializeArgs.requestedValue, fills,
        Bool.false_eq_true, if_false]
      exact ⟨⟨by decide, fun text => absurd text (by decide)⟩, fun wrong => by
        cases wrong⟩
  | true =>
      simpa [InitializeArgs.requestedValue, fills] using creates.fillValue fills

/-- However the calls of the processes interleave, they leave a region whose
elements hold the fill value.  From then on the elements of an unmapped array
are a store. -/
theorem parallel_creation_store [CRuntime] (creates : args.Creates)
    (maps : ∀ id, (system id).Maps)
    {trace : List (Fin args.nThreads × StageLabel Creator)}
    {final : WorkState (Fin args.nThreads) EmsBuf Access Reply Creator}
    (run : Run ((creationWorkflow args system stackFE buffers bufInt32).Step
      (privateMachine _))
      ⟨(zeroFile args.layout.level).buf, fun _ => .resting .waiting⟩
        trace final)
    (returned : ∀ p, ∃ result, final.control p = .resting (.returned result)) :
    ∃ live, CreatedRegion args ⟨final.shared, live, false⟩ ∧
      (args.useMap = false → EMS_MEM_BLOCKSZ * 2 ^ args.layout.level < 2 ^ 63 →
        MallocServes →
        RefinesStore ⟨args.nElements, args.useMap⟩ args.layout.level
          (fun _ => args.requestedValue)
          ⟨final.shared, live, false⟩) := by
  obtain ⟨ghost, ⟨inv, stages⟩, -, -⟩ :=
    (creation_start creates.positive).run (creation_guides creates maps) run
  have region : CreatedRegion args ⟨final.shared, ghost.blocks, false⟩ := by
    apply createdRegion creates stackFE inv
    intro p
    obtain ⟨result, here⟩ := returned p
    have rests := stages p
    rw [here] at rests
    exact ⟨result, rests⟩
  refine ⟨ghost.blocks, region, fun unmapped small serves => ?_⟩
  have initially : StoreInvariant ⟨args.nElements, args.useMap⟩
      args.layout.level
      (fun _ => args.requestedValue) ⟨final.shared, ghost.blocks, false⟩ :=
    ⟨region.store, ⟨fun _ => (requestedValue_wellFormed creates).boolean⟩⟩
  exact initially.refines serves small unmapped

end Region

/-! ## Runs -/

/-- Two processes create three elements that hold a string. -/
def createdByTwo : InitializeArgs :=
  { fillWith 3 hi with heapSize := 3 * EMS_MEM_BLOCKSZ, nThreads := 2 }

/-- Process 1 looks for the allocator while process 0 is in it, and fills its
element last. -/
def creationSchedule : List (Fin 2 × Option Nat) :=
  (0, some 3) :: (1, some 3) :: List.replicate 6 (0, none) ++ (1, none) ::
    List.replicate 8 (0, none) ++ (1, none) :: List.replicate 8 (0, none) ++
    List.replicate 9 (1, none)

def Creator.hasReturned : Stage Access Reply Creator → Bool
  | .resting (.returned _) => true
  | _ => false

private theorem exists_returned {stage : Stage Access Reply Creator}
    (returned : Creator.hasReturned stage = true) :
    ∃ result, stage = .resting (.returned result) := by
  unfold Creator.hasReturned at returned
  split at returned
  case h_1 result => exact ⟨result, rfl⟩
  case h_2 => contradiction

theorem parallel_creation_store_interleaved :
    letI := ieeeRuntime
    ∃ trace final live,
        Run ((creationWorkflow createdByTwo (fun _ => mapsTo 7) (fun _ => .busy)
        (fun _ => emptyBuffers) fun _ _ => 0).Step (privateMachine _))
        ⟨(zeroFile createdByTwo.layout.level).buf, fun _ => .resting .waiting⟩
          trace final ∧
      CreatedRegion createdByTwo ⟨final.shared, live, false⟩ ∧
      RefinesStore ⟨createdByTwo.nElements, createdByTwo.useMap⟩
        createdByTwo.layout.level
        (fun _ => createdByTwo.requestedValue) ⟨final.shared, live, false⟩ := by
  let _ : CRuntime := ieeeRuntime
  obtain ⟨trace, final, run, checked⟩ :=
    (creationWorkflow createdByTwo (fun _ => mapsTo 7)
    (fun _ => .busy) (fun _ => emptyBuffers) fun _ _ => 0).exists_run
      (privateMachine _)
    ⟨(zeroFile createdByTwo.layout.level).buf, fun _ => .resting .waiting⟩
      creationSchedule
    (fun played =>
      decide (∀ p, Creator.hasReturned (played.2.control p) = true))
    (by decide +kernel)
  have creates : createdByTwo.Creates := by
    refine
      ⟨by
        decide, by decide, rfl, rfl, fun _ => ⟨⟨by decide, fun _ => by decide⟩, ?_⟩⟩
    exact fun boolean => by cases boolean
  obtain ⟨live, region, refines⟩ := parallel_creation_store creates
    (fun _ => ⟨by decide, by decide, rfl⟩) run
    (fun p => exists_returned (of_decide_eq_true checked p))
  exact ⟨trace, final, live, run, region,
    refines rfl (by decide +kernel) fun _ => rfl⟩

end EMS
