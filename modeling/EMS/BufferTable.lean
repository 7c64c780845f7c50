import EMS.Interleaving
import EMS.RegionNames

/-!
# The table of mappings of a process

`EMSinitialize` maps a region and enters it into the first free entry of the
table, and `EMSdestroy` unmaps the region of an entry and clears it.  Both make
system calls that can fail.  The file says which of these failures leave a
region without an entry or an entry without a region.
-/

namespace EMS

open SharedProgram Interleaving

/-! ## Regions -/

/-- A mapping that a process has made, with the number of those it had made
before. -/
structure Region where
  serial : Nat
  address : Nat
  length : Nat
  deriving DecidableEq

/-- Some byte of the region is among the `length` bytes from `address` on. -/
def Region.Overlaps (region : Region) (address length : Nat) : Prop :=
  region.address < address + length ∧ address < region.address + region.length

instance (region : Region) (address length : Nat) :
    Decidable (region.Overlaps address length) :=
  inferInstanceAs (Decidable (_ ∧ _))

/-- The address in an entry of the table.  The entry of no region is `NULL`. -/
def addressOf : Option Region → Nat
  | none => 0
  | some region => region.address

/-- A process with the mappings it has made. -/
structure Process where
  buffers : Buffers Region
  mappings : Nat
  /-- The regions that are mapped now. -/
  mapped : List Region
  /-- The regions of calls of `EMSinitialize` that reported success. -/
  reported : List Region
  /-- The regions that `EMSdestroy` has unmapped. -/
  unmapped : List Region

def Process.fresh : Process where
  buffers :=
    ⟨fun _ => none, fun _ => 0, fun _ => List.replicate MAX_FNAME_LEN 0⟩
  mappings := 0
  mapped := []
  reported := []
  unmapped := []

/-- What `mmap` returns: a region of the length that is nowhere mapped yet. -/
structure Process.Maps (process : Process) (region : Region)
    (length : Nat) : Prop where
  serial : region.serial = process.mappings
  length : region.length = length
  positive : 0 < region.length
  apart : ∀ other ∈ process.mapped,
    ¬ other.Overlaps region.address region.length

/-! ## The calls -/

/-- What a process has after `munmap(address, length)`. -/
def Process.munmap (process : Process) (address length : Nat) : Process :=
  { process with
    mapped :=
      process.mapped.filter fun region => ¬ region.Overlaps address length
    unmapped := process.unmapped ++
      process.mapped.filter fun region => region.Overlaps address length }

instance (system : SystemCalls Region) : Decidable system.Maps :=
  inferInstanceAs (Decidable (_ ∧ _ ∧ _))

/-- What a process has after a call of `EMSinitialize`. -/
def Process.initialized (process : Process) (system : SystemCalls Region)
    (res : InitializeRes Region) : Process :=
  match if system.Maps then system.mmap else none with
  | none => { process with buffers := res.buffers }
  | some region =>
      { process with
        buffers := res.buffers
        mappings := process.mappings + 1
        mapped := region :: process.mapped
        reported := if 0 ≤ res.result then region :: process.reported
          else process.reported }

@[simp] theorem Process.initialized_buffers (process : Process)
    (system : SystemCalls Region)
    (res : InitializeRes Region) : (process.initialized system res).buffers =
      res.buffers := by
  unfold Process.initialized
  split
  · rfl
  · rfl

/-- Which of the system calls of `EMSdestroy` succeed. -/
structure DestroyCalls where
  munmap : Bool
  unlink : Bool

/-- The table with the entry released. -/
def Buffers.release {Mapping : Type} (buffers : Buffers Mapping)
    (mmapID : Nat) :
    Buffers Mapping where
  emsBufs := Function.update buffers.emsBufs mmapID none
  emsBufLengths := Function.update buffers.emsBufLengths mmapID 0
  emsBufFilenames := Function.update buffers.emsBufFilenames mmapID
    ((buffers.emsBufFilenames mmapID).set 0 0)

/-- Release all the resources associated with an EMS array. -/
def EMSdestroy (system : DestroyCalls) (mmapID : Nat) (do_unlink : Bool)
    (process : Process) :
    Bool × Process :=
  -- "Unable to unmap memory"
  if !system.munmap then (false, process)
  else
    let process := process.munmap (addressOf (process.buffers.emsBufs mmapID))
      (process.buffers.emsBufLengths mmapID)
    -- "Unable to unlink file"
    if do_unlink && !system.unlink then (false, process)
    else (true, { process with buffers := process.buffers.release mmapID })

inductive ProcessCall where
  | create (args : InitializeArgs) (system : SystemCalls Region) (mem : EmsMem)
  | destroy (system : DestroyCalls) (mmapID : Nat) (do_unlink : Bool)

/-- One call that returns.  The memory of a region that is mapped can be any. -/
inductive ProcessStep : Process → ProcessCall → Process → Prop where
  | create {process : Process} {patience : Nat}
      {system : SystemCalls Region} {fe : FE}
      {nElem : Int} {args : InitializeArgs} {bufInt32 : ControlBlock}
      {ledger after : Ledger}
      {res : InitializeRes Region} :
      (∀ region, system.mmap = some region →
      process.Maps region args.layout.fileSz) →
      heapSolo.Returns (args.code patience system fe nElem process.buffers
        bufInt32) ledger res
        after →
      ProcessStep process (.create args system ledger.buf.mem)
        (process.initialized system res)
  | destroy {process : Process} {system : DestroyCalls} {mmapID : Nat}
      {do_unlink : Bool} :
      mmapID < EMS_MAX_N_BUFS →
      ProcessStep process (.destroy system mmapID do_unlink)
        (EMSdestroy system mmapID do_unlink process).2

/-- The entries of the table are those of the regions that are mapped. -/
structure Process.Consistent (process : Process) : Prop where
  points : ∀ i < EMS_MAX_N_BUFS, (process.buffers.emsBufs i).isSome ↔
    ∃ region ∈ process.mapped, process.buffers.emsBufs i = some region
  entered : ∀ region ∈ process.mapped, region ∈ process.reported →
    ∃! i, i < EMS_MAX_N_BUFS ∧ process.buffers.emsBufs i = some region
  gone : ∀ i < EMS_MAX_N_BUFS, ∀ region,
    process.buffers.emsBufs i = some region →
    region ∉ process.unmapped

/-- A call that maps a region can fill it, and one that unmaps a region and is
to unlink its file can do so. -/
def ProcessCall.Harmless (process : Process) : ProcessCall → Prop
  | .create args system mem => system.Maps → ServesFill args mem
  | .destroy system mmapID do_unlink =>
      (process.buffers.emsBufs mmapID).isSome → system.munmap → do_unlink →
        system.unlink

/-! ## Filling, whatever is in the memory -/

section Memory

variable {args : InitializeArgs} {patience : Nat} {nElem idx : Int}
  {ledger after : Ledger}

/-- A fill with text asks the allocator, and no other does. -/
theorem fillData_mem {result : Except Int Unit}
    (returned : heapSolo.Returns
      (fillData patience args idx) ledger result after) :
    match result with
    | .ok () =>
        (args.doDataFill → IsValue args.fillValue.type ∧
          (args.fillValue.type.IsText →
            Serves ledger.buf.mem (args.fillValue.length + 1))) ∧
        after.buf.mem = if args.doDataFill ∧ args.fillValue.type.IsText then
          servedMem ledger.buf.mem (args.fillValue.length + 1)
            else ledger.buf.mem
    | .error result => args.doDataFill ∧
        (args.fillValue.type.IsText ∧
            ¬ Serves ledger.buf.mem (args.fillValue.length + 1) ∧
            result = 0 ∨
          ¬ IsValue args.fillValue.type ∧ result = -1) := by
  rw [fillData] at returned
  cases fills : args.doDataFill with
  | false =>
      simp only [fills] at returned
      obtain ⟨rfl, rfl⟩ := Solo.returns_ret_iff.mp returned
      simp
  | true =>
      simp only [fills, if_true, fillElement] at returned
      cases type : args.fillValue.type with
      | boolean | integer | float | undefined =>
          simp only [type, store_returns] at returned
          obtain ⟨rfl, rfl⟩ := Solo.returns_ret_iff.mp returned
          simp [IsValue, EMSType.IsText]
      | invalid | unassigned =>
          simp only [type] at returned
          obtain ⟨rfl, rfl⟩ := Solo.returns_ret_iff.mp returned
          simp [IsValue]
      | json | string =>
          simp only [type] at returned
          obtain ⟨address, requested, asked, continued⟩ :=
            Solo.returns_bind_iff.mp returned
          obtain ⟨mem, answer, rfl⟩ := emsMutexMem_alloc_returns asked
          have serves := serves_of_answer answer
          split at continued
          · next negative =>
              obtain ⟨rfl, rfl⟩ := Solo.returns_ret_iff.mp continued
              refine ⟨rfl, .inl ⟨by simp [EMSType.IsText], ?_, rfl⟩⟩
              rw [serves]
              omega
          · next positive =>
              rw [store_returns] at continued
              have copied := copyToHeap_returns continued
              obtain ⟨rfl, rfl⟩ := Solo.returns_ret_iff.mp copied
              refine ⟨fun _ => ⟨by
                simp [IsValue], fun _ => serves.mpr (by omega)⟩, ?_⟩
              simp [EMSType.IsText, servedMem, answer, Ledger.allocated]

theorem tagElement_mem {α : Type} {tag : Tag} {value : α}
    {rest : Unit → EmsProg α}
    (returned : heapSolo.Returns
      (tagElement args nElem idx tag >>= rest) ledger value after) :
    ∃ between, between.buf.mem = ledger.buf.mem ∧
      heapSolo.Returns (rest ()) between value after := by
  obtain ⟨tagged, sameMem, continued⟩ : ∃ tagged : Ledger,
      tagged.buf.mem = ledger.buf.mem ∧
      heapSolo.Returns (resetSlot args nElem idx >>= rest) tagged
          value after := by
    rw [tagElement] at returned
    cases stores : args.doSetFEtags || args.doDataFill with
    | false =>
        simp only [stores, Bool.false_eq_true, if_false] at returned
        exact ⟨ledger, rfl, returned⟩
    | true =>
        simp only [stores, if_true, bind_assoc, storeTag_returns] at returned
        exact ⟨ledger.setTag (EMSdataCell idx) tag, rfl, returned⟩
  rw [resetSlot] at continued
  cases mapped : args.useMap with
  | false =>
      simp only [mapped, Bool.false_eq_true, if_false] at continued
      exact ⟨tagged, sameMem, continued⟩
  | true =>
      simp only [mapped, if_true, bind_assoc, storeFE_returns] at continued
      cases existing : args.useExisting with
      | true =>
          simp only [existing, if_true] at continued
          exact ⟨tagged.setTag (EMSmapCell nElem idx) _, sameMem, continued⟩
      | false =>
          simp only [existing, Bool.false_eq_true, if_false,
            storeType_returns] at continued
          exact ⟨(tagged.setTag (EMSmapCell nElem idx) _).setTag
            (EMSmapCell nElem idx) _, sameMem,
            continued⟩

/-- The loop fills the share, or ends where it cannot.  It returns 0 where the
allocator refuses a text. -/
theorem initializeElements_mem {fe : FE} {share : List Int}
    {outcome : Except Int Unit}
    (returned : heapSolo.Returns
      (initializeElements patience args nElem share fe) ledger outcome
      after) :
    match outcome with
    | .ok () => args.Fillable share.length ledger.buf.mem
    | .error result => ¬ args.Fillable share.length ledger.buf.mem ∧
        (args.fillValue.type.IsText ∧ result = 0 ∨
            ¬ IsValue args.fillValue.type ∧ result = -1) := by
  induction share generalizing fe ledger with
  | nil =>
      obtain ⟨rfl, rfl⟩ := Solo.returns_ret_iff.mp returned
      simp [InitializeArgs.Fillable]
  | cons idx share induction =>
      obtain ⟨filled, between, filling, continued⟩ :=
        Solo.returns_bind_iff.mp returned
      have stored := fillData_mem filling
      rw [List.length_cons, InitializeArgs.fillable_succ]
      cases filled with
      | error reason =>
          obtain ⟨rfl, rfl⟩ := Solo.returns_ret_iff.mp continued
          obtain ⟨fills, ⟨text, refused, rfl⟩ | ⟨unknown, rfl⟩⟩ := stored
          · exact ⟨fun fillable => refused ((fillable.1 fills).2 text),
              .inl ⟨text, rfl⟩⟩
          · exact ⟨fun fillable => unknown (fillable.1 fills).1,
              .inr ⟨unknown, rfl⟩⟩
      | ok =>
          obtain ⟨served, mem⟩ := stored
          obtain ⟨tagged, sameMem, continued⟩ := tagElement_mem continued
          have ended := induction continued
          rw [sameMem, mem] at ended
          cases outcome with
          | error reason => exact ⟨fun fillable => ended.1 fillable.2, ended.2⟩
          | ok => exact ⟨served, ended⟩

end Memory

/-! ## What a call does to the table -/

/-- The ways in which a call of `EMSinitialize` ends. -/
theorem ProcessStep.created {process next : Process} {args : InitializeArgs}
    {system : SystemCalls Region} {mem : EmsMem}
    (step : ProcessStep process (.create args system mem) next) :
    ¬ system.Maps ∧ next = process ∨
      ∃ region, system.Maps ∧ process.Maps region args.layout.fileSz ∧
        ((¬ ServesFill args mem ∧ next = { process with
            mappings := process.mappings + 1
            mapped := region :: process.mapped
            reported := region :: process.reported }) ∨
          ServesFill args mem ∧
            (next = { process with
              mappings := process.mappings + 1
              mapped := region :: process.mapped } ∨
            ∃ i, i < EMS_MAX_N_BUFS ∧ process.buffers.emsBufs i = none ∧ next =
              { process with
                buffers :=
                  process.buffers.enter i region args.layout.fileSz
                    args.filename
                mappings := process.mappings + 1
                mapped := region :: process.mapped
                reported := region :: process.reported })) := by
  cases step with
  | @create _ _ _ _ _ _ ledger _ res fresh returned =>
      rcases EMSinitialize_ends returned with
        ⟨closed, -, same, -⟩ | ⟨region, outcome, maps, mapping, looped, ended⟩
      · refine .inl ⟨closed, ?_⟩
        simp only [Process.initialized, if_neg closed, same]
      · have filled := initializeElements_mem looped
        rw [headed_mem] at filled
        have made : process.initialized system res = { process with
            buffers := res.buffers
            mappings := process.mappings + 1
            mapped := region :: process.mapped
            reported := if 0 ≤ res.result then region :: process.reported
              else process.reported } := by
          simp only [Process.initialized, if_pos maps, mapping]
        refine .inr ⟨region, maps, fresh region mapping, ?_⟩
        rw [made]
        cases outcome with
        | error result =>
            obtain ⟨rfl, same⟩ := ended
            obtain ⟨unfillable, ⟨text, zero⟩ | ⟨unknown, negative⟩⟩ := filled
            · refine .inl ⟨fun serves => unfillable (serves text), ?_⟩
              rw [same, zero, if_pos le_rfl]
            · refine .inr ⟨fun text => absurd ?_ unknown, .inl ?_⟩
              · rcases text with type | type <;> simp [type, IsValue]
              · rw [same, negative, if_neg (by decide)]
        | ok =>
            refine .inr ⟨fun _ => filled, ?_⟩
            simp only at ended
            split at ended
            · next found =>
              obtain ⟨result, entered⟩ := ended
              refine .inr ⟨_, found, findBuf_free (by omega), ?_⟩
              rw [entered, if_pos (by omega)]
            · obtain ⟨result, same⟩ := ended
              refine .inl ?_
              rw [same, if_neg (by omega)]

/-! ## The invariant -/

/-- What holds of a process between two calls.  The regions are numbered, and
those that are mapped are apart, so that unmapping one of them leaves the others
alone. -/
structure Process.Coherent (process : Process) : Prop where
  points : ∀ i region, process.buffers.emsBufs i = some region →
    i < EMS_MAX_N_BUFS ∧ region ∈ process.mapped
  distinct : ∀ i j region, process.buffers.emsBufs i = some region →
    process.buffers.emsBufs j = some region → i = j
  lengths : ∀ i, process.buffers.emsBufLengths i =
    (process.buffers.emsBufs i).elim 0 Region.length
  entered : ∀ region ∈ process.mapped, region ∈ process.reported →
    ∃ i, process.buffers.emsBufs i = some region
  gone : ∀ region ∈ process.mapped, region ∉ process.unmapped
  numbered : ∀ region, region ∈ process.mapped ∨ region ∈ process.reported ∨
    region ∈ process.unmapped → region.serial < process.mappings
  positive : ∀ region ∈ process.mapped, 0 < region.length
  apart : ∀ first ∈ process.mapped, ∀ second ∈ process.mapped, first ≠ second →
    ¬ first.Overlaps second.address second.length

theorem Process.fresh_coherent : Process.fresh.Coherent where
  points := by simp [Process.fresh]
  distinct := by simp [Process.fresh]
  lengths := by simp [Process.fresh]
  entered := by simp [Process.fresh]
  gone := by simp [Process.fresh]
  numbered := by simp [Process.fresh]
  positive := by simp [Process.fresh]
  apart := by simp [Process.fresh]

section Coherence

variable {process : Process} {region : Region} {length i : Nat}

theorem Process.Coherent.consistent (coherent : process.Coherent) :
    process.Consistent where
  points := by
    intro i inTable
    constructor
    · intro entry
      obtain ⟨region, here⟩ := Option.isSome_iff_exists.mp entry
      exact ⟨region, (coherent.points i region here).2, here⟩
    · rintro ⟨region, -, here⟩
      rw [here]
      rfl
  entered := by
    intro region mapped reported
    obtain ⟨i, here⟩ := coherent.entered region mapped reported
    refine ⟨i, ⟨(coherent.points i region here).1, here⟩, ?_⟩
    rintro j ⟨-, there⟩
    exact coherent.distinct j i region there here
  gone := by
    intro i _ region here
    exact coherent.gone region (coherent.points i region here).2

theorem Process.Maps.new (maps : process.Maps region length)
    (coherent : process.Coherent)
    {other : Region} (known :
      other ∈ process.mapped ∨ other ∈ process.reported ∨
      other ∈ process.unmapped) : other ≠ region := by
  rintro rfl
  have earlier := coherent.numbered other known
  have now := maps.serial
  omega

/-- A new region for which nothing has been reported. -/
theorem Process.Coherent.map (coherent : process.Coherent)
    (maps : process.Maps region length) :
    Process.Coherent { process with
      mappings := process.mappings + 1
      mapped := region :: process.mapped } where
  points := by
    intro i other here
    obtain ⟨inTable, mapped⟩ := coherent.points i other here
    exact ⟨inTable, List.mem_cons_of_mem _ mapped⟩
  distinct := coherent.distinct
  lengths := coherent.lengths
  entered := by
    intro other mapped reported
    rcases List.mem_cons.mp mapped with rfl | mapped
    · exact absurd rfl (maps.new coherent (.inr (.inl reported)))
    · exact coherent.entered other mapped reported
  gone := by
    intro other mapped unmapped
    rcases List.mem_cons.mp mapped with rfl | mapped
    · exact absurd rfl (maps.new coherent (.inr (.inr unmapped)))
    · exact coherent.gone other mapped unmapped
  numbered := by
    intro other known
    have serial := maps.serial
    rcases known with mapped | known
    · rcases List.mem_cons.mp mapped with rfl | mapped
      · simp only
        omega
      · exact (coherent.numbered other (.inl mapped)).trans (Nat.lt_succ_self _)
    · exact (coherent.numbered other (.inr known)).trans (Nat.lt_succ_self _)
  positive := by
    intro other mapped
    rcases List.mem_cons.mp mapped with rfl | mapped
    · exact maps.positive
    · exact coherent.positive other mapped
  apart := by
    intro first inFirst second inSecond different
    rcases List.mem_cons.mp inFirst with rfl | older
    · rcases List.mem_cons.mp inSecond with rfl | older'
      · exact absurd rfl different
      · have apart := maps.apart second older'
        unfold Region.Overlaps at apart ⊢
        omega
    · rcases List.mem_cons.mp inSecond with rfl | older'
      · exact maps.apart first older
      · exact coherent.apart first older second older' different

/-- A new region with an entry. -/
theorem Process.Coherent.enter (coherent : process.Coherent)
    (maps : process.Maps region length)
    (inTable : i < EMS_MAX_N_BUFS) (free : process.buffers.emsBufs i = none)
    (filename : CString) :
    Process.Coherent { process with
      buffers := process.buffers.enter i region length filename
      mappings := process.mappings + 1
      mapped := region :: process.mapped
      reported := region :: process.reported } := by
  have mapped := coherent.map maps
  have entry : ∀ j other,
      (process.buffers.enter i region length filename).emsBufs j =
      some other → j = i ∧ other = region ∨ process.buffers.emsBufs j =
          some other := by
    intro j other here
    by_cases same : j = i
    · subst same
      simp only [Buffers.enter, Function.update_self] at here
      exact .inl ⟨rfl, (Option.some.inj here).symm⟩
    · simp only [Buffers.enter, Function.update_of_ne same] at here
      exact .inr here
  have noOther : ∀ j, process.buffers.emsBufs j ≠ some region := by
    intro j here
    exact maps.new coherent (.inl (coherent.points j region here).2) rfl
  refine ⟨?_, ?_, ?_, ?_, mapped.gone, ?_, mapped.positive, mapped.apart⟩
  · intro j other here
    rcases entry j other here with ⟨rfl, rfl⟩ | there
    · exact ⟨inTable, List.mem_cons_self⟩
    · exact mapped.points j other there
  · intro j k other first second
    rcases entry j other first with ⟨rfl, rfl⟩ | older
    · rcases entry k _ second with ⟨rfl, -⟩ | older
      · rfl
      · exact absurd older (noOther k)
    · rcases entry k other second with ⟨rfl, rfl⟩ | older'
      · exact absurd older (noOther j)
      · exact coherent.distinct j k other older older'
  · intro j
    by_cases same : j = i
    · subst same
      simp [Buffers.enter, maps.length]
    · simp only [Buffers.enter, Function.update_of_ne same]
      exact coherent.lengths j
  · intro other isMapped reported
    by_cases new : other = region
    · subst new
      exact ⟨i, by simp [Buffers.enter]⟩
    · obtain ⟨j, here⟩ :=
        coherent.entered other (List.mem_of_ne_of_mem new isMapped)
        (List.mem_of_ne_of_mem new reported)
      refine ⟨j, ?_⟩
      have different : j ≠ i := by
        rintro rfl
        simp [free] at here
      simpa only [Buffers.enter, Function.update_of_ne different] using here
  · intro other known
    rcases known with isMapped | reported | unmapped
    · exact mapped.numbered other (.inl isMapped)
    · rcases List.mem_cons.mp reported with rfl | older
      · exact mapped.numbered other (.inl List.mem_cons_self)
      · exact mapped.numbered other (.inr (.inl older))
    · exact mapped.numbered other (.inr (.inr unmapped))

theorem Process.munmap_null : process.munmap 0 0 = process := by
  have nothing : ∀ region : Region, ¬ region.Overlaps 0 0 := by
    intro region overlaps
    have below := overlaps.1
    omega
  simp [Process.munmap, nothing]

theorem Process.Coherent.mem_munmap (coherent : process.Coherent)
    (mapped : region ∈ process.mapped)
    (other : Region) :
    (other ∈ (process.munmap region.address region.length).mapped ↔
      other ∈ process.mapped ∧ other ≠ region) ∧
    (other ∈ (process.munmap region.address region.length).unmapped ↔
      other ∈ process.unmapped ∨ other = region) := by
  have overlaps : ∀ other ∈ process.mapped,
      other.Overlaps region.address region.length ↔ other = region := by
    intro other inMapped
    constructor
    · intro touches
      by_contra different
      exact coherent.apart other inMapped region mapped different touches
    · rintro rfl
      have positive := coherent.positive other mapped
      exact ⟨by omega, by omega⟩
  constructor
  · simp only [Process.munmap, List.mem_filter, decide_eq_true_eq]
    exact and_congr_right fun inMapped => not_congr (overlaps other inMapped)
  · simp only [Process.munmap, List.mem_append, List.mem_filter,
      decide_eq_true_eq]
    refine or_congr_right
      ⟨fun ⟨inMapped, touches⟩ => (overlaps other inMapped).mp touches, ?_⟩
    rintro rfl
    exact ⟨mapped, (overlaps other mapped).mpr rfl⟩

/-- The region of an entry is unmapped, and the entry released. -/
theorem Process.Coherent.release (coherent : process.Coherent)
    (here : process.buffers.emsBufs i = some region) :
    Process.Coherent { process.munmap region.address region.length with
      buffers := process.buffers.release i } := by
  have mapped := (coherent.points i region here).2
  have mem := coherent.mem_munmap mapped
  have entry : ∀ j other, (process.buffers.release i).emsBufs j = some other →
      j ≠ i ∧ process.buffers.emsBufs j = some other := by
    intro j other there
    by_cases same : j = i
    · subst same
      simp [Buffers.release] at there
    · simp only [Buffers.release, Function.update_of_ne same] at there
      exact ⟨same, there⟩
  refine ⟨?_, ?_, ?_, ?_, ?_, ?_, ?_, ?_⟩
  · intro j other there
    obtain ⟨different, before⟩ := entry j other there
    obtain ⟨inTable, otherMapped⟩ := coherent.points j other before
    refine ⟨inTable, (mem other).1.mpr ⟨otherMapped, ?_⟩⟩
    rintro rfl
    exact different (coherent.distinct j i other before here)
  · intro j k other first second
    exact coherent.distinct j k other (entry j other first).2
      (entry k other second).2
  · intro j
    by_cases same : j = i
    · subst same
      simp [Buffers.release]
    · simp only [Buffers.release, Function.update_of_ne same]
      exact coherent.lengths j
  · intro other isMapped reported
    obtain ⟨otherMapped, different⟩ := (mem other).1.mp isMapped
    obtain ⟨j, there⟩ := coherent.entered other otherMapped reported
    refine ⟨j, ?_⟩
    have elsewhere : j ≠ i := by
      rintro rfl
      exact different (Option.some.inj (there.symm.trans here))
    simpa only [Buffers.release, Function.update_of_ne elsewhere] using there
  · intro other isMapped unmapped
    obtain ⟨otherMapped, different⟩ := (mem other).1.mp isMapped
    rcases (mem other).2.mp unmapped with before | now
    · exact coherent.gone other otherMapped before
    · exact different now
  · intro other known
    rcases known with isMapped | reported | unmapped
    · exact coherent.numbered other (.inl ((mem other).1.mp isMapped).1)
    · exact coherent.numbered other (.inr (.inl reported))
    · rcases (mem other).2.mp unmapped with before | rfl
      · exact coherent.numbered other (.inr (.inr before))
      · exact coherent.numbered other (.inl mapped)
  · intro other isMapped
    exact coherent.positive other ((mem other).1.mp isMapped).1
  · intro first inFirst second inSecond different
    exact coherent.apart first ((mem first).1.mp inFirst).1 second
      ((mem second).1.mp inSecond).1
      different

theorem Process.Coherent.release_null (coherent : process.Coherent)
    (free : process.buffers.emsBufs i = none) :
    Process.Coherent { process with buffers := process.buffers.release i } := by
  have length : process.buffers.emsBufLengths i = 0 := by
    rw [coherent.lengths, free]; rfl
  have sameBufs : (process.buffers.release i).emsBufs =
      process.buffers.emsBufs := by
    simp only [Buffers.release, ← free, Function.update_eq_self]
  have sameLengths : (process.buffers.release i).emsBufLengths =
      process.buffers.emsBufLengths := by
    simp only [Buffers.release, ← length, Function.update_eq_self]
  refine ⟨?_, ?_, ?_, ?_, coherent.gone, coherent.numbered, coherent.positive,
    coherent.apart⟩
  · simpa only [sameBufs] using coherent.points
  · simpa only [sameBufs] using coherent.distinct
  · simpa only [sameBufs, sameLengths] using coherent.lengths
  · simpa only [sameBufs] using coherent.entered

/-! ## Calls -/

/-- The ways in which a call of `EMSdestroy` ends. -/
theorem ProcessStep.destroyed {next : Process} {system : DestroyCalls}
    {do_unlink : Bool}
    (coherent : process.Coherent)
    (step : ProcessStep process (.destroy system i do_unlink) next) :
    system.munmap = false ∧ next = process ∨
      process.buffers.emsBufs i = none ∧
        (next = process ∨ next =
          { process with buffers := process.buffers.release i }) ∨
      ∃ region, i < EMS_MAX_N_BUFS ∧ process.buffers.emsBufs i = some region ∧
        (system.munmap ∧ do_unlink ∧ system.unlink = false ∧
            next = process.munmap region.address region.length ∨
          (do_unlink → system.unlink) ∧ next =
            { process.munmap region.address region.length with
              buffers := process.buffers.release i }) := by
  cases step with
  | destroy inTable =>
      rw [EMSdestroy]
      cases unmaps : system.munmap with
      | false => exact .inl ⟨rfl, rfl⟩
      | true =>
          have length := coherent.lengths i
          cases here : process.buffers.emsBufs i with
          | none =>
              rw [here] at length
              simp only [Bool.not_true, Bool.false_eq_true, if_false,
                addressOf, length,
                Option.elim_none, Process.munmap_null]
              split
              · exact .inr (.inl ⟨trivial, .inl rfl⟩)
              · exact .inr (.inl ⟨trivial, .inr rfl⟩)
          | some region =>
              rw [here] at length
              simp only [Bool.not_true, Bool.false_eq_true, if_false,
                addressOf, length,
                Option.elim_some]
              refine .inr (.inr ⟨region, inTable, rfl, ?_⟩)
              split
              · next fails =>
                simp only [Bool.and_eq_true, Bool.not_eq_eq_eq_not,
                  Bool.not_true] at fails
                exact .inl ⟨trivial, fails.1, fails.2, rfl⟩
              · next unlinked =>
                refine .inr ⟨fun asked => ?_, rfl⟩
                simpa [asked] using unlinked

/-- A harmless call keeps the invariant. -/
theorem Process.Coherent.step {next : Process} {call : ProcessCall}
    (coherent : process.Coherent)
    (step : ProcessStep process call next) (harmless : call.Harmless process) :
    next.Coherent := by
  cases call with
  | create args system mem =>
      rcases step.created with
        ⟨-, rfl⟩ | ⟨region, maps, fresh,
          ⟨refused, -⟩ | ⟨-, rfl | ⟨i, inTable, free, rfl⟩⟩⟩
      · exact coherent
      · exact absurd (harmless maps) refused
      · exact coherent.map fresh
      · exact coherent.enter fresh inTable free args.filename
  | destroy system i do_unlink =>
      rcases step.destroyed coherent with
        ⟨-, rfl⟩ | ⟨free, rfl | rfl⟩ |
          ⟨region, -, here, ⟨unmaps, asked, fails, -⟩ | ⟨-, rfl⟩⟩
      · exact coherent
      · exact coherent
      · exact coherent.release_null free
      · have unlinks := harmless (by rw [here]; rfl) unmaps asked
        rw [fails] at unlinks
        cases unlinks
      · exact coherent.release here

/-- Any other call leaves a region without an entry, or an entry without a
region. -/
theorem Process.Coherent.not_consistent {next : Process} {call : ProcessCall}
    (coherent : process.Coherent) (step : ProcessStep process call next)
    (harmful : ¬ call.Harmless process) : ¬ next.Consistent := by
  intro consistent
  cases call with
  | create args system mem =>
      rcases step.created with
        ⟨closed, -⟩ | ⟨region, -, fresh, ⟨-, rfl⟩ | ⟨serves, -⟩⟩
      · exact harmful fun maps => absurd maps closed
      · obtain ⟨i, ⟨-, here⟩, -⟩ :=
          consistent.entered region List.mem_cons_self List.mem_cons_self
        exact fresh.new coherent (.inl (coherent.points i region here).2) rfl
      · exact harmful fun _ => serves
  | destroy system i do_unlink =>
      rcases step.destroyed coherent with
        ⟨fails, -⟩ | ⟨free, -⟩ |
          ⟨region, inTable, here, ⟨-, -, -, rfl⟩ | ⟨unlinks, -⟩⟩
      · refine harmful fun _ unmaps => ?_
        rw [fails] at unmaps
        cases unmaps
      · refine harmful fun entry => ?_
        rw [free] at entry
        cases entry
      · obtain ⟨other, mapped, there⟩ := (consistent.points i inTable).mp (by
          change (process.buffers.emsBufs i).isSome
          rw [here]
          rfl)
        obtain rfl := Option.some.inj (there.symm.trans here)
        exact ((coherent.mem_munmap (coherent.points i other here).2 other).1.mp
          mapped).2 rfl
      · exact harmful fun _ _ asked => unlinks asked

end Coherence

/-! ## Runs -/

/-- One call that does no harm. -/
def HarmlessStep (process : Process) (call : ProcessCall)
    (next : Process) : Prop :=
  ProcessStep process call next ∧ call.Harmless process

theorem harmless_coherent {calls : List ProcessCall} {process : Process}
    (run : Run HarmlessStep Process.fresh calls process) :
    process.Coherent := by
  refine Run.invariant Process.Coherent ?_ run Process.fresh_coherent
  rintro process call next coherent ⟨step, harmless⟩
  exact coherent.step step harmless

/-- After calls that do no harm the table is consistent with the mappings, and
after one more call just when this does no harm either. -/
theorem buffers_consistent {calls : List ProcessCall} {process : Process}
    (run : Run HarmlessStep Process.fresh calls process) :
    process.Consistent ∧ ∀ call next, ProcessStep process call next →
      (next.Consistent ↔ call.Harmless process) := by
  have coherent := harmless_coherent run
  refine ⟨coherent.consistent, fun call next step => ?_⟩
  constructor
  · intro consistent
    by_contra harmful
    exact coherent.not_consistent step harmful consistent
  · exact fun harmless => (coherent.step step harmless).consistent

/-- A process maps an array of two numbers. -/
def firstCall : InitializeArgs := fillWith 2 (scalar .integer 5)

def firstRegion : Region := ⟨0, 4096, firstCall.layout.fileSz⟩

def firstSystem : SystemCalls Region := ⟨true, 3, none, some firstRegion⟩

theorem first_created : ∃ process,
    Run HarmlessStep Process.fresh
      [.create firstCall firstSystem (zeroFile 0).buf.mem] process ∧
      process.buffers.emsBufs 0 = some firstRegion := by
  obtain ⟨res, after, returned, checked⟩ := heapSolo.exists_returns
    (firstCall.code 1 firstSystem .busy 0 Process.fresh.buffers fun _ => 0)
      (zeroFile 0)
    (fun played => played.1.buffers.emsBufs 0 == some firstRegion)
      (by decide +kernel)
  have maps : ∀ region, firstSystem.mmap = some region →
      Process.fresh.Maps region firstCall.layout.fileSz := by
    intro region mapping
    obtain rfl := Option.some.inj mapping
    exact ⟨rfl, rfl, by decide +kernel, by simp [Process.fresh]⟩
  have harmless : ServesFill firstCall (zeroFile 0).buf.mem :=
    fun text => absurd text (by decide)
  refine ⟨_, .snoc .nil ⟨.create maps returned, fun _ => harmless⟩, ?_⟩
  simpa using checked

/-- The region is destroyed, and its file unlinked. -/
theorem buffers_consistent_destroyed : ∃ process,
    Run HarmlessStep Process.fresh
      [.create firstCall firstSystem (zeroFile 0).buf.mem,
      .destroy ⟨true, true⟩ 0 true] process ∧ process.Consistent := by
  obtain ⟨created, run, -⟩ := first_created
  have run' := Run.snoc run
    (⟨.destroy (by decide), fun _ _ _ => rfl⟩ :
      HarmlessStep created (.destroy ⟨true, true⟩ 0 true) _)
  exact ⟨_, run', (buffers_consistent run').1⟩

/-- The region is unmapped, and its file cannot be unlinked. -/
theorem not_buffers_consistent :
    ¬ ∀ (calls : List ProcessCall) (process : Process),
    Run ProcessStep Process.fresh calls process → process.Consistent := by
  intro always
  obtain ⟨created, run, here⟩ := first_created
  have coherent := harmless_coherent run
  have step : ProcessStep created (.destroy ⟨true, false⟩ 0 true) _ :=
    .destroy (by decide)
  have run' := (run.mono fun _ _ _ step => step.1).snoc step
  refine coherent.not_consistent step ?_ (always _ _ run')
  intro harmless
  exact nomatch harmless (by rw [here]; rfl) rfl rfl

end EMS
