import EMS.Initialize
import EMS.Ownership

/-!
# The name of a region

The result of `EMSinitialize` is the index of the mapping in the table of the
process, with which every later call names the region.  A fill with a string
that runs out of the heap returns false, which is the index of another region.
-/

namespace EMS

open SharedProgram

/-! ## The table -/

section Tables

variable {Mapping : Type} {emsBufs : Nat → Option Mapping} {left emsBufN : Nat}

theorem findBuf_free (found : findBuf emsBufs left emsBufN < emsBufN + left) :
    emsBufs (findBuf emsBufs left emsBufN) = none := by
  induction left generalizing emsBufN with
  | zero => exact absurd found (lt_irrefl _)
  | succ left induction =>
      rw [findBuf] at found ⊢
      split at found
      · next taken =>
        rw [if_pos taken]
        exact induction (by omega)
      · next free =>
        rw [if_neg free]
        simpa using free

private theorem findBuf_passed {i : Nat} (lower : emsBufN ≤ i)
    (free : emsBufs i = none) :
    findBuf emsBufs left emsBufN ≤ i := by
  induction left generalizing emsBufN with
  | zero => exact lower
  | succ left induction =>
      rw [findBuf]
      split
      · next taken =>
        refine induction (Nat.lt_of_le_of_ne lower ?_)
        rintro rfl
        simp [free] at taken
      · exact lower

theorem findBuf_lt_iff :
    findBuf emsBufs EMS_MAX_N_BUFS 0 < EMS_MAX_N_BUFS ↔
      ∃ i, i < EMS_MAX_N_BUFS ∧ emsBufs i = none := by
  constructor
  · intro found
    exact ⟨_, found, findBuf_free (by omega)⟩
  · rintro ⟨i, below, free⟩
    exact (findBuf_passed (Nat.zero_le i) free).trans_lt below

end Tables

theorem standsIn_strncpy {text : CString} {n : Nat} :
    StandsIn text (strncpy text n) ↔ text.bytes.length < n := by
  unfold StandsIn strncpy
  constructor
  · rintro ⟨-, ends⟩
    by_contra long
    rw [Nat.sub_eq_zero_of_le (not_lt.mp long), List.replicate_zero,
      List.append_nil] at ends
    exact text.terminated 0 (List.mem_of_mem_take ends) rfl
  · intro short
    obtain ⟨zeros, positive⟩ : ∃ zeros, n - text.bytes.length = zeros + 1 :=
      ⟨n - text.bytes.length - 1, by omega⟩
    rw [List.take_of_length_le short.le, positive, List.replicate_succ]
    refine ⟨?_, by simp⟩
    rw [List.takeWhile_append_of_pos (by simpa using text.terminated)]
    simp

/-! ## Results -/

section Results

variable {Mapping : Type}

/-- The entry was free, and is now that of the mapping which the call has
made. -/
structure RegionEntered (args : InitializeArgs) (system : SystemCalls Mapping)
    (before after : Buffers Mapping) (i : Nat) : Prop where
  inTable : i < EMS_MAX_N_BUFS
  free : before.emsBufs i = none
  mapping : system.mmap.isSome ∧
    after.emsBufs = Function.update before.emsBufs i system.mmap
  length : after.emsBufLengths =
    Function.update before.emsBufLengths i args.layout.fileSz
  filename : StandsIn args.filename (after.emsBufFilenames i)
  others : ∀ j, j ≠ i → after.emsBufFilenames j = before.emsBufFilenames j

/-- The element is as the options ask. -/
structure InitializedAsAsked (args : InitializeArgs) (ledger : Ledger)
    (idx : Int) : Prop
    extends ElementInitialized args ledger idx where
  tag : args.doDataFill ∨ args.doSetFEtags →
    (ledger.buf.tag (EMSdataCell idx)).type =
        (if args.doDataFill then args.fillValue.type else .undefined) ∧
      (ledger.buf.tag (EMSdataCell idx)).rw = 0
  state : args.doSetFEtags → (ledger.buf.tag (EMSdataCell idx)).fe =
    if args.setFEtagsFull then .full else .empty

/-- The file can be mapped, the share filled, and the mapping entered. -/
def CanComplete (args : InitializeArgs) (system : SystemCalls Mapping)
    (buffers : Buffers Mapping)
    (mem : EmsMem) : Prop :=
  system.Maps ∧ args.Fillable args.share.length mem ∧
    ∃ i, i < EMS_MAX_N_BUFS ∧ buffers.emsBufs i = none

/-- A result that is not negative names the region, and a call that cannot
complete returns a negative one and leaves the table alone. -/
structure NamesRegion (args : InitializeArgs) (system : SystemCalls Mapping)
    (buffers : Buffers Mapping) (ledger : Ledger) (res : InitializeRes Mapping)
    (after : Ledger) :
    Prop where
  named : 0 ≤ res.result → ∃ i : Nat, res.result = i ∧
    RegionEntered args system buffers res.buffers i ∧
    ∀ idx ∈ args.share, InitializedAsAsked args after idx
  failed : ¬ CanComplete args system buffers ledger.buf.mem → res.result < 0
  unchanged : res.result < 0 → res.buffers = buffers

/-- The fill value is not a string, or the heap has room for all its copies. -/
def ServesFill (args : InitializeArgs) (mem : EmsMem) : Prop :=
  args.fillValue.type.IsText → args.Fillable args.share.length mem

variable {args : InitializeArgs} {system : SystemCalls Mapping}
  {buffers : Buffers Mapping}
  {level : Nat} {fe : FE} {ledger after : Ledger}

theorem ShareInitialized.asAsked
    (initialized : ShareInitialized args level fe args.share ledger after) :
    ∀ idx ∈ args.share, InitializedAsAsked args after idx := by
  intro idx member
  have tag := initialized.dataTags idx member
  refine ⟨initialized.elements idx member, ?_, ?_⟩
  · intro asks
    have stores : (args.doSetFEtags || args.doDataFill) = true := by
      simpa [or_comm] using asks
    rw [tag, InitializeArgs.finalTag, if_pos stores]
    exact ⟨rfl, rfl⟩
  · intro asks
    have stores : (args.doSetFEtags || args.doDataFill) = true := by simp [asks]
    rw [tag, InitializeArgs.finalTag, if_pos stores, InitializeArgs.elementTag,
      if_pos asks]

theorem RegionEntered.of_enter {emsBuf : Mapping} {i : Nat}
    (inTable : i < EMS_MAX_N_BUFS)
    (free : buffers.emsBufs i = none) (mapping : system.mmap = some emsBuf)
    (short : args.filename.bytes.length < MAX_FNAME_LEN) :
    RegionEntered args system buffers
      (buffers.enter i emsBuf args.layout.fileSz args.filename) i where
  inTable := inTable
  free := free
  mapping := by simp [mapping, Buffers.enter]
  length := rfl
  filename := by
    simp only [Buffers.enter, Function.update_self]
    exact standsIn_strncpy.mpr short
  others := by
    intro j different
    simp [Buffers.enter, different]

/-- The result names the region exactly when a fill with a string does not run
out of the heap, and the name of the file fits where it is recorded. -/
theorem EMSinitialize_names_region {patience : Nat} {nElem : Int}
    {bufInt32 : ControlBlock}
    {res : InitializeRes Mapping} (positive : 0 < args.nThreads)
    (fits : args.doDataFill → args.fillValue.TextFits)
    (sameSize : 0 < args.nElements → args.WritesHeader ∨ nElem = args.nElements)
    (shape : ∃ tree, HeapShape level ⟨ledger.buf.mem, ledger.live⟩ tree)
    (returned : heapSolo.Returns
      (args.code patience system fe nElem buffers bufInt32) ledger res
      after) :
    NamesRegion args system buffers ledger res after ↔
      (system.Maps → ServesFill args ledger.buf.mem) ∧
        (CanComplete args system buffers ledger.buf.mem →
          args.filename.bytes.length < MAX_FNAME_LEN) := by
  rcases EMSinitialize_returns sameSize positive returned with
    ⟨closed, failed, same, -⟩ | ⟨emsBuf, outcome, maps, mapping, looped, ended⟩
  · refine ⟨fun _ => ⟨fun maps => absurd maps closed,
      fun can => absurd can.1 closed⟩, fun _ => ?_⟩
    refine ⟨fun wrong => ?_, fun _ => ?_, fun _ => same⟩
    · omega
    · omega
  · have share :=
      initializeElements_returns fits (InitializeArgs.share_inside positive)
      (by rw [headed_mem, headed_live]; exact shape) looped
    cases outcome with
    | error result =>
        obtain ⟨rfl, same⟩ := ended
        obtain ⟨unfillable, reasons⟩ := share
        rw [headed_mem] at unfillable
        have cannot : ¬ CanComplete args system buffers ledger.buf.mem :=
          fun can => unfillable can.2.1
        constructor
        · intro names
          have negative := names.failed cannot
          refine ⟨fun _ text => ?_, fun can => absurd can cannot⟩
          rcases reasons with ⟨-, zero⟩ | ⟨unknown, -⟩
          · omega
          · exact absurd
              (by rcases text with type | type <;> simp [type, IsValue]) unknown
        · rintro ⟨serves, -⟩
          rcases reasons with ⟨text, -⟩ | ⟨-, negative⟩
          · exact absurd (serves maps text) unfillable
          · refine ⟨fun wrong => ?_, fun _ => ?_, fun _ => same⟩
            · omega
            · omega
    | ok =>
        replace share : ShareInitialized args level fe args.share
          (headed args ledger) after := share
        have fillable := share.fillable
        rw [headed_mem] at fillable
        simp only at ended
        split at ended
        · next found =>
          obtain ⟨result, entered⟩ := ended
          have can : CanComplete args system buffers ledger.buf.mem :=
            ⟨maps, fillable, findBuf_lt_iff.mp found⟩
          constructor
          · intro names
            obtain ⟨i, isResult, region, -⟩ := names.named (by omega)
            refine ⟨fun _ _ => fillable, fun _ => standsIn_strncpy.mp ?_⟩
            have recorded := region.filename
            obtain rfl : findBuf buffers.emsBufs EMS_MAX_N_BUFS 0 =
              i := by omega
            rw [entered] at recorded
            simpa [Buffers.enter] using recorded
          · rintro ⟨-, short⟩
            refine ⟨fun _ => ⟨_, result, ?_, share.asAsked⟩,
              fun cannot => absurd can cannot, ?_⟩
            · rw [entered]
              exact .of_enter found (findBuf_free (by omega))
                mapping (short can)
            · omega
        · next full =>
          obtain ⟨result, same⟩ := ended
          have cannot : ¬ CanComplete args system buffers ledger.buf.mem :=
            fun can => full (findBuf_lt_iff.mpr can.2.2)
          refine ⟨fun _ => ⟨fun _ _ => fillable, fun can => absurd can cannot⟩,
            fun _ => ?_⟩
          refine ⟨fun wrong => ?_, fun _ => ?_, fun _ => same⟩
          · omega
          · omega

end Results

/-! ## Runs -/

section Runs

/-- The operating system answers the mapping. -/
def mapsTo (emsBuf : Nat) : SystemCalls Nat := ⟨true, 3, none, some emsBuf⟩

def emptyBuffers : Buffers Nat :=
  ⟨fun _ => none, fun _ => 0, fun _ => List.replicate MAX_FNAME_LEN 0⟩

/-- The arguments of one process that makes a region, filled with the value. -/
def fillWith (nElements : Int) (fillValue : EMSvalueType) : InitializeArgs where
  nElements := nElements
  heapSize := 0
  useMap := false
  filename := hi.text
  useExisting := false
  doDataFill := true
  fillValue := fillValue
  doSetFEtags := true
  setFEtagsFull := true
  EMSmyID := 0
  nThreads := 1

theorem EMSinitialize_names_region_integer :
    ∃ res after, heapSolo.Returns
      ((fillWith 2 (scalar .integer 5)).code 1 (mapsTo 7) .busy 0
        emptyBuffers fun _ => 0) (zeroFile 0) res after ∧
      res.result = 0 ∧
      NamesRegion (fillWith 2 (scalar .integer 5)) (mapsTo 7) emptyBuffers
        (zeroFile 0) res after := by
  obtain ⟨res, after, returned, checked⟩ := heapSolo.exists_returns
    ((fillWith 2 (scalar .integer 5)).code 1 (mapsTo 7) .busy 0
      emptyBuffers fun _ => 0)
    (zeroFile 0) (fun played => played.1.result == 0) (by decide +kernel)
  refine ⟨res, after, returned, by simpa using checked, ?_⟩
  refine (EMSinitialize_names_region (by decide) ?_ (fun _ => .inl ?_)
    ⟨_, HeapShape.fresh 0⟩ returned).mpr ⟨fun _ text => ?_, fun _ => ?_⟩
  · intro _ text
    exact absurd text (by decide)
  · decide
  · exact absurd text (by decide)
  · decide

/-- The heap has one block, and the string is to be stored twice.  The result is
0, and there is no region 0. -/
theorem not_EMSinitialize_names_region :
    ¬ ∀ (args : InitializeArgs) (system : SystemCalls Nat)
      (buffers : Buffers Nat) (level : Nat)
      (fe : FE) (nElem : Int) (bufInt32 : ControlBlock) (patience : Nat)
        (ledger after : Ledger)
      (res : InitializeRes Nat), 0 < args.nThreads →
      (args.doDataFill → args.fillValue.TextFits) →
      (0 < args.nElements → args.WritesHeader ∨ nElem = args.nElements) →
      (∃ tree, HeapShape level ⟨ledger.buf.mem, ledger.live⟩ tree) →
      heapSolo.Returns (args.code patience system fe nElem buffers bufInt32)
        ledger res after →
      NamesRegion args system buffers ledger res after := by
  intro names
  obtain ⟨res, after, returned, checked⟩ := heapSolo.exists_returns
    ((fillWith 2 hi).code 1 (mapsTo 7) .busy 0 emptyBuffers fun _ => 0)
    (zeroFile 0) (fun played =>
      played.1.result == 0 && (played.1.buffers.emsBufs 0).isNone)
    (by decide +kernel)
  simp only [Bool.and_eq_true, beq_iff_eq, Option.isNone_iff_eq_none] at checked
  obtain ⟨result, noRegion⟩ := checked
  have region :=
    (names (fillWith 2 hi) (mapsTo 7) emptyBuffers 0 .busy 0 (fun _ => 0) 1
    (zeroFile 0) after res (by decide) (fun _ _ => by decide)
      (fun _ => .inl (by decide))
    ⟨_, HeapShape.fresh 0⟩ returned).named (by omega)
  obtain ⟨i, isResult, entered, -⟩ := region
  obtain rfl : i = 0 := by omega
  rw [entered.mapping.2, Function.update_self] at noRegion
  cases noRegion

end Runs

end EMS
