import EMS.FailedElements
import EMS.KeyMap

/-!
# Who owns the live blocks

The live blocks of a heap are those of the elements that are strings, and those
that are kept besides, for the keys of the map.  Nothing is said about what the
blocks hold, so that a text may be longer than its block.
-/

namespace EMS

open SharedProgram

/-- The block of a string stands where the word says.  Any other value has
none. -/
def BlocksOf (type : EMSType) (word : Int) (blocks : List Block) : Prop :=
  if type.IsText then ∃ block, blocks = [block] ∧ word = block.address
    else blocks = []

abbrev OwnsBlocks (buf : EmsBuf) (idx : Nat) (blocks : List Block) : Prop :=
  BlocksOf (buf.tag (EMSdataCell idx)).type (buf.word (EMSdataCell idx)) blocks

/-- The live blocks are exactly those of the elements and those that are
kept. -/
structure OwnedBlocks (array : EmsArray) (level : Nat) (kept : Multiset Block)
    (ledger : Ledger) :
    Prop where
  ordered : ledger.Ordered level
  owners : ∃ blocks : Nat → List Block,
    (∀ i : Nat, (i : Int) < array.nElem → OwnsBlocks ledger.buf i (blocks i)) ∧
    (ledger.live : Multiset Block) =
      kept + ∑ i ∈ Finset.range array.nElem.toNat, (blocks i : Multiset Block)

section Ownership

variable {array : EmsArray} {level idx : Nat} {kept : Multiset Block}
  {store : Store}
  {ledger after : Ledger}

theorem WordHolds.blocksOf {word : Int} {heap : Int → UInt8}
    {value : EMSvalueType}
    {blocks : List Block} (holds : WordHolds word heap value blocks) :
    BlocksOf value.type word blocks := by
  rw [BlocksOf]
  split
  · next text =>
      obtain ⟨block, own, address, -⟩ := (wordHolds_text text).mp holds
      exact ⟨block, own, address⟩
  · next noText => exact holds.no_blocks noText

theorem ElementHolds.owns {value : EMSvalueType} {blocks : List Block}
    (holds : ElementHolds ledger.buf idx value blocks) :
    OwnsBlocks ledger.buf idx blocks := by
  obtain ⟨type, word⟩ := holds
  rw [OwnsBlocks, type]
  exact word.blocksOf

theorem StoreHolds.owned (holds : StoreHolds array level kept store ledger) :
    OwnedBlocks array level kept ledger := by
  obtain ⟨ordered, -, blocks, elements, live⟩ := holds
  exact ⟨ordered, blocks, fun i below => (elements i below).owns, live⟩

theorem OwnsBlocks.congr {buf buf' : EmsBuf} {blocks : List Block}
    (type : (buf'.tag (EMSdataCell idx)).type =
      (buf.tag (EMSdataCell idx)).type)
    (word : buf'.word (EMSdataCell idx) = buf.word (EMSdataCell idx))
    (owns : OwnsBlocks buf idx blocks) : OwnsBlocks buf' idx blocks := by
  rwa [OwnsBlocks, type, word]

/-- The types and words of the elements are as they were, and so is the heap. -/
theorem OwnedBlocks.congr (owned : OwnedBlocks array level kept ledger)
    (ordered : after.Ordered level)
    (type : ∀ i : Nat, (i : Int) < array.nElem →
      (after.buf.tag (EMSdataCell i)).type =
        (ledger.buf.tag (EMSdataCell i)).type)
    (word : ∀ i : Nat, (i : Int) < array.nElem →
      after.buf.word (EMSdataCell i) = ledger.buf.word (EMSdataCell i))
    {more : Multiset Block}
    (live : (after.live : Multiset Block) = more + ledger.live) :
    OwnedBlocks array level (kept + more) after := by
  obtain ⟨-, blocks, owns, total⟩ := owned
  refine ⟨ordered, blocks,
    fun i below => (owns i below).congr (type i below) (word i below), ?_⟩
  rw [live, total, ← add_assoc, add_comm more kept]

/-- The blocks of one element may be exchanged for others. -/
theorem OwnedBlocks.replace (owned : OwnedBlocks array level kept ledger)
    (below : (idx : Int) < array.nElem) :
    ∃ (own : List Block) (rest : Multiset Block),
      OwnsBlocks ledger.buf idx own ∧
      (ledger.live : Multiset Block) = own + rest ∧
      ∀ (after : Ledger) (own' : List Block), after.Ordered level →
        (∀ i : Nat, (i : Int) < array.nElem → i ≠ idx →
          (after.buf.tag (EMSdataCell i)).type =
            (ledger.buf.tag (EMSdataCell i)).type ∧
            after.buf.word (EMSdataCell i) = ledger.buf.word (EMSdataCell i)) →
        OwnsBlocks after.buf idx own' → (after.live : Multiset Block) =
          own' + rest →
        OwnedBlocks array level kept after := by
  obtain ⟨-, blocks, owns, total⟩ := owned
  refine ⟨blocks idx, kept + ∑ i ∈ (Finset.range array.nElem.toNat).erase idx,
    (blocks i : Multiset Block), owns idx below, ?_, ?_⟩
  · rw [total, blocks_split below, add_left_comm]
  · intro after own' ordered others owns' live
    refine ⟨ordered, Function.update blocks idx own', ?_, ?_⟩
    · intro i inside
      by_cases same : i = idx
      · subst same
        simpa using owns'
      · obtain ⟨type, word⟩ := others i inside same
        rw [Function.update_of_ne same]
        exact (owns i inside).congr type word
    · rw [live, blocks_update below, add_left_comm]

end Ownership

/-! ## The allocator -/

section Allocator

variable {level : Nat} {ledger : Ledger} {mem : EmsMem} {bytes : Nat}

theorem Ledger.Ordered.allocated (ordered : ledger.Ordered level)
    (valid : ValidRequest bytes)
    {address : Int} (answer : emsMem_alloc ledger.buf.mem bytes = .ok
      (address, mem))
    (served : 0 ≤ address) :
    (ledger.allocated bytes address mem).Ordered level := by
  obtain ⟨free, tree, shape⟩ := ordered
  obtain ⟨offset, mem', tree', success, shape'⟩ :=
    shape.serve valid ((serves_of_answer answer).mpr served)
  obtain ⟨rfl, rfl⟩ := Prod.mk.inj (Except.ok.inj (answer.symm.trans success))
  refine ⟨free, tree', ?_⟩
  rw [Ledger.allocated, if_pos served]
  exact shape'

/-- A live block that is given back is live no more. -/
theorem Ledger.Ordered.freed (ordered : ledger.Ordered level)
    (small : EMS_MEM_BLOCKSZ * 2 ^ level < 2 ^ 63) {block : Block}
    (member : block ∈ ledger.live)
    (answer : emsMem_free ledger.buf.mem (heapOffset block.address) = .ok mem) :
    (ledger.freed block.address mem).Ordered level ∧
      (ledger.freed block.address mem).live = ledger.live.erase block := by
  obtain ⟨free, tree, shape⟩ := ordered
  have offset : heapOffset block.address = block.address := by
    have inside : block.address + block.length ≤ EMS_MEM_BLOCKSZ * 2 ^ level :=
      shape.inside member
    unfold heapOffset
    omega
  rw [offset] at answer
  obtain ⟨mem', tree', success, shape'⟩ := shape.free member
  obtain rfl := Except.ok.inj (answer.symm.trans success)
  have account := memFree_account small shape member success
  have erased : (ledger.freed block.address mem).live =
      ledger.live.erase block := by
    have live := congrArg (fun result => result.2.live) account
    have found : emsMem_free ledger.buf.mem
        (((block.address : Int) % 2 ^ 64).toNat) = .ok mem := by
      rw [← heapOffset, offset, success]
    simp only [Access.account, Access.perform, found, Access.settle] at live
    exact live
  refine ⟨⟨free, tree', ?_⟩, erased⟩
  rw [erased]
  exact shape'

end Allocator

/-! ## Searching for a slot -/

section Search

variable {array : EmsArray} {level : Nat} {kept : Multiset Block}
  {ledger after : Ledger}
  {key : EMSvalueType} {slot : Int} {patience : Nat}

/-- The heap is in order, and blocks may have been added. -/
def Ledger.Grows (level : Nat) (ledger after : Ledger) : Prop :=
  after.Ordered level ∧ ∃ blocks : List Block,
    after.live = blocks ++ ledger.live

theorem Ledger.Grows.refl (ordered : ledger.Ordered level) :
    ledger.Grows level ledger :=
  ⟨ordered, [], rfl⟩

theorem Ledger.Grows.congr {between : Ledger}
    (grows : ledger.Grows level between)
    (mutex : after.buf.memMutex = between.buf.memMutex)
    (mem : after.buf.mem = between.buf.mem)
    (live : after.live = between.live) : ledger.Grows level after := by
  obtain ⟨ordered, blocks, grown⟩ := grows
  exact ⟨ordered.congr mutex mem live, blocks, live.trans grown⟩

theorem insertKey_grows (ordered : ledger.Ordered level)
    (fits : key.type = .string → ValidRequest (key.length + 1))
    (returned : heapSolo.Returns (insertKey patience array key slot) ledger
      (.ok ()) after) :
    ledger.Grows level after := by
  have grows := Ledger.Grows.refl ordered
  rw [insertKey, storeType_returns] at returned
  cases type : key.type with
  | boolean | integer | float | undefined =>
      simp only [type, store_returns] at returned
      obtain ⟨-, rfl⟩ := Solo.returns_ret_iff.mp returned
      exact grows.congr rfl rfl rfl
  | json | invalid | unassigned =>
      simp only [type] at returned
      obtain ⟨-, rfl⟩ := Solo.returns_ret_iff.mp returned
      exact grows.congr rfl rfl rfl
  | string =>
      simp only [type] at returned
      obtain ⟨address, between, requested, continued⟩ :=
        Solo.returns_bind_iff.mp returned
      obtain ⟨mem, answer, rfl⟩ := emsMutexMem_alloc_returns requested
      split at continued
      · cases (Solo.returns_ret_iff.mp continued).1
      · next served =>
          rw [store_returns] at continued
          have copied := copyToHeap_returns continued
          obtain ⟨-, rfl⟩ := Solo.returns_ret_iff.mp copied
          have typed : (ledger.setTag (EMSmapCell array.nElem slot)
              { ledger.buf.tag (EMSmapCell array.nElem slot) with type :=
                  .string }).Ordered level :=
            ordered.congr rfl rfl rfl
          have inOrder := typed.allocated (fits type) answer (by omega)
          exact ⟨inOrder.congr rfl rfl rfl, [_], if_pos (by omega)⟩

variable [CRuntime]

theorem writeProbe_grows (ordered : ledger.Ordered level)
    (fits : key.type = .string → ValidRequest (key.length + 1))
    {tries : Nat} {idx : Int}
    (returned : heapSolo.Returns
      (writeProbe patience array key tries idx) ledger slot after)
    (inside : 0 ≤ slot) : ledger.Grows level after := by
  induction tries generalizing idx with
  | zero =>
      obtain ⟨rfl, -⟩ := Solo.returns_ret_iff.mp returned
      exact absurd inside (by decide)
  | succ tries induction =>
      rw [writeProbe] at returned
      obtain ⟨full, continued⟩ := transition_returns returned
      split at continued
      · next free =>
          obtain ⟨inserted, between, placed, ended⟩ :=
            Solo.returns_bind_iff.mp continued
          cases inserted with
          | error error =>
              obtain ⟨rfl, -⟩ := Solo.returns_ret_iff.mp ended
              exact absurd inside (by decide)
          | ok _ =>
              obtain ⟨-, rfl⟩ := Solo.returns_ret_iff.mp ended
              have held : (ledger.setTag
                  (EMSmapCell array.nElem (idx.tmod array.nElem))
                  { ledger.buf.tag (EMSmapCell array.nElem
                      (idx.tmod array.nElem)) with
                    fe := .busy }).Ordered level :=
                ordered.congr rfl rfl rfl
              have grows := insertKey_grows held fits placed
              exact grows
      · next bound =>
          rw [writeMatches_returns (by simp)] at continued
          simp only [Ledger.setTag_buf, writeFinds_setTag] at continued
          split at continued
          · cases type : (ledger.buf.tag
                (EMSmapCell array.nElem (idx.tmod array.nElem))).type with
            | boolean | integer | float | string =>
                simp only [type] at continued
                rw [← type, storeFE_released full] at continued
                obtain ⟨-, rfl⟩ := Solo.returns_ret_iff.mp continued
                exact .refl ordered
            | undefined => exact absurd type bound
            | json | invalid | unassigned =>
                simp only [type] at continued
                obtain ⟨-, rfl⟩ := Solo.returns_ret_iff.mp continued
                exact (Ledger.Grows.refl ordered).congr rfl rfl rfl
          · rw [storeFE_released full] at continued
            exact induction continued

private theorem EMSwriteIndexMap_grows (ordered : ledger.Ordered level)
    (fits : key.type = .string → ValidRequest (key.length + 1))
    (returned : heapSolo.Returns
      (EMSwriteIndexMap patience array key) ledger slot after)
    (inside : 0 ≤ slot) : ledger.Grows level after := by
  rw [EMSwriteIndexMap] at returned
  obtain ⟨first, between, looked, continued⟩ :=
    Solo.returns_bind_iff.mp returned
  obtain ⟨rfl, rfl⟩ := EMSkey2index_returns looked
  split at continued
  · obtain ⟨-, rfl⟩ := Solo.returns_ret_iff.mp continued
    exact .refl ordered
  · obtain ⟨second, between, reduced, ended⟩ :=
      Solo.returns_bind_iff.mp continued
    obtain ⟨rfl, rfl⟩ := EMSkey2index_returns reduced
    split at ended
    · exact writeProbe_grows ordered fits ended inside
    · split at ended
      · obtain ⟨-, rfl⟩ := Solo.returns_ret_iff.mp ended
        exact .refl ordered
      · obtain ⟨-, rfl⟩ := Solo.returns_ret_iff.mp ended
        exact .refl ordered

/-- A search adds at most the block of a new key, which belongs to no
element. -/
theorem OwnedBlocks.searched (owned : OwnedBlocks array level kept ledger)
    (positive : 0 < array.nElem)
    (fits : key.type = .string → ValidRequest (key.length + 1))
    (returned : heapSolo.Returns
      (EMSwriteIndexMap patience array key) ledger slot after)
    (inside : 0 ≤ slot) :
    ∃ keyBlocks : List Block, after.live = keyBlocks ++ ledger.live ∧
      OwnedBlocks array level (kept + keyBlocks) after := by
  obtain ⟨ordered, blocks, grown⟩ :=
    EMSwriteIndexMap_grows owned.ordered fits returned inside
  have taken := EMSwriteIndexMap_returns positive returned
  have same : ∀ i : Nat, (i : Int) < array.nElem →
      after.buf.tag (EMSdataCell i) = ledger.buf.tag (EMSdataCell i) ∧
        after.buf.word (EMSdataCell i) = ledger.buf.word (EMSdataCell i) := by
    intro i below
    apply taken.others
    intro other takes
    obtain rfl := SlotSearch.At.unique (.inr takes) (taken.ends inside)
    exact data_ne_map inside i below
  refine ⟨blocks, grown,
    owned.congr ordered ?_ (fun i below => (same i below).2) ?_⟩
  · exact fun i below => congrArg Tag.type (same i below).1
  · rw [grown, Multiset.coe_add]

end Search

end EMS
