import EMS.Slots
import Mathlib.Algebra.BigOperators.Group.Finset.Basic

/-!
# The ledger of the heap

The memory together with the blocks that have been handed out and not given
back, and whether a block was ever given back that was not out.  A process that
is alone and frees what it owns keeps the ledger in order.
-/

namespace EMS

open SharedProgram

/-- A memory with the account of its heap. -/
structure Ledger where
  buf : EmsBuf
  live : List Block
  misfreed : Bool

/-- The offset that `emsMem_free` gets for an address. -/
def heapOffset (address : Int) : Nat := (address % 2 ^ 64).toNat

/-- The live blocks after an access. -/
def Access.settle (act : Access) (reply : Reply act) (live : List Block) :
    List Block :=
  match act, reply with
  | .memAlloc bytes, .ok address =>
      if 0 ≤ address then ⟨address.toNat, bytes⟩ :: live else live
  | .memFree address, .ok () => live.eraseP fun block =>
      block.address = heapOffset address
  | _, _ => live

/-- The access gives back a block that is not live. -/
def Access.misfrees (act : Access) (live : List Block) : Bool :=
  match act with
  | .memFree address => !live.any fun block =>
      block.address = heapOffset address
  | _ => false

/-- One access, with its entry in the account. -/
def Access.account (act : Access) (ledger : Ledger) : Reply act × Ledger :=
  ((act.perform ledger.buf).1,
    { buf := (act.perform ledger.buf).2
      live := act.settle (act.perform ledger.buf).1 ledger.live
      misfreed := ledger.misfreed || act.misfrees ledger.live })

/-- The allocator does not refuse the access. -/
def Access.Served (act : Access) (ledger : Ledger) : Prop :=
  match act with
  | .memAlloc bytes => Serves ledger.buf.mem bytes
  | _ => True

instance Access.decidableServed : (act : Access) → (ledger : Ledger) →
    Decidable (act.Served ledger)
  | .memAlloc bytes, ledger =>
    inferInstanceAs (Decidable (Serves ledger.buf.mem bytes))
  | .load _, _ | .store _ _, _ | .loadTag _, _ | .storeTag _ _,
        _ | .casTag _ _ _, _
  | .casMutex _ _, _ | .storeMutex _, _ | .memFree _, _ | .loadByte _, _
  | .storeByte _ _, _ => isTrue trivial

/-- A process alone on a memory whose allocator refuses nothing. -/
abbrev ledgerSolo : Solo Ledger Access Reply where
  perform := Access.account
  given := Access.Served
  allows := fun _ => True
  spins := True

/-- The allocator's mutex is free, and what it has handed out is what is
live. -/
structure Ledger.Ordered (level : Nat) (ledger : Ledger) : Prop where
  mutex : ledger.buf.memMutex = .empty
  shape : ∃ tree, HeapShape level ⟨ledger.buf.mem, ledger.live⟩ tree

theorem Ledger.Ordered.congr {level : Nat} {ledger ledger' : Ledger}
    (ordered : ledger.Ordered level)
    (mutex : ledger'.buf.memMutex = ledger.buf.memMutex)
    (mem : ledger'.buf.mem = ledger.buf.mem)
    (live : ledger'.live = ledger.live) :
    ledger'.Ordered level := by
  obtain ⟨free, tree, shape⟩ := ordered
  exact ⟨mutex.trans free, tree, by rwa [mem, live]⟩

/-! ## Accesses that are not accounted for -/

/-- An access that is not a call of the allocator. -/
def Access.Quiet : Access → Prop
  | .memAlloc _ | .memFree _ => False
  | _ => True

theorem Access.Quiet.account {act : Access} (quiet : act.Quiet)
    (ledger : Ledger) :
    act.account ledger =
      ((act.perform ledger.buf).1,
        { ledger with buf := (act.perform ledger.buf).2 }) := by
  cases act with
  | memAlloc => exact quiet.elim
  | memFree => exact quiet.elim
  | _ => simp [Access.account, Access.settle, Access.misfrees]

theorem Access.Quiet.served {act : Access} (quiet : act.Quiet)
    (ledger : Ledger) :
    act.Served ledger := by
  cases act with
  | memAlloc => exact quiet.elim
  | _ => trivial

/-- A process alone that does not call the allocator.  `spins` is whether one of
its loops may run out of patience. -/
abbrev quietSolo (spins : Prop) : Solo EmsBuf Access Reply :=
  emsSolo (fun _ _ => True) Access.Quiet spins

theorem Ends.account {α : Type} {post : α → Ledger → Prop} {prog : EmsProg α}
    {ledger : Ledger}
    (ends : (quietSolo True).Ends
      (fun value after => post value { ledger with buf := after }) prog
        ledger.buf) :
    ledgerSolo.Ends post prog ledger := by
  induction prog generalizing ledger with
  | ret value => exact ends
  | access act next induction =>
      intro _
      obtain ⟨quiet, ends⟩ := ends trivial
      refine ⟨trivial, ?_⟩
      change ledgerSolo.Ends post (next (act.account ledger).1)
        (act.account ledger).2
      rw [quiet.account ledger]
      exact induction _ ends
  | spin => exact ends
  | abort => exact ends

theorem Yields.account {α β : Type} {post : β → Ledger → Prop}
    {prog : EmsProg α}
    {rest : α → EmsProg β} {ledger : Ledger} {value : α} {buf : EmsBuf}
    (yields : (quietSolo True).Yields prog ledger.buf value buf)
    (ends : ledgerSolo.Ends post (rest value) { ledger with buf := buf }) :
    ledgerSolo.Ends post (prog >>= rest) ledger := by
  apply Solo.Ends.bind
  apply Ends.account
  apply yields.mono
  rintro _ _ ⟨rfl, rfl⟩
  exact ends

/-- What cannot run out of patience returns. -/
theorem Ends.returning {α : Type} {spins : Prop} {post : α → EmsBuf → Prop}
    {prog : EmsProg α}
    {ledger : Ledger} (never : ¬ spins)
    (ends : (quietSolo spins).Ends post prog ledger.buf) :
    ∃ value after, ledgerSolo.Returns prog ledger value
      { ledger with buf := after } ∧
      post value after := by
  induction prog generalizing ledger with
  | ret value => exact ⟨value, ledger.buf, .ret, ends⟩
  | access act next induction =>
      obtain ⟨quiet, ends⟩ := ends trivial
      have accounted := quiet.account ledger
      obtain ⟨value, after, returns, holds⟩ :=
        @induction (act.perform ledger.buf).1
        { ledger with buf := (act.perform ledger.buf).2 } ends
      refine ⟨value, after, .access ?_ ?_, holds⟩
      · exact quiet.served ledger
      · change ledgerSolo.Returns (next (act.account ledger).1)
          (act.account ledger).2 _ _
        rw [accounted]
        exact returns
  | spin => exact absurd ends never
  | abort => exact ends.elim

theorem Ends.accounted {β : Type} {post : β → Ledger → Prop} {act : Access}
    {rest : Reply act → EmsProg β} {ledger after : Ledger} {reply : Reply act}
    (accounted : act.account ledger = (reply, after))
    (ends : ledgerSolo.Ends post (rest reply) after) :
    ledgerSolo.Ends post (Prog.perform act >>= rest) ledger := by
  refine fun _ => ⟨trivial, ?_⟩
  change ledgerSolo.Ends post (rest (act.account ledger).1)
    (act.account ledger).2
  rw [accounted]
  exact ends

section Steps

variable {β : Type} {post : β → Ledger → Prop} {ledger : Ledger} {cell : Cell}

theorem Ends.quiet {act : Access} {rest : Reply act → EmsProg β}
    (quiet : act.Quiet)
    (ends : ledgerSolo.Ends post (rest (act.perform ledger.buf).1)
      { ledger with buf := (act.perform ledger.buf).2 }) :
    ledgerSolo.Ends post (Prog.perform act >>= rest) ledger :=
  Ends.accounted (quiet.account ledger) ends

theorem load_ends {rest : Int → EmsProg β}
    (ends : ledgerSolo.Ends post (rest (ledger.buf.word cell)) ledger) :
    ledgerSolo.Ends post (load cell >>= rest) ledger := by
  apply Ends.quiet
  · trivial
  · exact ends

theorem loadTag_ends {rest : Tag → EmsProg β}
    (ends : ledgerSolo.Ends post (rest (ledger.buf.tag cell)) ledger) :
    ledgerSolo.Ends post (loadTag cell >>= rest) ledger := by
  apply Ends.quiet
  · trivial
  · exact ends

theorem storeTag_ends {tag : Tag} {rest : Unit → EmsProg β}
    (ends : ledgerSolo.Ends post (rest ())
      { ledger with buf := ledger.buf.setTag cell tag }) :
    ledgerSolo.Ends post (storeTag cell tag >>= rest) ledger := by
  apply Ends.quiet
  · trivial
  · exact ends

theorem store_ends {word : Int} {rest : Unit → EmsProg β}
    (ends : ledgerSolo.Ends post (rest ())
      { ledger with buf := ledger.buf.setWord cell word }) :
    ledgerSolo.Ends post (store cell word >>= rest) ledger := by
  apply Ends.quiet
  · trivial
  · exact ends

theorem casTag_ends {tag : Tag} {rest : Tag → EmsProg β}
    (ends : ledgerSolo.Ends post (rest (ledger.buf.tag cell))
      { ledger with buf := ledger.buf.setTag cell tag }) :
    ledgerSolo.Ends post (casTag cell (ledger.buf.tag cell) tag >>= rest)
      ledger := by
  apply Ends.quiet
  · trivial
  · simp only [Access.perform, if_true]
    exact ends

theorem storeFE_ends {fe : FE} {rest : Unit → EmsProg β}
    (ends : ledgerSolo.Ends post (rest ())
      { ledger with buf :=
        ledger.buf.setTag cell { ledger.buf.tag cell with fe := fe } }) :
    ledgerSolo.Ends post (storeFE cell fe >>= rest) ledger :=
  loadTag_ends (storeTag_ends ends)

end Steps

/-! ## Waiting alone -/

/-- A transition that is waited for by a process alone finds the tag as it
awaits it, or waits for ever. -/
theorem EMStransitionFEtag_alone {cell : Cell} {oldFE newFE : FE}
    {patience : Nat}
    {buf : EmsBuf} :
    (quietSolo True).Ends (fun tag after => (buf.tag cell).fe = oldFE ∧
        tag = { buf.tag cell with fe := newFE } ∧
        after = buf.setTag cell { buf.tag cell with fe := newFE })
      (EMStransitionFEtag patience cell none oldFE newFE) buf := by
  induction patience with
  | zero => trivial
  | succ patience induction =>
      by_cases found : (buf.tag cell).fe = oldFE
      · apply Solo.Ends.mono
          (EMStransitionFEtag_yields found (fun _ => trivial) trivial
          (fun _ _ => trivial))
        rintro _ _ ⟨rfl, rfl⟩
        exact ⟨found, rfl, rfl⟩
      · apply Solo.Ends.perform
        refine fun _ => ⟨trivial, ?_⟩
        apply Solo.Ends.perform
        refine fun _ => ⟨trivial, ?_⟩
        have other : ¬ buf.tag cell =
            ⟨oldFE, (buf.tag cell).type, (buf.tag cell).rw⟩ := by
          intro same
          exact found (congrArg Tag.fe same)
        simp only [Access.perform, other, if_false]
        exact induction

theorem heapStrlen_alone {address : Int} {patience : Nat} {buf : EmsBuf} :
    (quietSolo True).Ends (fun _ after => after = buf)
    (heapStrlen patience address) buf := by
  induction patience generalizing address with
  | zero => trivial
  | succ patience induction =>
      apply Solo.Ends.perform
      refine fun _ => ⟨trivial, ?_⟩
      split
      · rfl
      · apply Solo.Ends.bind
        apply induction.mono
        rintro _ _ rfl
        rfl

theorem copyFromHeap_alone {address : Int} {patience : Nat} {buf : EmsBuf} :
    (quietSolo True).Ends (fun _ after => after = buf)
    (copyFromHeap patience address) buf := by
  induction patience generalizing address with
  | zero => trivial
  | succ patience induction =>
      apply Solo.Ends.perform
      refine fun _ => ⟨trivial, ?_⟩
      split
      · rfl
      · apply Solo.Ends.bind
        apply induction.mono
        rintro _ _ rfl
        rfl

/-! ## The allocator -/

section Allocator

variable {level : Nat} {ledger : Ledger} {patience : Nat}

theorem lockMemMutex_alone {buf : EmsBuf} (free : buf.memMutex = .empty) :
    (quietSolo True).Yields (lockMemMutex patience) buf ()
    { buf with memMutex := .full } :=
  lockMemMutex_yields free (fun _ _ => trivial) (fun _ => trivial)

theorem emsMutexMem_alloc_alone (ordered : ledger.Ordered level) {bytes : Nat}
    (valid : ValidRequest bytes) :
    ledgerSolo.Ends (fun address after => ∃ (offset : Nat) (mem : EmsMem),
        address = (offset : Int) ∧
        after = { ledger with
          buf := ledger.buf.setMem mem
          live := ⟨offset, bytes⟩ :: ledger.live } ∧
        after.Ordered level)
      (emsMutexMem_alloc patience bytes) ledger := by
  obtain ⟨free, tree, shape⟩ := ordered
  apply Yields.account (lockMemMutex_alone free)
  apply Solo.Ends.perform
  intro given
  obtain ⟨offset, mem, tree', success, after⟩ := shape.serve valid given
  have restored : { ledger.buf.setMem mem with memMutex := .empty } =
      ledger.buf.setMem mem := by
    rw [← free]
    rfl
  refine ⟨trivial, ?_⟩
  simp only [Access.account, Access.perform, success, Access.settle,
    Access.misfrees,
    Bool.or_false, Int.natCast_nonneg, if_true, Int.toNat_natCast]
  refine fun _ => ⟨trivial, offset, mem, rfl, ?_, ?_, tree', after⟩
  · simpa [Access.account, Access.perform, Access.settle,
      Access.misfrees] using restored
  · rfl

theorem Block.length_pos (block : Block) : 0 < block.length :=
  Nat.mul_pos (by decide) (Nat.two_pow_pos _)

theorem HeapShape.eq_of_address {heap : Heap} {tree : BuddyTree}
    (shape : HeapShape level heap tree) {first second : Block}
    (inFirst : first ∈ heap.live)
    (inSecond : second ∈ heap.live) (same : first.address = second.address) :
    first = second := by
  by_contra different
  have apart := shape.apart_of_ne inFirst inSecond different
  have positive := first.length_pos
  have positive' := second.length_pos
  unfold Block.Apart at apart
  omega

private theorem eraseP_eq_erase {blocks : List Block} {block : Block}
    {chosen : Block → Bool}
    (same : ∀ other ∈ blocks, chosen other = (other == block)) :
    blocks.eraseP chosen = blocks.erase block := by
  induction blocks with
  | nil => rfl
  | cons first blocks induction =>
      have here := same first List.mem_cons_self
      have later :=
        induction fun other member => same other (List.mem_cons_of_mem _ member)
      rw [List.eraseP_cons, List.erase_cons, here, later, Bool.cond_eq_ite]

/-- The entry of a block that is given back. -/
theorem memFree_account (small : EMS_MEM_BLOCKSZ * 2 ^ level < 2 ^ 63)
    {tree : BuddyTree}
    (shape : HeapShape level ⟨ledger.buf.mem, ledger.live⟩ tree)
    {block : Block} (member : block ∈ ledger.live) {mem : EmsMem}
    (freed : emsMem_free ledger.buf.mem block.address = .ok mem) :
    Access.account (.memFree block.address) ledger =
      (.ok (), ⟨ledger.buf.setMem mem, ledger.live.erase block,
        ledger.misfreed⟩) := by
  have offset : heapOffset block.address = block.address := by
    have inside : block.address + block.length ≤ EMS_MEM_BLOCKSZ * 2 ^ level :=
      shape.inside member
    unfold heapOffset
    omega
  have erased : ledger.live.eraseP
      (fun other => other.address = block.address) =
      ledger.live.erase block := by
    apply eraseP_eq_erase
    intro other inLive
    rw [Bool.eq_iff_iff, decide_eq_true_eq, beq_iff_eq]
    constructor
    · exact shape.eq_of_address inLive member
    · rintro rfl
      rfl
  have found : (ledger.live.any fun other => other.address = block.address) =
      true := by
    rw [List.any_eq_true]
    exact ⟨block, member, decide_eq_true rfl⟩
  simp only [heapOffset] at offset
  simp only [Access.account, Access.perform, freed, Access.settle,
    Access.misfrees, heapOffset,
    offset, erased, found, Bool.not_true, Bool.or_false]
  rfl

/-- A block that is live is given back, and no other. -/
theorem emsMutexMem_free_alone (small : EMS_MEM_BLOCKSZ * 2 ^ level < 2 ^ 63)
    (ordered : ledger.Ordered level) {block : Block}
    (member : block ∈ ledger.live) :
    ledgerSolo.Ends (fun _ after => ∃ mem : EmsMem,
        after = { ledger with
          buf := ledger.buf.setMem mem
          live := ledger.live.erase block } ∧
        after.Ordered level)
      (emsMutexMem_free patience block.address) ledger := by
  obtain ⟨free, tree, shape⟩ := ordered
  obtain ⟨mem, tree', success, after⟩ := shape.free member
  have accounted := @memFree_account level
    { ledger with buf := { ledger.buf with memMutex := .full } } small tree
      shape block member mem
    success
  have restored : { ledger.buf.setMem mem with memMutex := .empty } =
      ledger.buf.setMem mem := by
    rw [← free]
    rfl
  apply Yields.account (lockMemMutex_alone free)
  apply Ends.accounted accounted
  refine fun _ => ⟨trivial, mem, ?_, rfl, tree', after⟩
  simpa [Access.account, Access.perform, Access.settle,
    Access.misfrees] using restored

end Allocator

end EMS
