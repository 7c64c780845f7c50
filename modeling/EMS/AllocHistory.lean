import EMS.AllocRefinement
import EMS.Interleaving

/-!
# The heap over whole histories of calls

A history is any sequence of allocations and of releases of live blocks on a
fresh heap.  Its buddy tree hands out exactly the live blocks.  This gives the
safety of the allocator, and since a coalesced tree is determined by its
blocks, it also gives that nothing but the live blocks of a history can be
observed by later calls.
-/

namespace EMS

open BuddyTree Interleaving

/-- An allocation that has not been released. -/
structure Block where
  address : Nat
  bytes : Nat
  deriving DecidableEq

/-- The least order whose blocks have room for the bytes. -/
def orderFor (bytes : Nat) : Nat :=
  Nat.clog 2 ((bytes + (EMS_MEM_BLOCKSZ - 1)) / EMS_MEM_BLOCKSZ)

def Block.length (block : Block) : Nat :=
  EMS_MEM_BLOCKSZ * 2 ^ orderFor block.bytes

/-- Address and size of the block. -/
def Block.place (block : Block) : Nat × Nat := (block.address, block.length)

structure Heap where
  self : EmsMem
  live : List Block

def Heap.fresh (level : Nat) : Heap := ⟨emsMem_new level, []⟩

inductive HeapCall where
  | alloc (bytes : Nat)
  | free (address : Nat)

/-- The requests an allocation is asked for: not empty, and rounding up does
not wrap. -/
def ValidRequest (bytes : Nat) : Prop := 1 ≤ bytes ∧ bytes + 31 < 2 ^ 64

/-- One valid call that returns. -/
inductive HeapStep : Heap → HeapCall → Heap → Prop where
  | alloc {heap : Heap} {bytes address : Nat} {self : EmsMem} :
      ValidRequest bytes → emsMem_alloc heap.self bytes =
        .ok ((address : Int), self) →
      HeapStep heap (.alloc bytes) ⟨self, ⟨address, bytes⟩ :: heap.live⟩
  | refused {heap : Heap} {bytes : Nat} {self : EmsMem} :
      ValidRequest bytes → emsMem_alloc heap.self bytes = .ok (-1, self) →
      HeapStep heap (.alloc bytes) ⟨self, heap.live⟩
  | free {heap : Heap} {block : Block} {self : EmsMem} :
      block ∈ heap.live → emsMem_free heap.self block.address = .ok self →
      HeapStep heap (.free block.address) ⟨self, heap.live.erase block⟩

/-- A history of valid calls on a fresh heap of the level. -/
abbrev History (level : Nat) (calls : List HeapCall) (heap : Heap) : Prop :=
  Run HeapStep (Heap.fresh level) calls heap

/-! ## The invariant -/

/-- The block of the tree that a live block occupies. -/
def Block.node (block : Block) : Nat × Nat :=
  (block.address / EMS_MEM_BLOCKSZ, orderFor block.bytes)

/-- The tree in the heap is coalesced and hands out exactly the live blocks. -/
structure HeapShape (level : Nat) (heap : Heap) (tree : BuddyTree) : Prop where
  level_eq : heap.self.level = level
  represents : Represents heap.self.tree 0 level tree
  coalesced : tree.Coalesced
  onUnits : ∀ block ∈ heap.live, EMS_MEM_BLOCKSZ ∣ block.address
  handsOut : (heap.live.map Block.node).Perm (tree.blocks level 0)

theorem HeapShape.fresh (level : Nat) :
    HeapShape level (Heap.fresh level) .unused :=
  ⟨rfl, emsMem_new_represents level,
    trivial, by simp [Heap.fresh], by simp [Heap.fresh]⟩

private theorem emsNextPow2_request {bytes : Nat} (valid : ValidRequest bytes) :
    emsNextPow2 ((bytes + (EMS_MEM_BLOCKSZ - 1)) % 2 ^ 64 / EMS_MEM_BLOCKSZ) =
      2 ^ orderFor bytes := by
  obtain ⟨positive, small⟩ := valid
  have unwrapped : (bytes + (EMS_MEM_BLOCKSZ - 1)) % 2 ^ 64 =
      bytes + (EMS_MEM_BLOCKSZ - 1) :=
        Nat.mod_eq_of_lt (by simpa [EMS_MEM_BLOCKSZ] using small)
  rw [unwrapped, orderFor]
  simp only [EMS_MEM_BLOCKSZ] at *
  exact emsNextPow2_eq (by omega) (by omega)

theorem orderFor_le_iff (bytes order : Nat) :
    orderFor bytes ≤ order ↔
      (bytes + (EMS_MEM_BLOCKSZ - 1)) / EMS_MEM_BLOCKSZ ≤ 2 ^ order :=
  Nat.clog_le_iff_le_pow (by omega)

theorem Block.bytes_le_length (block : Block) : block.bytes ≤ block.length := by
  have covers := (orderFor_le_iff block.bytes (orderFor block.bytes)).mp le_rfl
  simp only [Block.length, EMS_MEM_BLOCKSZ] at *
  omega

section Calls

variable {level : Nat} {heap : Heap} {tree : BuddyTree}

/-- A valid allocation returns a block of the tree, or `-1` when the tree has
none to take. -/
theorem HeapShape.alloc (shape : HeapShape level heap tree) {bytes : Nat}
    (valid : ValidRequest bytes) :
    match take (orderFor bytes) level tree with
    | some (offset, taken) => ∃ self,
        emsMem_alloc heap.self bytes =
          .ok (((offset * EMS_MEM_BLOCKSZ : Nat) : Int), self) ∧
        HeapShape level ⟨self,
          ⟨offset * EMS_MEM_BLOCKSZ, bytes⟩ :: heap.live⟩ taken
    | none => emsMem_alloc heap.self bytes = .ok (-1, heap.self) := by
  obtain ⟨levelEq, represents, coalesced, onUnits, handsOut⟩ := shape
  subst levelEq
  have spec := emsMem_alloc_spec (emsNextPow2_request valid) represents
  cases result : take (orderFor bytes) heap.self.level tree with
  | none => simpa only [result] using spec
  | some taken =>
      obtain ⟨offset, taken⟩ := taken
      simp only [result] at spec
      obtain ⟨states, success, after⟩ := spec
      refine ⟨⟨heap.self.level, states⟩, by simpa using success, rfl, after,
        coalesced.take result, ?_, ?_⟩
      · intro block member
        rcases List.mem_cons.mp member with rfl | member
        · exact Nat.dvd_mul_left _ _
        · exact onUnits block member
      · have unit : offset * EMS_MEM_BLOCKSZ / EMS_MEM_BLOCKSZ = offset :=
          Nat.mul_div_cancel offset (by decide)
        have added := take_blocks 0 result
        rw [Nat.zero_add] at added
        simpa only [List.map_cons, Block.node,
          unit] using (handsOut.cons _).trans added.symm

/-- Releasing a live block gives its node back to the tree. -/
theorem HeapShape.free (shape : HeapShape level heap tree) {block : Block}
    (member : block ∈ heap.live) :
    ∃ self given, emsMem_free heap.self block.address = .ok self ∧
      HeapShape level ⟨self, heap.live.erase block⟩ given := by
  obtain ⟨levelEq, represents, coalesced, onUnits, handsOut⟩ := shape
  subst levelEq
  have handedOut : (0 + block.address / EMS_MEM_BLOCKSZ, orderFor block.bytes) ∈
      tree.blocks heap.self.level 0 := by
    rw [Nat.zero_add]
    exact handsOut.subset (List.mem_map_of_mem member)
  have bounds := mem_blocks_bounds handedOut
  have positive := Nat.two_pow_pos (orderFor block.bytes)
  obtain ⟨given, gives, removed⟩ := give_blocks handedOut
  have spec := emsMem_free_spec block.address represents
  rw [if_pos (by omega), gives] at spec
  obtain ⟨states, success, after⟩ := spec
  refine ⟨⟨heap.self.level, states⟩, given, success, rfl, after,
    coalesced.give gives, ?_, ?_⟩
  · exact fun other inRest => onUnits other (List.mem_of_mem_erase inRest)
  · rw [Nat.zero_add] at removed
    have split : (heap.live.map Block.node).Perm
        (block.node :: (heap.live.erase block).map Block.node) :=
      (List.perm_cons_erase member).map Block.node
    exact (split.symm.trans (handsOut.trans removed)).cons_inv

theorem HeapShape.step (shape : HeapShape level heap tree) {call : HeapCall}
    {next : Heap}
    (step : HeapStep heap call next) : ∃ tree, HeapShape level next tree := by
  cases step with
  | @alloc bytes address self valid success =>
      have spec := shape.alloc valid
      split at spec
      · next offset taken _ =>
          obtain ⟨self', success', after⟩ := spec
          rw [success] at success'
          obtain ⟨sameAddress, rfl⟩ := Prod.mk.inj (Except.ok.inj success')
          obtain rfl := Int.ofNat_inj.mp sameAddress
          exact ⟨taken, after⟩
      · rw [success] at spec
        have impossible := (Prod.mk.inj (Except.ok.inj spec)).1
        omega
  | @refused bytes self valid failure =>
      have spec := shape.alloc valid
      split at spec
      · obtain ⟨self', success, -⟩ := spec
        rw [failure] at success
        have impossible := (Prod.mk.inj (Except.ok.inj success)).1
        omega
      · rw [failure] at spec
        obtain ⟨-, rfl⟩ := Prod.mk.inj (Except.ok.inj spec)
        exact ⟨tree, shape⟩
  | @free block self member success =>
      obtain ⟨self', given, success', after⟩ := shape.free member
      rw [success] at success'
      obtain rfl := Except.ok.inj success'
      exact ⟨given, after⟩

end Calls

theorem History.shape {level : Nat} {calls : List HeapCall} {heap : Heap}
    (history : History level calls heap) :
    ∃ tree, HeapShape level heap tree := by
  refine Run.invariant
    (fun heap => ∃ tree, HeapShape level heap tree) ?_ history
    ⟨_, HeapShape.fresh level⟩
  rintro heap call next ⟨tree, shape⟩ step
  exact shape.step step

/-! ## Safety -/

/-- Blocks do not overlap. -/
def Block.Apart (first second : Block) : Prop :=
  first.address + first.length ≤ second.address ∨
    second.address + second.length ≤ first.address

/-- The live blocks are well placed, and the next call ends without a fault,
whichever it is. -/
structure HeapSafe (level : Nat) (heap : Heap) : Prop where
  sameLevel : heap.self.level = level
  inside : ∀ block ∈ heap.live,
    block.address + block.length ≤ EMS_MEM_BLOCKSZ * 2 ^ level
  aligned : ∀ block ∈ heap.live, block.length ∣ block.address
  apart : heap.live.Pairwise Block.Apart
  longEnough : ∀ block ∈ heap.live, block.bytes ≤ block.length
  addressable : ∀ block ∈ heap.live, block.address + block.length < 2 ^ 63
  allocates : ∀ bytes, ValidRequest bytes → ∃ result self,
    emsMem_alloc heap.self bytes = .ok (result, self) ∧
      (result = -1 ∨ ∃ address : Nat, result = address)
  frees : ∀ block ∈ heap.live, ∃ self,
    emsMem_free heap.self block.address = .ok self

theorem HeapShape.place {level : Nat} {heap : Heap} {tree : BuddyTree}
    (shape : HeapShape level heap tree) {block : Block}
    (member : block ∈ heap.live) :
    block.address = EMS_MEM_BLOCKSZ * block.node.1 ∧
      block.length = EMS_MEM_BLOCKSZ * 2 ^ block.node.2 ∧
      block.node.1 + 2 ^ block.node.2 ≤ 2 ^ level ∧
        2 ^ block.node.2 ∣ block.node.1 := by
  have handedOut : (block.node.1, block.node.2) ∈ tree.blocks level 0 :=
    shape.handsOut.subset (List.mem_map_of_mem member)
  obtain ⟨-, inside, -, aligned⟩ := mem_blocks_bounds handedOut
  rw [Nat.zero_add] at inside
  exact ⟨(Nat.mul_div_cancel' (shape.onUnits block member)).symm, rfl,
    inside, aligned⟩

theorem HeapShape.apart {level : Nat} {heap : Heap} {tree : BuddyTree}
    (shape : HeapShape level heap tree) : heap.live.Pairwise Block.Apart := by
  have ordered : (tree.blocks level 0).Pairwise fun first second =>
      first.1 + 2 ^ first.2 ≤ second.1 ∨ second.1 + 2 ^ second.2 ≤ first.1 :=
    (blocks_pairwise level 0 tree).imp fun below => .inl below
  have nodes :=
    (shape.handsOut.pairwise_iff (fun {_ _} either => either.symm)).mpr ordered
  rw [List.pairwise_map] at nodes
  refine nodes.imp_of_mem ?_
  intro first second inFirst inSecond either
  obtain ⟨firstAddress, firstLength, -, -⟩ := shape.place inFirst
  obtain ⟨secondAddress, secondLength, -, -⟩ := shape.place inSecond
  unfold Block.Apart
  rw [firstAddress, firstLength, secondAddress,
    secondLength, ← Nat.mul_add, ← Nat.mul_add]
  exact either.imp (Nat.mul_le_mul_left _) (Nat.mul_le_mul_left _)

theorem HeapShape.inside {level : Nat} {heap : Heap} {tree : BuddyTree}
    (shape : HeapShape level heap tree) {block : Block}
    (member : block ∈ heap.live) :
    block.address + block.length ≤ EMS_MEM_BLOCKSZ * 2 ^ level := by
  obtain ⟨address, length, inside, -⟩ := shape.place member
  rw [address, length, ← Nat.mul_add]
  exact Nat.mul_le_mul_left _ inside

theorem HeapShape.safe {level : Nat} {heap : Heap} {tree : BuddyTree}
    (shape : HeapShape level heap tree)
    (addressable : EMS_MEM_BLOCKSZ * 2 ^ level < 2 ^ 63) :
    HeapSafe level heap where
  sameLevel := shape.level_eq
  inside := fun _ member => shape.inside member
  addressable := fun _ member => (shape.inside member).trans_lt addressable
  aligned := by
    intro block member
    obtain ⟨address, length, -, aligned⟩ := shape.place member
    rw [address, length]
    exact Nat.mul_dvd_mul_left _ aligned
  apart := shape.apart
  longEnough := fun block _ => block.bytes_le_length
  allocates := by
    intro bytes valid
    have spec := shape.alloc valid
    split at spec
    · obtain ⟨self, success, -⟩ := spec
      exact ⟨_, self, success, .inr ⟨_, rfl⟩⟩
    · exact ⟨_, _, spec, .inl rfl⟩
  frees := by
    intro block member
    obtain ⟨self, -, success, -⟩ := shape.free member
    exact ⟨self, success⟩

/-- After every history of valid calls the live blocks are inside the heap,
aligned, disjoint and long enough, and every next valid call ends without an
access outside the tree, a failed assertion or a loop that does not end. -/
theorem emsMem_safe {level : Nat}
    (addressable : EMS_MEM_BLOCKSZ * 2 ^ level < 2 ^ 63)
    {calls : List HeapCall} {heap : Heap} (history : History level calls heap) :
    HeapSafe level heap := by
  obtain ⟨tree, shape⟩ := history.shape
  exact shape.safe addressable

theorem emsMem_safe_after_alloc : ∃ heap, History 1 [.alloc 40] heap ∧
    HeapSafe 1 heap := by
  have valid : ValidRequest 40 := by
    constructor <;> omega
  obtain ⟨self, success, -⟩ := (HeapShape.fresh 1).alloc valid
  have history : History 1 [.alloc 40] ⟨self, [⟨0, 40⟩]⟩ :=
    .snoc .nil (.alloc valid success)
  exact ⟨_, history, emsMem_safe (by decide) history⟩

/-! ## What later calls can see -/

/-- One call, with what it returns to its caller. -/
def HeapCall.run (self : EmsMem) :
    HeapCall → Except AllocFault (Option Int × EmsMem)
  | .alloc bytes => (emsMem_alloc self bytes).map fun returned =>
    (some returned.1, returned.2)
  | .free address => (emsMem_free self address).map fun self => (none, self)

/-- What a sequence of calls returns, up to the first fault. -/
def responses (self : EmsMem) :
    List HeapCall → List (Except AllocFault (Option Int))
  | [] => []
  | call :: calls =>
      match call.run self with
      | .ok (returned, self) => .ok returned :: responses self calls
      | .error fault => [.error fault]

/-- The two heaps hold the same tree. -/
def SameTree (first second : EmsMem) : Prop :=
  first.level = second.level ∧ ∃ tree,
    Represents first.tree 0 first.level tree ∧
    Represents second.tree 0 second.level tree

/-- A call cannot tell apart two heaps that hold the same tree. -/
theorem SameTree.run {first second : EmsMem} (same : SameTree first second)
    (call : HeapCall) :
    (∃ fault, call.run first = .error fault ∧ call.run second = .error fault) ∨
      ∃ returned first' second', call.run first = .ok (returned, first') ∧
        call.run second = .ok (returned, second') ∧
          SameTree first' second' := by
  obtain ⟨sameLevel, tree, represents, represents'⟩ := same
  cases call with
  | alloc bytes =>
      have small : (bytes + (EMS_MEM_BLOCKSZ - 1)) % 2 ^ 64 /
          EMS_MEM_BLOCKSZ < 2 ^ 64 :=
        (Nat.div_le_self _ _).trans_lt (Nat.mod_lt _ (by omega))
      obtain ⟨order, size⟩ := emsNextPow2_is_pow small
      have spec := emsMem_alloc_spec size represents
      have spec' := emsMem_alloc_spec size represents'
      rw [← sameLevel] at spec'
      cases result : take order first.level tree with
      | none =>
          simp only [result] at spec spec'
          exact .inr ⟨_, _, _, by rw [HeapCall.run, spec]; rfl,
            by rw [HeapCall.run, spec']; rfl, sameLevel, tree, represents, represents'⟩
      | some taken =>
          simp only [result] at spec spec'
          obtain ⟨states, success, after⟩ := spec
          obtain ⟨states', success', after'⟩ := spec'
          exact .inr ⟨_, ⟨first.level, states⟩, ⟨first.level, states'⟩,
            by rw [HeapCall.run, success]; rfl, by rw [HeapCall.run, success']; rfl,
            rfl, _, after, after'⟩
  | free address =>
      have spec := emsMem_free_spec address represents
      have spec' := emsMem_free_spec address represents'
      rw [← sameLevel] at spec'
      split at spec
      · next inside =>
          rw [if_pos inside] at spec'
          cases result : give first.level (address / EMS_MEM_BLOCKSZ) tree with
          | none =>
              rw [result] at spec spec'
              exact .inl ⟨.assertion, by rw [HeapCall.run, spec]; rfl,
                by rw [HeapCall.run, spec']; rfl⟩
          | some given =>
              rw [result] at spec spec'
              obtain ⟨states, success, after⟩ := spec
              obtain ⟨states', success', after'⟩ := spec'
              exact .inr ⟨_, ⟨first.level, states⟩, ⟨second.level, states'⟩,
                by rw [HeapCall.run, success]; rfl, by rw [HeapCall.run, success']; rfl,
                sameLevel, _, after, after'⟩
      · next outside =>
          rw [if_neg outside] at spec'
          exact .inl ⟨.assertion, by rw [HeapCall.run, spec]; rfl,
            by rw [HeapCall.run, spec']; rfl⟩

theorem SameTree.responses {first second : EmsMem}
    (same : SameTree first second)
    (calls : List HeapCall) :
    EMS.responses first calls = EMS.responses second calls := by
  induction calls generalizing first second with
  | nil => rfl
  | cons call calls induction =>
      rcases same.run call with ⟨fault, fails, fails'⟩ |
        ⟨returned, first', second', ok, ok', after⟩
      · simp only [EMS.responses, fails, fails']
      · simp only [EMS.responses, ok, ok', induction after]

theorem Block.node_eq (block : Block) :
    block.node = (block.place.1 / EMS_MEM_BLOCKSZ,
      Nat.log 2 (block.place.2 / EMS_MEM_BLOCKSZ)) := by
  have units : block.length / EMS_MEM_BLOCKSZ = 2 ^ orderFor block.bytes :=
    Nat.mul_div_cancel_left _ (by decide)
  simp only [Block.node, Block.place, units, Nat.log_pow (by omega : 1 < 2)]

theorem HeapShape.sameTree {level : Nat} {heap heap' : Heap}
    {tree tree' : BuddyTree}
    (shape : HeapShape level heap tree) (shape' : HeapShape level heap' tree')
    (sameLive : ∀ place, place ∈ heap.live.map Block.place ↔
      place ∈ heap'.live.map Block.place) :
    SameTree heap.self heap'.self := by
  have nodes : ∀ live : List Block, live.map Block.node =
      (live.map Block.place).map fun place =>
        (place.1 / EMS_MEM_BLOCKSZ, Nat.log 2 (place.2 / EMS_MEM_BLOCKSZ)) := by
    intro live
    rw [List.map_map]
    exact List.map_congr_left fun block _ => block.node_eq
  have equal : tree = tree' := by
    refine eq_of_same_blocks 0 shape.represents.fits shape'.represents.fits
      shape.coalesced shape'.coalesced fun block => ?_
    rw [← shape.handsOut.mem_iff, ← shape'.handsOut.mem_iff, nodes, nodes]
    simp only [List.mem_map (l := List.map _ _), sameLive]
  subst equal
  obtain ⟨levelEq, represents, -, -, -⟩ := shape
  obtain ⟨levelEq', represents', -, -, -⟩ := shape'
  exact ⟨levelEq.trans levelEq'.symm, tree, by rwa [levelEq], by rwa [levelEq']⟩

/-- Nothing but the live blocks of a history can be seen afterwards: two
histories with the same live blocks answer all later calls alike, a heap
without live blocks serves a request for all of it, and an allocation followed
by the release of its result leaves no trace. -/
theorem emsMem_forgets {level : Nat}
    (addressable : EMS_MEM_BLOCKSZ * 2 ^ level < 2 ^ 63)
    {calls calls' : List HeapCall} {heap heap' : Heap}
    (history : History level calls heap) (history' : History level calls' heap')
    (sameLive : ∀ place, place ∈ heap.live.map Block.place ↔
      place ∈ heap'.live.map Block.place) :
    (∀ later, responses heap.self later = responses heap'.self later) ∧
    (heap.live = [] → ∃ self,
      emsMem_alloc heap.self (EMS_MEM_BLOCKSZ * 2 ^ level) = .ok (0, self)) ∧
    (∀ bytes (address : Nat) self, ValidRequest bytes →
      emsMem_alloc heap.self bytes = .ok ((address : Int), self) →
      ∃ self', emsMem_free self address = .ok self' ∧
        ∀ later, responses self' later = responses heap.self later) := by
  obtain ⟨tree, shape⟩ := history.shape
  obtain ⟨tree', shape'⟩ := history'.shape
  refine ⟨(shape.sameTree shape' sameLive).responses, ?_, ?_⟩
  · intro nothingLive
    have noBlocks : tree.blocks level 0 = [] := by
      have handsOut := shape.handsOut
      rw [nothingLive] at handsOut
      exact handsOut.symm.eq_nil
    have unused : tree = .unused :=
      eq_unused_of_blocks_nil 0 shape.represents.fits shape.coalesced noBlocks
    subst unused
    have positive := Nat.two_pow_pos level
    have valid : ValidRequest (EMS_MEM_BLOCKSZ * 2 ^ level) := by
      simp only [ValidRequest, EMS_MEM_BLOCKSZ] at *
      omega
    have wholeOrder : orderFor (EMS_MEM_BLOCKSZ * 2 ^ level) = level := by
      have units : (EMS_MEM_BLOCKSZ * 2 ^ level + (EMS_MEM_BLOCKSZ - 1)) /
          EMS_MEM_BLOCKSZ = 2 ^ level := by
        simp only [EMS_MEM_BLOCKSZ]
        omega
      rw [orderFor, units, Nat.clog_pow 2 level (by omega)]
    obtain ⟨taken, whole⟩ := take_unused (le_refl level)
    have spec := shape.alloc valid
    rw [wholeOrder, whole] at spec
    obtain ⟨self, success, -⟩ := spec
    exact ⟨self, by simpa using success⟩
  · intro bytes address self valid success
    have step : HeapStep heap (.alloc bytes)
        ⟨self, ⟨address, bytes⟩ :: heap.live⟩ :=
      .alloc valid success
    obtain ⟨taken, after⟩ := shape.step step
    obtain ⟨self', given, released, restored⟩ := after.free List.mem_cons_self
    rw [List.erase_cons_head] at restored
    exact ⟨self', released,
      (restored.sameTree shape fun _ => Iff.rfl).responses⟩

theorem emsMem_forgets_released : ∃ heap, History 1 [.alloc 40, .free 0] heap ∧
    ∀ later, responses heap.self later = responses (emsMem_new 1) later := by
  have valid : ValidRequest 40 := by
    constructor <;> omega
  obtain ⟨self, success, shape⟩ := (HeapShape.fresh 1).alloc valid
  obtain ⟨self', -, released, -⟩ := shape.free List.mem_cons_self
  have history : History 1 [.alloc 40, .free 0] ⟨self', []⟩ :=
    .snoc (.snoc .nil (.alloc valid success))
      (.free List.mem_cons_self released)
  exact ⟨_, history,
    (emsMem_forgets (by decide) history .nil fun _ => Iff.rfl).1⟩

/-! ## Completeness -/

/-- `2 ^ order` units of the heap from `unit` on, aligned to their number, that
no live block overlaps. -/
structure FreeRun (level : Nat) (live : List Block)
    (order unit : Nat) : Prop where
  aligned : 2 ^ order ∣ unit
  inside : unit + 2 ^ order ≤ 2 ^ level
  free : ∀ block ∈ live, EMS_MEM_BLOCKSZ * (unit + 2 ^ order) ≤ block.address ∨
    block.address + block.length ≤ EMS_MEM_BLOCKSZ * unit

theorem HeapShape.freeRun_iff {level : Nat} {heap : Heap} {tree : BuddyTree}
    (shape : HeapShape level heap tree) {order unit : Nat} :
    FreeRun level heap.live order unit ↔ FreeAt order level 0 tree unit := by
  constructor
  · intro run
    refine ⟨run.aligned, run.inside, ?_⟩
    intro node member
    obtain ⟨block, live, rfl⟩ :=
      List.mem_map.mp (shape.handsOut.symm.subset member)
    obtain ⟨address, length, -, -⟩ := shape.place live
    have apart := run.free block live
    rw [address, length, ← Nat.mul_add] at apart
    simp only [EMS_MEM_BLOCKSZ] at apart
    omega
  · intro run
    refine ⟨run.aligned, run.inside, ?_⟩
    intro block live
    obtain ⟨address, length, -, -⟩ := shape.place live
    have apart :=
      run.free block.node (shape.handsOut.subset (List.mem_map_of_mem live))
    rw [address, length, ← Nat.mul_add]
    simp only [EMS_MEM_BLOCKSZ]
    omega

/-- What an allocation returns.  `-1` leaves the tree as it was. -/
structure AllocComplete (level order : Nat) (heap : Heap) (result : Int)
    (self : EmsMem) :
    Prop where
  refused : result = -1 ↔ ∀ unit, ¬ FreeRun level heap.live order unit
  unchanged : result = -1 → self = heap.self
  lowest : result ≠ -1 → ∃ unit : Nat, result = (EMS_MEM_BLOCKSZ * unit : Nat) ∧
    FreeRun level heap.live order unit ∧
    ∀ other, FreeRun level heap.live order other → unit ≤ other

theorem HeapShape.alloc_complete {level : Nat} {heap : Heap} {tree : BuddyTree}
    (shape : HeapShape level heap tree) {bytes : Nat}
    (valid : ValidRequest bytes) :
    ∃ result self, emsMem_alloc heap.self bytes = .ok (result, self) ∧
      AllocComplete level (orderFor bytes) heap result self := by
  have spec := shape.alloc valid
  have lowest :=
    @take_lowest (orderFor bytes) level tree 0 shape.represents.fits
      shape.coalesced
  cases result : take (orderFor bytes) level tree with
  | none =>
      simp only [result] at spec lowest
      refine ⟨-1, heap.self, spec, ?_, fun _ => rfl,
        fun served => absurd rfl served⟩
      simp only [shape.freeRun_iff, true_iff]
      exact lowest
  | some taken =>
      obtain ⟨unit, after⟩ := taken
      simp only [result] at spec lowest
      obtain ⟨self, success, -⟩ := spec
      obtain ⟨run, first⟩ := lowest
      have served : ((unit * EMS_MEM_BLOCKSZ : Nat) : Int) ≠ -1 := by omega
      refine ⟨_, self, success, ?_, fun refused => absurd refused served,
        fun _ => ?_⟩
      · refine iff_of_false served fun nothing => ?_
        exact nothing unit (shape.freeRun_iff.mpr run)
      · refine ⟨unit, by rw [Nat.mul_comm], shape.freeRun_iff.mpr run, ?_⟩
        exact fun other free => first other (shape.freeRun_iff.mp free)

/-- After every history of valid calls an allocation of the least power of two
of units that has room for the bytes returns.  It is refused exactly when the
heap has no free run of so many units, and gets the lowest such run
otherwise. -/
theorem emsMem_alloc_complete {level : Nat} {calls : List HeapCall}
    {heap : Heap}
    (history : History level calls heap) {bytes order : Nat}
    (valid : ValidRequest bytes)
    (room : (bytes + 31) / 32 ≤ 2 ^ order)
    (least : ∀ smaller, (bytes + 31) / 32 ≤ 2 ^ smaller → order ≤ smaller) :
    ∃ result self, emsMem_alloc heap.self bytes = .ok (result, self) ∧
      AllocComplete level order heap result self := by
  obtain ⟨tree, shape⟩ := history.shape
  have sameOrder : order = orderFor bytes := by
    apply le_antisymm
    · exact least _ ((orderFor_le_iff bytes _).mp le_rfl)
    · exact (orderFor_le_iff bytes _).mpr room
  rw [sameOrder]
  exact shape.alloc_complete valid

/-- Two units are asked for where one of two is taken. -/
theorem emsMem_alloc_complete_refused : ∃ heap result self,
    History 1 [.alloc 20] heap ∧
    emsMem_alloc heap.self 40 = .ok (result, self) ∧
      AllocComplete 1 1 heap result self := by
  have valid : ValidRequest 20 := by
    constructor <;> omega
  obtain ⟨self, success, -⟩ := (HeapShape.fresh 1).alloc valid
  have history : History 1 [.alloc 20] ⟨self, [⟨0, 20⟩]⟩ :=
    .snoc .nil (.alloc valid success)
  obtain ⟨result, after, returned, complete⟩ :=
    @emsMem_alloc_complete 1 _ _ history 40 1 (by constructor <;> omega)
      (by decide) (by
        intro smaller room
        by_contra below
        obtain rfl : smaller = 0 := by omega
        exact absurd room (by decide))
  exact ⟨_, result, after, history, returned, complete⟩

end EMS
