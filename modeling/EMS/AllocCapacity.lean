import Mathlib.Algebra.BigOperators.Ring.List
import Mathlib.Algebra.Order.BigOperators.Group.List
import Mathlib.Algebra.Order.Ring.Nat
import EMS.AllocHistory

/-!
# What the heap has room for

A buddy tree can refuse a request although enough units are free: they may lie
apart.  Here is how much can be handed out before that happens.  A block keeps
as many runs of the requested length from being free as it covers, and at least
one.  So a request is served as long as the live blocks, each counted with at
least the length of the request, leave room for it.
-/

namespace BuddyTree

/-- The units of the blocks, where a block counts for at least `2 ^ order`. -/
def weight (order : Nat) (blocks : List (Nat × Nat)) : Nat :=
  (blocks.map fun block => 2 ^ max block.2 order).sum

@[simp] theorem weight_append (order : Nat) (first second : List (Nat × Nat)) :
    weight order (first ++ second) =
      weight order first + weight order second := by
  simp [weight]

theorem weight_perm {order : Nat} {first second : List (Nat × Nat)}
    (same : first.Perm second) : weight order first = weight order second :=
  (same.map _).sum_eq

theorem le_weight_of_mem {order : Nat} {blocks : List (Nat × Nat)}
    {block : Nat × Nat}
    (member : block ∈ blocks) : 2 ^ max block.2 order ≤ weight order blocks :=
  List.le_sum_of_mem
    (List.mem_map_of_mem (f := fun block => 2 ^ max block.2 order) member)

/-- A tree in which a block of the order cannot be taken is full, if every block
in it counts for at least that order. -/
theorem weight_of_take_none {order height : Nat} (base : Nat) {tree : BuddyTree}
    (small : order ≤ height) (fits : tree.Fits height)
    (coalesced : tree.Coalesced)
    (refused : take order height tree = none) :
    2 ^ height ≤ weight order (tree.blocks height base) := by
  -- a tree as high as the order has some block, and that alone counts for the
  -- tree
  have whole : ∀ {height base : Nat} {tree : BuddyTree}, tree.Fits height →
      tree.Coalesced →
      tree ≠ unused → 2 ^ height ≤ weight height (tree.blocks height base) := by
    intro height base tree fits coalesced taken
    obtain ⟨block, member⟩ := List.exists_mem_of_ne_nil _ fun nil =>
      taken (eq_unused_of_blocks_nil base fits coalesced nil)
    calc
      2 ^ height ≤ 2 ^ max block.2 height :=
        Nat.pow_le_pow_right (by decide) (Nat.le_max_right _ _)
      _ ≤ weight height (tree.blocks height base) := le_weight_of_mem member
  induction height generalizing base tree with
  | zero =>
      obtain rfl : order = 0 := Nat.le_zero.mp small
      apply whole fits coalesced
      intro free
      simp [take, free] at refused
  | succ height induction =>
      by_cases same : order = height + 1
      · subst same
        apply whole fits coalesced
        intro free
        simp [take, free] at refused
      have below : order ≤ height := by omega
      cases tree with
      | unused =>
          obtain ⟨taken, success⟩ := take_unused small
          rw [success] at refused
          cases refused
      | used => simp [weight, Nat.max_eq_left small]
      | split left right =>
          obtain ⟨leftFits, rightFits⟩ := fits
          obtain ⟨-, leftCoalesced, rightCoalesced⟩ := coalesced
          simp only [take, if_neg same] at refused
          cases leftResult : take order height left with
          | some taken => simp [leftResult] at refused
          | none =>
              simp only [leftResult, Option.map_eq_none_iff] at refused
              have leftFull :=
                induction base below leftFits leftCoalesced leftResult
              have rightFull :=
                induction (base + 2 ^ height) below rightFits
                  rightCoalesced refused
              simp only [blocks, weight_append]
              omega

end BuddyTree

namespace EMS

open BuddyTree Interleaving

/-! ## Requests that are served -/

/-- The bytes of the live blocks, where a block counts for at least as many as
the request is served with. -/
def Heap.pressure (heap : Heap) (bytes : Nat) : Nat :=
  (heap.live.map fun block =>
    max block.length (EMS_MEM_BLOCKSZ * 2 ^ orderFor bytes)).sum

section Pressure

variable {level : Nat} {heap : Heap} {tree : BuddyTree} {bytes : Nat}

theorem HeapShape.pressure_eq (shape : HeapShape level heap tree)
    (bytes : Nat) :
    heap.pressure bytes =
      EMS_MEM_BLOCKSZ * weight (orderFor bytes) (tree.blocks level 0) := by
  have grows : Monotone fun order => EMS_MEM_BLOCKSZ * 2 ^ order :=
    fun _ _ le =>
    Nat.mul_le_mul_left _ (Nat.pow_le_pow_right (by decide) le)
  have counted : ∀ block : Block,
      max block.length (EMS_MEM_BLOCKSZ * 2 ^ orderFor bytes) =
      EMS_MEM_BLOCKSZ * 2 ^ max block.node.2 (orderFor bytes) :=
    fun _ => grows.map_max.symm
  rw [← weight_perm shape.handsOut]
  simp only [Heap.pressure, counted, weight, List.map_map,
    List.sum_map_mul_left]
  rfl

/-- A request for which the live blocks leave room is served. -/
theorem HeapShape.served (shape : HeapShape level heap tree)
    (valid : ValidRequest bytes)
    (room : heap.pressure bytes + EMS_MEM_BLOCKSZ * 2 ^ orderFor bytes ≤
      EMS_MEM_BLOCKSZ * 2 ^ level) :
    ∃ (address : Nat) (self : EmsMem),
      emsMem_alloc heap.self bytes = .ok ((address : Int), self) := by
  have spec := shape.alloc valid
  cases result : take (orderFor bytes) level tree with
  | some taken =>
      simp only [result] at spec
      obtain ⟨self, success, -⟩ := spec
      exact ⟨_, self, success⟩
  | none =>
      exfalso
      rw [shape.pressure_eq, ← Nat.mul_add] at room
      have units := Nat.le_of_mul_le_mul_left room (by decide)
      have positive := Nat.two_pow_pos (orderFor bytes)
      have small : orderFor bytes ≤ level :=
        (Nat.pow_le_pow_iff_right (by decide)).mp
          (le_trans (Nat.le_add_left _ _) units)
      have full :=
        weight_of_take_none 0 small shape.represents.fits shape.coalesced result
      omega

end Pressure

/-- After every history of valid calls a request is served if it fits in the
heap beside the live blocks, each of them rounded up to the length of the
request. -/
theorem emsMem_alloc_served {level : Nat} {calls : List HeapCall} {heap : Heap}
    (history : History level calls heap) {bytes : Nat}
    (valid : ValidRequest bytes)
    (room : heap.pressure bytes + EMS_MEM_BLOCKSZ * 2 ^ orderFor bytes ≤
      EMS_MEM_BLOCKSZ * 2 ^ level) :
    ∃ (address : Nat) (self : EmsMem),
      emsMem_alloc heap.self bytes = .ok ((address : Int), self) := by
  obtain ⟨tree, shape⟩ := history.shape
  exact shape.served valid room

/-- The second half of a heap is served after the first one. -/
theorem emsMem_alloc_served_beside :
    ∃ (heap : Heap) (address : Nat) (self : EmsMem),
    History 1 [.alloc 20] heap ∧ emsMem_alloc heap.self 20 =
      .ok ((address : Int), self) := by
  have valid : ValidRequest 20 := by
    constructor <;> omega
  obtain ⟨self, success, -⟩ := (HeapShape.fresh 1).alloc valid
  have history : History 1 [.alloc 20] ⟨self, [⟨0, 20⟩]⟩ :=
    .snoc .nil (.alloc valid success)
  have unit : orderFor 20 = 0 := by decide
  obtain ⟨address, after, served⟩ := emsMem_alloc_served history valid (by
    simp [Heap.pressure, Block.length, unit, EMS_MEM_BLOCKSZ])
  exact ⟨_, address, after, history, served⟩

end EMS
