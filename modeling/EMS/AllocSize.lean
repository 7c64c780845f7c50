import EMS.AllocHistory

/-!
# The size of a block

`emsMem_alloc` and `emsMem_free` translate between byte addresses and positions
of the buddy tree.  `emsMem_size` takes its offset as a position.  What it
returns for a byte address is the size of the block that starts there when the
address is read as a number of units.
-/

/-! ## The block that starts at a unit -/

namespace BuddyTree

/-- The order of the block that starts at `offset`. -/
def orderAt : Nat → Nat → BuddyTree → Option Nat
  | _, _, unused => none
  | height, offset, used => if offset = 0 then some height else none
  | 0, _, split _ _ => none
  | height + 1, offset, split left right =>
      if offset < 2 ^ height then orderAt height offset left
      else orderAt height (offset - 2 ^ height) right

theorem orderAt_unused (height offset : Nat) :
    orderAt height offset unused = none := by
  cases height <;> rfl

theorem orderAt_used (height offset : Nat) :
    orderAt height offset used = if offset = 0 then some height else none := by
  cases height <;> rfl

theorem orderAt_eq_some {height offset order : Nat} (base : Nat)
    {tree : BuddyTree} :
    orderAt height offset tree = some order ↔
      (base + offset, order) ∈ tree.blocks height base := by
  induction height generalizing base tree offset with
  | zero =>
      cases tree with
      | unused => simp [orderAt]
      | used => simp [orderAt, eq_comm]
      | split left right => simp [orderAt, blocks]
  | succ height induction =>
      cases tree with
      | unused => simp [orderAt]
      | used => simp [orderAt, eq_comm]
      | split left right =>
          simp only [orderAt, blocks, List.mem_append]
          have positive := Nat.two_pow_pos order
          by_cases near : offset < 2 ^ height
          · have notRight : (base + offset, order) ∉ right.blocks height
                (base + 2 ^ height) := by
              intro member
              have bounds := mem_blocks_bounds member
              omega
            rw [if_pos near, induction base, or_iff_left notRight]
          · have notLeft : (base + offset, order) ∉ left.blocks
                height base := by
              intro member
              have bounds := mem_blocks_bounds member
              omega
            have rebased : base + 2 ^ height + (offset - 2 ^ height) =
              base + offset := by omega
            rw [if_neg near, induction (base + 2 ^ height), rebased,
              or_iff_right notLeft]

end BuddyTree

namespace EMS

open BuddyTree

/-! ## The query -/

/-- The loop of `emsMem_size`. -/
def emsMem_measure : Nat → EmsMem → Nat → Nat → Nat → Int →
    Except AllocFault Nat
  | 0, _, _, _, _, _ => .error .loopLimit
  | bound + 1, self, offset, left, length, index => do
      match ← self.read index with
      | .used =>
          if offset = left then return length * EMS_MEM_BLOCKSZ
          else .error .assertion
      | .unused => .error .assertion
      | _ =>
          let length := length / 2
          if offset < left + length then
            emsMem_measure bound self offset left length (index * 2 + 1)
          else
            emsMem_measure bound self offset (left + length) length
              (index * 2 + 2)

/-- Return the size of a block of memory. -/
def emsMem_size (self : EmsMem) (offset : Nat) : Except AllocFault Nat :=
  if offset < 2 ^ self.level then
    emsMem_measure (self.level + 1) self offset 0 (2 ^ self.level) 0
  else .error .assertion

/-- What the query returns for the order of the block it finds. -/
def sizeOrFault : Option Nat → Except AllocFault Nat
  | some order => .ok (2 ^ order * EMS_MEM_BLOCKSZ)
  | none => .error .assertion

theorem read_inside {self : EmsMem} {height i : Nat} {tree : BuddyTree}
    (inside : (i + 2) * 2 ^ height ≤ 2 ^ (self.level + 1))
    (represents : Represents self.tree i height tree) :
    self.read i = .ok (mark tree) := by
  have grows : i + 2 ≤ (i + 2) * 2 ^ height :=
    Nat.le_mul_of_pos_right _ (Nat.two_pow_pos height)
  have below : i < self.size := by
    unfold EmsMem.size
    omega
  rw [EmsMem.read_ok self below, represents.root]

theorem emsMem_measure_end {self : EmsMem} {height : Nat} {tree : BuddyTree}
    (left offset bound : Nat) {i : Nat}
    (readHere : self.read i = .ok (mark tree))
    (atEnd : tree = .unused ∨ tree = .used) :
    emsMem_measure (bound + 1) self (left + offset) left (2 ^ height) i =
      sizeOrFault (orderAt height offset tree) := by
  rcases atEnd with rfl | rfl
  · rw [orderAt_unused]
    simp [emsMem_measure, readHere, bind, Except.bind, mark, sizeOrFault]
  · rw [orderAt_used]
    by_cases atStart : offset = 0
    · simp [emsMem_measure, readHere, bind, Except.bind, mark, sizeOrFault,
        atStart, pure,
        Except.pure]
    · simp [emsMem_measure, readHere, bind, Except.bind, mark,
        sizeOrFault, atStart]

theorem emsMem_measure_split {self : EmsMem} {height : Nat}
    {first second : BuddyTree}
    (left offset bound : Nat) {i : Nat}
    (readHere : self.read i = .ok (mark (.split first second))) :
    emsMem_measure (bound + 1) self (left + offset) left (2 ^ (height + 1)) i =
      if offset < 2 ^ height then
        emsMem_measure bound self (left + offset) left (2 ^ height)
          ((2 * i + 1 : Nat) : Int)
      else
        emsMem_measure bound self (left + offset) (left + 2 ^ height)
          (2 ^ height)
          ((2 * i + 2 : Nat) : Int) := by
  have halved : 2 ^ (height + 1) / 2 = 2 ^ height := by
    rw [pow_succ]
    omega
  have leftNumber : (i : Int) * 2 + 1 = ((2 * i + 1 : Nat) : Int) := by omega
  have rightNumber : (i : Int) * 2 + 2 = ((2 * i + 2 : Nat) : Int) := by omega
  rcases mark_split first second with isFull | isSplit
  · simp only [emsMem_measure, readHere, isFull, bind, Except.bind,
      halved, leftNumber,
      rightNumber, Nat.add_lt_add_iff_left]
  · simp only [emsMem_measure, readHere, isSplit, bind, Except.bind,
      halved, leftNumber,
      rightNumber, Nat.add_lt_add_iff_left]

/-- From a node on, the query finds the block that starts at the offset. -/
theorem emsMem_measure_spec {self : EmsMem} (height : Nat) (tree : BuddyTree)
    (i left offset bound : Nat)
    (inside : (i + 2) * 2 ^ height ≤ 2 ^ (self.level + 1))
    (enough : height < bound)
    (represents : Represents self.tree i height tree) :
    emsMem_measure bound self (left + offset) left (2 ^ height) i =
      sizeOrFault (orderAt height offset tree) := by
  have readHere := read_inside inside represents
  obtain ⟨bound, rfl⟩ := Nat.exists_eq_add_of_le' (by omega : 1 ≤ bound)
  induction height generalizing tree i left offset bound with
  | zero =>
      cases tree with
      | split first second => exact represents.elim
      | unused => exact emsMem_measure_end left offset bound readHere (.inl rfl)
      | used => exact emsMem_measure_end left offset bound readHere (.inr rfl)
  | succ height induction =>
      cases tree with
      | unused => exact emsMem_measure_end left offset bound readHere (.inl rfl)
      | used => exact emsMem_measure_end left offset bound readHere (.inr rfl)
      | split first second =>
          obtain ⟨-, firstHalf, secondHalf⟩ := represents
          obtain ⟨bound, rfl⟩ := Nat.exists_eq_add_of_le' (by omega : 1 ≤ bound)
          have shorter : (i + 2) * 2 ^ (height + 1) =
            (2 * i + 4) * 2 ^ height := by ring
          have firstInside : (2 * i + 1 + 2) * 2 ^ height ≤
              2 ^ (self.level + 1) :=
            (Nat.mul_le_mul_right _ (by omega)).trans (shorter ▸ inside)
          have secondInside : (2 * i + 2 + 2) * 2 ^ height ≤
              2 ^ (self.level + 1) :=
            shorter ▸ inside
          rw [emsMem_measure_split left offset (bound + 1) readHere, orderAt]
          by_cases near : offset < 2 ^ height
          · rw [if_pos near, if_pos near]
            exact induction first (2 * i + 1) left offset firstInside firstHalf
              (read_inside firstInside firstHalf) bound (by omega)
          · have rebased : left + offset =
              left + 2 ^ height + (offset - 2 ^ height) := by omega
            rw [if_neg near, if_neg near, rebased]
            exact induction second (2 * i + 2) (left + 2 ^ height)
              (offset - 2 ^ height)
              secondInside secondHalf (read_inside secondInside secondHalf)
                bound (by omega)

theorem emsMem_size_spec {self : EmsMem} {tree : BuddyTree} (offset : Nat)
    (represents : Represents self.tree 0 self.level tree) :
    emsMem_size self offset =
      if offset < 2 ^ self.level then
        sizeOrFault (orderAt self.level offset tree)
      else .error .assertion := by
  have measured :=
    emsMem_measure_spec self.level tree 0 0 offset (self.level + 1)
    (by rw [pow_succ]; omega) (Nat.lt_succ_self _) represents
  rw [Nat.zero_add] at measured
  rw [emsMem_size]
  congr 1

/-! ## Heaps -/

/-- The query returns the size of the block whose address has the offset as its
number of units. -/
theorem HeapShape.size_iff {level : Nat} {heap : Heap} {tree : BuddyTree}
    (shape : HeapShape level heap tree) {offset size : Nat} :
    emsMem_size heap.self offset = .ok size ↔
      ∃ block ∈ heap.live, block.address = EMS_MEM_BLOCKSZ * offset ∧
        block.length = size := by
  obtain ⟨rfl, represents, -, onUnits, handsOut⟩ := id shape
  have found : ∀ order, orderAt heap.self.level offset tree = some order ↔
      ∃ block ∈ heap.live, block.address = EMS_MEM_BLOCKSZ * offset ∧
        orderFor block.bytes = order := by
    intro order
    rw [orderAt_eq_some 0, Nat.zero_add, ← handsOut.mem_iff, List.mem_map]
    refine exists_congr fun block => and_congr_right fun member => ?_
    have unit := Nat.mul_div_cancel' (onUnits block member)
    rw [Block.node, Prod.mk.injEq]
    refine and_congr_left fun _ => ⟨fun starts => ?_, fun starts => ?_⟩
    · rw [← starts, unit]
    · rw [starts, Nat.mul_div_cancel_left offset (by decide)]
  rw [emsMem_size_spec offset represents]
  constructor
  · intro returned
    split at returned
    · cases result : orderAt heap.self.level offset tree with
      | none => simp [result, sizeOrFault] at returned
      | some order =>
          rw [result] at returned
          obtain ⟨block, member, starts, rfl⟩ := (found order).mp result
          refine ⟨block, member, starts, ?_⟩
          rw [Block.length, Nat.mul_comm]
          exact Except.ok.inj returned
    · cases returned
  · rintro ⟨block, member, starts, rfl⟩
    obtain ⟨address, -, inside, -⟩ := shape.place member
    have positive := Nat.two_pow_pos block.node.2
    simp only [EMS_MEM_BLOCKSZ] at starts address
    have within : offset < 2 ^ heap.self.level := by omega
    rw [if_pos within, (found _).mpr ⟨block, member, starts, rfl⟩, Block.length,
      Nat.mul_comm]
    rfl

theorem HeapShape.size_ends {level : Nat} {heap : Heap} {tree : BuddyTree}
    (shape : HeapShape level heap tree) (offset : Nat) :
    (∃ size, emsMem_size heap.self offset = .ok size) ∨
      emsMem_size heap.self offset = .error .assertion := by
  obtain ⟨rfl, represents, -⟩ := shape
  rw [emsMem_size_spec offset represents]
  split
  · cases orderAt heap.self.level offset tree with
    | none => exact .inr rfl
    | some order => exact .inl ⟨_, rfl⟩
  · exact .inr rfl

/-- After every history of valid calls the query on the address of a live block
returns the size of the block just when a live block of this size starts at the
address that has so many units.  For the address 0 that is the block itself. -/
theorem emsMem_size_of_live {level : Nat} {calls : List HeapCall} {heap : Heap}
    (history : History level calls heap) {block : Block}
    (live : block ∈ heap.live) {order : Nat}
    (room : (block.bytes + 31) / 32 ≤ 2 ^ order)
    (least : ∀ smaller, (block.bytes + 31) / 32 ≤ 2 ^ smaller →
      order ≤ smaller) :
    (emsMem_size heap.self block.address = .ok (32 * 2 ^ order) ↔
      ∃ other ∈ heap.live, other.address = 32 * block.address ∧
        other.length = block.length) ∧
    (block.address = 0 → emsMem_size heap.self block.address = .ok
      (32 * 2 ^ order)) ∧
    ((∃ size, emsMem_size heap.self block.address = .ok size) ∨
      emsMem_size heap.self block.address = .error .assertion) := by
  obtain ⟨tree, shape⟩ := history.shape
  have sameOrder : order = orderFor block.bytes := by
    apply le_antisymm
    · exact least _ ((orderFor_le_iff block.bytes _).mp le_rfl)
    · exact (orderFor_le_iff block.bytes _).mpr room
  have sameSize : 32 * 2 ^ order = block.length := by rw [sameOrder]; rfl
  rw [sameSize]
  refine ⟨shape.size_iff, fun first => ?_, shape.size_ends _⟩
  exact shape.size_iff.mpr ⟨block, live, by rw [first, Nat.mul_zero], rfl⟩

/-- The only block of a heap of two units. -/
theorem emsMem_size_of_live_first : ∃ heap, History 1 [.alloc 40] heap ∧
    emsMem_size heap.self 0 = .ok 64 := by
  have valid : ValidRequest 40 := by
    constructor <;> omega
  obtain ⟨self, success, -⟩ := (HeapShape.fresh 1).alloc valid
  have history : History 1 [.alloc 40] ⟨self, [⟨0, 40⟩]⟩ :=
    .snoc .nil (.alloc valid success)
  have sized :=
    @emsMem_size_of_live 1 _ _ history ⟨0, 40⟩ (List.mem_singleton_self _) 1
    (by decide) (by
      intro smaller room
      by_contra below
      obtain rfl : smaller = 0 := by omega
      exact absurd room (by decide))
  exact ⟨_, history, sized.2.1 rfl⟩

/-- The second of two blocks of one unit. -/
theorem not_emsMem_size_of_live :
    ¬ ∀ (level : Nat) (calls : List HeapCall) (heap : Heap),
    History level calls heap → ∀ block ∈ heap.live,
    emsMem_size heap.self block.address = .ok block.length := by
  intro always
  have valid : ValidRequest 20 := by
    constructor <;> omega
  obtain ⟨first, success, shape⟩ := (HeapShape.fresh 1).alloc valid
  obtain ⟨second, success', shape'⟩ := shape.alloc valid
  have history : History 1 [.alloc 20, .alloc 20]
      ⟨second, [⟨32, 20⟩, ⟨0, 20⟩]⟩ :=
    .snoc (.snoc .nil (.alloc valid success)) (.alloc valid success')
  have returned := always 1 _ _ history ⟨32, 20⟩ List.mem_cons_self
  obtain ⟨block, member, starts, -⟩ := shape'.size_iff.mp returned
  -- both blocks are below the address that has 32 units
  have below := shape'.inside member
  simp only [EMS_MEM_BLOCKSZ] at starts below
  omega

end EMS
