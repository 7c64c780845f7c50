import Mathlib.Data.Nat.Log
import Mathlib.Algebra.Order.Ring.Nat

/-!
# The buddy memory allocator

`ems_alloc.cc` keeps an implicit binary tree of one byte states.  Node `i` has
the children `2 i + 1` and `2 i + 2`.  Tree accesses are checked against the
size of the tree and the loops carry a bound, so that an access outside the
tree, a failed assertion and a loop that does not end are all visible as
faults.
-/

namespace EMS

/-- Number of bits set among the lowest `bits`. -/
def bitCount : Nat → Nat → Nat
  | 0, _ => 0
  | bits + 1, x => x % 2 + bitCount bits (x / 2)

/-- Number of bits set in a 64-bit word. -/
def builtin_popcountll (x : Nat) : Nat := bitCount 64 x

/-- Number of leading zeros of a 64-bit word that is not zero. -/
def builtin_clzll (x : Nat) : Nat := 63 - Nat.log2 x

def emsNextPow2 (x : Nat) : Nat :=
  if builtin_popcountll x = 1 then x else 1 <<< (64 - builtin_clzll x)

/-- The block size used by the memory allocator for allocating heap space. -/
def EMS_MEM_BLOCKSZ : Nat := 32

/-- State of a tree node: `BUDDY_UNUSED`, `BUDDY_USED`, `BUDDY_SPLIT` and
`BUDDY_FULL`. -/
inductive Buddy where
  | unused
  | used
  | split
  | full
  deriving DecidableEq, Repr

/-- `struct emsMem`. -/
structure EmsMem where
  level : Nat
  tree : Nat → Buddy

inductive AllocFault where
  | outOfTree (index : Int)
  | assertion
  | loopLimit
  deriving DecidableEq, Repr

/-- Number of nodes of the tree. -/
def EmsMem.size (self : EmsMem) : Nat := 2 ^ (self.level + 1) - 1

def EmsMem.read (self : EmsMem) (index : Int) : Except AllocFault Buddy :=
  if 0 ≤ index ∧ index < self.size then .ok (self.tree index.toNat)
  else .error (.outOfTree index)

def EmsMem.write (self : EmsMem) (index : Int) (state : Buddy) :
    Except AllocFault EmsMem :=
  if 0 ≤ index ∧ index < self.size then
    .ok { self with tree := Function.update self.tree index.toNat state }
  else .error (.outOfTree index)

/-- `emsMem_new`: the tree of a fresh heap. -/
def emsMem_new (level : Nat) : EmsMem := ⟨level, fun _ => .unused⟩

def EMS_index_offset (index : Int) (level maxLevel : Nat) : Int :=
  ((index + 1) - 2 ^ level) * 2 ^ (maxLevel - level)

/-- The other child of the parent of `index`. -/
def buddyOf (index : Int) : Int := index - 1 + (index % 2) * 2

/-- Mark the parent buddy of this buddy. -/
def EMS_mark_parent : Nat → EmsMem → Int → Except AllocFault EmsMem
  | 0, _, _ => .error .loopLimit
  | bound + 1, self, index => do
      let buddy := buddyOf index
      if 0 < buddy then
        let state ← self.read buddy
        if state = .used ∨ state = .full then
          let index := (index + 1) / 2 - 1
          let self ← self.write index .full
          EMS_mark_parent bound self index
        else return self
      else return self

/-- The inner loop of `emsMem_alloc`: climb to the next node in search order,
or find that there is none. -/
def emsMem_climb : Nat → Int → Nat → Nat →
    Except AllocFault (Option (Int × Nat × Nat))
  | 0, _, _, _ => .error .loopLimit
  | bound + 1, index, level, length =>
      let level := level - 1
      let length := length * 2
      let index := (index + 1) / 2 - 1
      if index < 0 then .ok none
      else if index % 2 = 1 then .ok (some (index + 1, level, length))
      else emsMem_climb bound index level length

/-- The outer loop of `emsMem_alloc`. -/
def emsMem_search : Nat → EmsMem → Nat → Int → Nat → Nat →
    Except AllocFault (Int × EmsMem)
  | 0, _, _, _, _, _ => .error .loopLimit
  | bound + 1, self, size, index, level, length => do
      let state ← self.read index
      if size = length ∧ state = .unused then
        let self ← self.write index .used
        let self ← EMS_mark_parent (self.level + 1) self index
        return (EMS_index_offset index level self.level * EMS_MEM_BLOCKSZ, self)
      else if size ≠ length ∧ state = .unused then
        -- split first
        let self ← self.write index .split
        let self ← self.write (index * 2 + 1) .unused
        let self ← self.write (index * 2 + 2) .unused
        emsMem_search bound self size (index * 2 + 1) (level + 1) (length / 2)
      else if size ≠ length ∧ state = .split then
        emsMem_search bound self size (index * 2 + 1) (level + 1) (length / 2)
      else if index % 2 = 1 then
        emsMem_search bound self size (index + 1) level length
      else
        match ← emsMem_climb (self.level + 1) index level length with
        | none => return (-1, self)
        | some (index, level, length) =>
            emsMem_search bound self size index level length

/-- Allocate new memory from the EMS heap. -/
def emsMem_alloc (self : EmsMem) (bytesRequested : Nat) :
    Except AllocFault (Int × EmsMem) :=
  let size := emsNextPow2
    ((bytesRequested + (EMS_MEM_BLOCKSZ - 1)) % 2 ^ 64 / EMS_MEM_BLOCKSZ)
  let size := if size = 0 then size + 1 else size
  let length := 2 ^ self.level
  if length < size then .ok (-1, self)
  else emsMem_search (2 ^ (self.level + 1)) self size 0 0 length

/-- The loop in `EMS_combine` that turns full parents back into split ones. -/
def EMS_unmark : Nat → EmsMem → Int → Except AllocFault EmsMem
  | 0, _, _ => .error .loopLimit
  | bound + 1, self, index => do
      let index := (index + 1) / 2 - 1
      if 0 ≤ index then
        let state ← self.read index
        if state = .full then
          let self ← self.write index .split
          EMS_unmark bound self index
        else return self
      else return self

/-- Combine two buddies into one node. -/
def EMS_combine : Nat → EmsMem → Int → Except AllocFault EmsMem
  | 0, _, _ => .error .loopLimit
  | bound + 1, self, index => do
      let buddy := buddyOf index
      let stop ← if buddy < 0 then pure true
        else do
          let state ← self.read buddy
          pure (state ≠ .unused)
      if stop then
        let self ← self.write index .unused
        EMS_unmark (self.level + 1) self index
      else EMS_combine bound self ((index + 1) / 2 - 1)

/-- The loop of `emsMem_free`. -/
def emsMem_descend : Nat → EmsMem → Nat → Nat → Nat → Int →
    Except AllocFault EmsMem
  | 0, _, _, _, _, _ => .error .loopLimit
  | bound + 1, self, offset, left, length, index => do
      match ← self.read index with
      | .used =>
          if offset = left then EMS_combine (self.level + 1) self index
          else .error .assertion
      | .unused => .error .assertion
      | _ =>
          let length := length / 2
          if offset < left + length then
            emsMem_descend bound self offset left length (index * 2 + 1)
          else
            emsMem_descend bound self offset (left + length) length
              (index * 2 + 2)

/-- Release EMS memory back to the heap for reuse. -/
def emsMem_free (self : EmsMem) (offset : Nat) : Except AllocFault EmsMem :=
  let offset := offset / EMS_MEM_BLOCKSZ
  if offset < 2 ^ self.level then
    emsMem_descend (self.level + 1) self offset 0 (2 ^ self.level) 0
  else .error .assertion

end EMS
