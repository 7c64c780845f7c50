import Mathlib.Data.List.Perm.Basic
import Mathlib.Data.Set.Basic
import Mathlib.Order.Basic
import Mathlib.Tactic.Ring

/-!
# Buddy trees

A buddy tree divides `2 ^ height` units into blocks of power-of-two size.  A
node is unused, handed out as one block, or split into two halves.  The file
defines taking the leftmost free block of a given size and giving a block
back, where two unused halves merge, and relates both to the set of blocks
that are handed out.
-/

inductive BuddyTree where
  | unused
  | used
  | split (left right : BuddyTree)
  deriving DecidableEq

namespace BuddyTree

/-- The tree has no node below the level of single units. -/
def Fits : Nat → BuddyTree → Prop
  | _, unused => True
  | _, used => True
  | 0, split _ _ => False
  | height + 1, split left right => left.Fits height ∧ right.Fits height

/-- No two halves are left unused side by side. -/
def Coalesced : BuddyTree → Prop
  | unused => True
  | used => True
  | split left right =>
      ¬ (left = unused ∧ right = unused) ∧ left.Coalesced ∧ right.Coalesced

/-- Every unit is handed out. -/
def full : BuddyTree → Bool
  | unused => false
  | used => true
  | split left right => left.full && right.full

/-- Two halves as one node. -/
def join (left right : BuddyTree) : BuddyTree :=
  if left = unused ∧ right = unused then unused else split left right

/-- Take the leftmost free block of `2 ^ order` units. -/
def take (order : Nat) : Nat → BuddyTree → Option (Nat × BuddyTree)
  | 0, tree =>
      if order = 0 ∧ tree = unused then some (0, used) else none
  | height + 1, tree =>
      if order = height + 1 then
        if tree = unused then some (0, used) else none
      else match tree with
        | used => none
        | unused => (take order height unused).map fun taken =>
            (taken.1, split taken.2 unused)
        | split left right =>
            match take order height left with
            | some taken => some (taken.1, split taken.2 right)
            | none => (take order height right).map fun taken =>
                (2 ^ height + taken.1, split left taken.2)

/-- Give back the block that starts at `offset`. -/
def give : Nat → Nat → BuddyTree → Option BuddyTree
  | _, _, unused => none
  | _, offset, used => if offset = 0 then some unused else none
  | 0, _, split _ _ => none
  | height + 1, offset, split left right =>
      if offset < 2 ^ height then
        (give height offset left).map fun left => join left right
      else (give height (offset - 2 ^ height) right).map fun right =>
        join left right

/-- The blocks handed out, each with its start and its order, from left to
right. -/
def blocks : Nat → Nat → BuddyTree → List (Nat × Nat)
  | _, _, unused => []
  | height, base, used => [(base, height)]
  | 0, _, split _ _ => []
  | height + 1, base, split left right =>
      blocks height base left ++ blocks height (base + 2 ^ height) right

theorem full_of_used : full used = true := rfl

@[simp] theorem blocks_unused (height base : Nat) :
    blocks height base unused = [] := by
  cases height <;> rfl

@[simp] theorem blocks_used (height base : Nat) :
    blocks height base used = [(base, height)] := by
  cases height <;> rfl

/-! ## Where blocks lie -/

/-- A block lies inside its tree and is aligned to its own size. -/
theorem mem_blocks_bounds {height base : Nat} {tree : BuddyTree}
    {start order : Nat}
    (member : (start, order) ∈ tree.blocks height base) :
    base ≤ start ∧ start + 2 ^ order ≤ base + 2 ^ height ∧ order ≤ height ∧
      2 ^ order ∣ start - base := by
  induction height generalizing base tree with
  | zero => cases tree <;> simp_all [blocks]
  | succ height induction =>
      cases tree with
      | unused => simp at member
      | used =>
          simp only [blocks_used, List.mem_singleton, Prod.mk.injEq] at member
          obtain ⟨rfl, rfl⟩ := member
          simp
      | split left right =>
          have double : 2 ^ (height + 1) = 2 ^ height + 2 ^ height := by ring
          simp only [blocks, List.mem_append] at member
          rcases member with inLeft | inRight
          · obtain ⟨above, below, small, aligned⟩ := induction inLeft
            exact ⟨above, by omega, by omega, aligned⟩
          · obtain ⟨above, below, small, aligned⟩ := induction inRight
            refine ⟨by omega, by omega, by omega, ?_⟩
            have half : 2 ^ order ∣ 2 ^ height := pow_dvd_pow 2 small
            have shifted : start - base =
                start - (base + 2 ^ height) + 2 ^ height := by
              omega
            rw [shifted]
            exact Nat.dvd_add aligned half

theorem blocks_pairwise (height base : Nat) (tree : BuddyTree) :
    (tree.blocks height base).Pairwise fun earlier later =>
      earlier.1 + 2 ^ earlier.2 ≤ later.1 := by
  induction height generalizing base tree with
  | zero => cases tree <;> simp [blocks]
  | succ height induction =>
      cases tree with
      | unused => simp
      | used => simp
      | split left right =>
          simp only [blocks, List.pairwise_append]
          refine ⟨induction base left, induction _ right, ?_⟩
          rintro ⟨start, order⟩ inLeft ⟨start', order'⟩ inRight
          have leftBounds := mem_blocks_bounds inLeft
          have rightBounds := mem_blocks_bounds inRight
          simp only
          omega

/-! ## Taking a block -/

/-- Taking adds exactly one block, of the order that was asked for. -/
theorem take_blocks {order height offset : Nat} (base : Nat)
    {tree taken : BuddyTree}
    (success : take order height tree = some (offset, taken)) :
    (taken.blocks height base).Perm
    ((base + offset, order) :: tree.blocks height base) := by
  induction height generalizing base tree taken offset with
  | zero =>
      simp only [take] at success
      split at success
      · next condition =>
          obtain ⟨rfl, rfl⟩ := condition
          cases success
          simp
      · cases success
  | succ height induction =>
      simp only [take] at success
      split at success
      · next same =>
          split at success
          · next free =>
              subst same free
              cases success
              simp
          · cases success
      · cases tree with
        | used => simp at success
        | unused =>
            simp only [Option.map_eq_some_iff] at success
            obtain ⟨⟨offset', left⟩, leftTaken, pairEq⟩ := success
            cases pairEq
            simpa [blocks] using induction base leftTaken
        | split left right =>
            simp only at success
            cases leftResult : take order height left with
            | some leftTaken =>
                simp only [leftResult, Option.some.injEq] at success
                cases success
                simp only [blocks]
                exact (induction base leftResult).append_right _
            | none =>
                simp only [leftResult, Option.map_eq_some_iff] at success
                obtain ⟨⟨offset', right'⟩, rightTaken, pairEq⟩ := success
                cases pairEq
                simp only [blocks, ← Nat.add_assoc]
                exact ((induction (base + 2 ^ height) rightTaken).append_left
                  _).trans
                  List.perm_middle

theorem take_ne_unused {order height offset : Nat} {tree taken : BuddyTree}
    (success : take order height tree = some (offset, taken)) :
    taken ≠ unused := by
  rintro rfl
  have added := take_blocks 0 success
  simp at added

theorem Fits.take {order height offset : Nat} {tree taken : BuddyTree}
    (fits : tree.Fits height)
    (success : take order height tree = some (offset, taken)) :
    taken.Fits height := by
  induction height generalizing tree taken offset with
  | zero =>
      simp only [BuddyTree.take] at success
      split at success
      · cases success
        trivial
      · cases success
  | succ height induction =>
      simp only [BuddyTree.take] at success
      split at success
      · split at success
        · cases success
          trivial
        · cases success
      · cases tree with
        | used => simp at success
        | unused =>
            simp only [Option.map_eq_some_iff] at success
            obtain ⟨⟨offset', left⟩, leftTaken, pairEq⟩ := success
            cases pairEq
            have unusedFits : unused.Fits height := by cases height <;> trivial
            exact ⟨induction unusedFits leftTaken, unusedFits⟩
        | split left right =>
            obtain ⟨leftFits, rightFits⟩ := fits
            simp only at success
            cases leftResult : BuddyTree.take order height left with
            | some leftTaken =>
                simp only [leftResult, Option.some.injEq] at success
                cases success
                exact ⟨induction leftFits leftResult, rightFits⟩
            | none =>
                simp only [leftResult, Option.map_eq_some_iff] at success
                obtain ⟨⟨offset', right'⟩, rightTaken, pairEq⟩ := success
                cases pairEq
                exact ⟨leftFits, induction rightFits rightTaken⟩

theorem Coalesced.take {order height offset : Nat} {tree taken : BuddyTree}
    (coalesced : tree.Coalesced)
    (success : take order height tree = some (offset, taken)) :
    taken.Coalesced := by
  induction height generalizing tree taken offset with
  | zero =>
      simp only [BuddyTree.take] at success
      split at success
      · cases success
        trivial
      · cases success
  | succ height induction =>
      simp only [BuddyTree.take] at success
      split at success
      · split at success
        · cases success
          trivial
        · cases success
      · cases tree with
        | used => simp at success
        | unused =>
            simp only [Option.map_eq_some_iff] at success
            obtain ⟨⟨offset', left⟩, leftTaken, pairEq⟩ := success
            cases pairEq
            exact ⟨fun both => take_ne_unused leftTaken both.1,
              induction (by trivial) leftTaken, trivial⟩
        | split left right =>
            obtain ⟨notBoth, leftCoalesced, rightCoalesced⟩ := coalesced
            simp only at success
            cases leftResult : BuddyTree.take order height left with
            | some leftTaken =>
                simp only [leftResult, Option.some.injEq] at success
                cases success
                exact ⟨fun both => take_ne_unused leftResult both.1,
                  induction leftCoalesced leftResult, rightCoalesced⟩
            | none =>
                simp only [leftResult, Option.map_eq_some_iff] at success
                obtain ⟨⟨offset', right'⟩, rightTaken, pairEq⟩ := success
                cases pairEq
                exact ⟨fun both => take_ne_unused rightTaken both.2,
                  leftCoalesced,
                  induction rightCoalesced rightTaken⟩

/-- An unused tree has room for every order up to its height, at its left
end. -/
theorem take_unused {order height : Nat} (small : order ≤ height) :
    ∃ taken, take order height unused = some (0, taken) := by
  induction height with
  | zero =>
      obtain rfl : order = 0 := by omega
      exact ⟨used, rfl⟩
  | succ height induction =>
      by_cases same : order = height + 1
      · exact ⟨used, by simp [take, same]⟩
      · obtain ⟨left, leftTaken⟩ := induction (by omega)
        exact ⟨split left unused, by simp [take, same, leftTaken]⟩

/-! ## Giving a block back -/

theorem blocks_join (height base : Nat) (left right : BuddyTree) :
    (join left right).blocks (height + 1) base =
      left.blocks height base ++ right.blocks height (base + 2 ^ height) := by
  unfold join
  split
  · next both => simp [both.1, both.2]
  · rfl

/-- Giving back a block that is handed out succeeds and removes just that
block. -/
theorem give_blocks {height base offset order : Nat} {tree : BuddyTree}
    (member : (base + offset, order) ∈ tree.blocks height base) :
    ∃ given, give height offset tree = some given ∧
      (tree.blocks height base).Perm
        ((base + offset, order) :: given.blocks height base) := by
  induction height generalizing base tree offset with
  | zero =>
      cases tree with
      | used =>
          simp only [blocks_used, List.mem_singleton, Prod.mk.injEq] at member
          obtain ⟨atBase, rfl⟩ := member
          obtain rfl : offset = 0 := by omega
          exact ⟨unused, rfl, by simp⟩
      | _ => simp [blocks] at member
  | succ height induction =>
      cases tree with
      | unused => simp at member
      | used =>
          simp only [blocks_used, List.mem_singleton, Prod.mk.injEq] at member
          obtain ⟨atBase, rfl⟩ := member
          obtain rfl : offset = 0 := by omega
          exact ⟨unused, rfl, by simp⟩
      | split left right =>
          simp only [blocks, List.mem_append] at member
          have size : 0 < 2 ^ order := Nat.two_pow_pos order
          rcases member with inLeft | inRight
          · have bounds := mem_blocks_bounds inLeft
            have near : offset < 2 ^ height := by omega
            obtain ⟨left', given, removed⟩ := induction inLeft
            refine ⟨join left' right, by simp [give, near, given], ?_⟩
            rw [blocks_join]
            exact removed.append_right _
          · have bounds := mem_blocks_bounds inRight
            have far : ¬ offset < 2 ^ height := by omega
            have rebased : base + offset =
                base + 2 ^ height + (offset - 2 ^ height) := by
              omega
            rw [rebased] at inRight ⊢
            obtain ⟨right', given, removed⟩ := induction inRight
            refine ⟨join left right', by simp [give, far, given], ?_⟩
            rw [blocks_join]
            exact (removed.append_left _).trans List.perm_middle

theorem Coalesced.join {left right : BuddyTree}
    (leftCoalesced : left.Coalesced) (rightCoalesced : right.Coalesced) :
    (join left right).Coalesced := by
  unfold BuddyTree.join
  split
  · trivial
  · next notBoth => exact ⟨notBoth, leftCoalesced, rightCoalesced⟩

theorem Fits.join {height : Nat} {left right : BuddyTree}
    (leftFits : left.Fits height) (rightFits : right.Fits height) :
    (join left right).Fits (height + 1) := by
  unfold BuddyTree.join
  split
  · trivial
  · exact ⟨leftFits, rightFits⟩

theorem Coalesced.give {height offset : Nat} {tree given : BuddyTree}
    (coalesced : tree.Coalesced)
    (success : give height offset tree = some given) :
    given.Coalesced := by
  induction height generalizing tree given offset with
  | zero =>
      cases tree <;> simp [BuddyTree.give] at success
      obtain ⟨-, rfl⟩ := success
      trivial
  | succ height induction =>
      cases tree with
      | unused => simp [BuddyTree.give] at success
      | used =>
          simp only [BuddyTree.give, Option.ite_none_right_eq_some] at success
          obtain ⟨-, equality⟩ := success
          cases equality
          trivial
      | split left right =>
          obtain ⟨-, leftCoalesced, rightCoalesced⟩ := coalesced
          simp only [BuddyTree.give] at success
          split at success
          · obtain ⟨left', leftGiven, rfl⟩ := Option.map_eq_some_iff.mp success
            exact (induction leftCoalesced leftGiven).join rightCoalesced
          · obtain ⟨right', rightGiven, rfl⟩ :=
              Option.map_eq_some_iff.mp success
            exact leftCoalesced.join (induction rightCoalesced rightGiven)

theorem Fits.give {height offset : Nat} {tree given : BuddyTree}
    (fits : tree.Fits height) (success : give height offset tree = some given) :
    given.Fits height := by
  induction height generalizing tree given offset with
  | zero =>
      cases tree <;> simp [BuddyTree.give] at success
      obtain ⟨-, rfl⟩ := success
      trivial
  | succ height induction =>
      cases tree with
      | unused => simp [BuddyTree.give] at success
      | used =>
          simp only [BuddyTree.give, Option.ite_none_right_eq_some] at success
          obtain ⟨-, equality⟩ := success
          cases equality
          trivial
      | split left right =>
          obtain ⟨leftFits, rightFits⟩ := fits
          simp only [BuddyTree.give] at success
          split at success
          · obtain ⟨left', leftGiven, rfl⟩ := Option.map_eq_some_iff.mp success
            exact (induction leftFits leftGiven).join rightFits
          · obtain ⟨right', rightGiven, rfl⟩ :=
              Option.map_eq_some_iff.mp success
            exact leftFits.join (induction rightFits rightGiven)

/-! ## The blocks determine the tree -/

theorem eq_unused_of_blocks_nil {height : Nat} (base : Nat) {tree : BuddyTree}
    (fits : tree.Fits height) (coalesced : tree.Coalesced)
    (nil : tree.blocks height base = []) : tree = unused := by
  induction height generalizing base tree with
  | zero => cases tree <;> simp_all [Fits, blocks]
  | succ height induction =>
      cases tree with
      | unused => rfl
      | used => simp at nil
      | split left right =>
          obtain ⟨leftFits, rightFits⟩ := fits
          obtain ⟨notBoth, leftCoalesced, rightCoalesced⟩ := coalesced
          simp only [blocks, List.append_eq_nil_iff] at nil
          exact absurd ⟨induction base leftFits leftCoalesced nil.1,
            induction _ rightFits rightCoalesced nil.2⟩ notBoth

theorem mem_left_iff (height base : Nat) (left right : BuddyTree)
    (block : Nat × Nat) :
    block ∈ left.blocks height base ↔
      block ∈ (split left right).blocks (height + 1) base ∧
        block.1 < base + 2 ^ height := by
  obtain ⟨start, order⟩ := block
  have size : 0 < 2 ^ order := Nat.two_pow_pos order
  simp only [blocks, List.mem_append]
  constructor
  · intro inLeft
    have bounds := mem_blocks_bounds inLeft
    exact ⟨.inl inLeft, by omega⟩
  · rintro ⟨inLeft | inRight, before⟩
    · exact inLeft
    · have bounds := mem_blocks_bounds inRight
      omega

theorem mem_right_iff (height base : Nat) (left right : BuddyTree)
    (block : Nat × Nat) :
    block ∈ right.blocks height (base + 2 ^ height) ↔
      block ∈ (split left right).blocks (height + 1) base ∧
        base + 2 ^ height ≤ block.1 := by
  obtain ⟨start, order⟩ := block
  have size : 0 < 2 ^ order := Nat.two_pow_pos order
  simp only [blocks, List.mem_append]
  constructor
  · intro inRight
    have bounds := mem_blocks_bounds inRight
    exact ⟨.inr inRight, by omega⟩
  · rintro ⟨inLeft | inRight, after⟩
    · have bounds := mem_blocks_bounds inLeft
      omega
    · exact inRight

/-- Two coalesced trees that hand out the same blocks are equal. -/
theorem eq_of_same_blocks {height : Nat} (base : Nat) {first second : BuddyTree}
    (firstFits : first.Fits height) (secondFits : second.Fits height)
    (firstCoalesced : first.Coalesced) (secondCoalesced : second.Coalesced)
    (same : ∀ block, block ∈ first.blocks height base ↔
      block ∈ second.blocks height base) : first = second := by
  induction height generalizing base first second with
  | zero =>
      cases first <;> cases second <;> simp_all [Fits]
  | succ height induction =>
      have splitHasNoWhole : ∀ left right : BuddyTree,
          (base, height + 1) ∉ (split left right).blocks (height + 1) base := by
        intro left right member
        simp only [blocks, List.mem_append] at member
        rcases member with inLeft | inRight
        · have bounds := mem_blocks_bounds inLeft
          omega
        · have bounds := mem_blocks_bounds inRight
          omega
      cases first with
      | unused =>
          refine (eq_unused_of_blocks_nil base secondFits
            secondCoalesced ?_).symm
          exact List.eq_nil_iff_forall_not_mem.mpr fun block member => by
            simpa using (same block).mpr member
      | used =>
          have whole := (same (base, height + 1)).mp (by simp)
          cases second with
          | unused => simp at whole
          | used => rfl
          | split left right => exact absurd whole (splitHasNoWhole left right)
      | split left right =>
          cases second with
          | unused =>
              exact eq_unused_of_blocks_nil base firstFits firstCoalesced
                (List.eq_nil_iff_forall_not_mem.mpr fun block member => by
                  simpa using (same block).mp member)
          | used =>
              have whole := (same (base, height + 1)).mpr (by simp)
              exact absurd whole (splitHasNoWhole left right)
          | split left' right' =>
              obtain ⟨-, leftCoalesced, rightCoalesced⟩ := firstCoalesced
              obtain ⟨-, leftCoalesced', rightCoalesced'⟩ := secondCoalesced
              have sameLeft := induction base firstFits.1 secondFits.1
                leftCoalesced leftCoalesced' (fun block => by
                  rw [mem_left_iff height base left right,
                    mem_left_iff height base left' right', same])
              have sameRight := induction (base + 2 ^ height) firstFits.2
                secondFits.2 rightCoalesced rightCoalesced' (fun block => by
                  rw [mem_right_iff height base left right,
                    mem_right_iff height base left' right', same])
              rw [sameLeft, sameRight]

/-! ## Positions in a tree -/

theorem take_full {order height : Nat} {tree : BuddyTree}
    (isFull : tree.full = true) : take order height tree = none := by
  induction height generalizing tree with
  | zero => cases tree <;> simp_all [full, take]
  | succ height induction =>
      cases tree with
      | unused => simp [full] at isFull
      | used => simp [take]
      | split left right =>
          simp only [full, Bool.and_eq_true] at isFull
          simp [take, induction isFull.1, induction isFull.2]

theorem take_of_lt {order height : Nat} {tree : BuddyTree}
    (large : height < order) : take order height tree = none := by
  induction height generalizing tree with
  | zero =>
      have positive : order ≠ 0 := by omega
      simp [take, positive]
  | succ height induction =>
      have different : order ≠ height + 1 := by omega
      have smaller : height < order := by omega
      cases tree <;> simp [take, different, induction smaller]

/-! ## The leftmost free run -/

/-- `2 ^ order` units from `offset` on, aligned to their number, that lie in the
tree and overlap no block. -/
structure FreeAt (order height base : Nat) (tree : BuddyTree)
    (offset : Nat) : Prop where
  aligned : 2 ^ order ∣ offset
  inside : offset + 2 ^ order ≤ 2 ^ height
  free : ∀ block ∈ tree.blocks height base,
    base + offset + 2 ^ order ≤ block.1 ∨ block.1 + 2 ^ block.2 ≤ base + offset

section FreeRuns

variable {order height base offset : Nat} {tree left right : BuddyTree}

theorem aligned_in_half (small : order ≤ height) (aligned : 2 ^ order ∣ offset)
    (before : offset < 2 ^ height) : offset + 2 ^ order ≤ 2 ^ height := by
  obtain ⟨count, rfl⟩ := aligned
  obtain ⟨extra, rfl⟩ := Nat.exists_eq_add_of_le small
  rw [pow_add] at before ⊢
  have fewer : count + 1 ≤ 2 ^ extra := Nat.lt_of_mul_lt_mul_left before
  calc
    2 ^ order * count + 2 ^ order = 2 ^ order * (count + 1) := by ring
    _ ≤ 2 ^ order * 2 ^ extra := Nat.mul_le_mul_left _ fewer

theorem freeAt_unused (small : order ≤ height) :
    FreeAt order height base unused 0 where
  aligned := Nat.dvd_zero _
  inside := by
    rw [Nat.zero_add]
    exact Nat.pow_le_pow_right (by decide) small
  free := by simp

theorem not_freeAt_used : ¬ FreeAt order height base used offset := by
  intro run
  have apart := run.free (base, height) (by simp)
  have inside := run.inside
  have positive := Nat.two_pow_pos order
  simp only at apart
  omega

/-- A tree whose units are all free is unused. -/
theorem FreeAt.whole (run : FreeAt height height base tree offset)
    (fits : tree.Fits height)
    (coalesced : tree.Coalesced) : tree = unused := by
  apply eq_unused_of_blocks_nil base fits coalesced
  apply List.eq_nil_iff_forall_not_mem.mpr
  rintro ⟨start, size⟩ member
  have bounds := mem_blocks_bounds member
  have apart := run.free _ member
  have inside := run.inside
  have positive := Nat.two_pow_pos size
  simp only at apart
  omega

theorem freeAt_left (small : order ≤ height) (before : offset < 2 ^ height) :
    FreeAt order (height + 1) base (split left right) offset ↔
      FreeAt order height base left offset := by
  have double : 2 ^ (height + 1) = 2 ^ height + 2 ^ height := by ring
  constructor
  · intro run
    refine ⟨run.aligned, aligned_in_half small run.aligned before, ?_⟩
    intro block member
    exact run.free block (List.mem_append.mpr (.inl member))
  · intro run
    have inside := run.inside
    refine ⟨run.aligned, by omega, ?_⟩
    intro block member
    rcases List.mem_append.mp member with inLeft | inRight
    · exact run.free block inLeft
    · have bounds := mem_blocks_bounds inRight
      omega

theorem freeAt_right (small : order ≤ height) :
    FreeAt order (height + 1) base (split left right) (2 ^ height + offset) ↔
      FreeAt order height (base + 2 ^ height) right offset := by
  have double : 2 ^ (height + 1) = 2 ^ height + 2 ^ height := by ring
  have half : 2 ^ order ∣ 2 ^ height := pow_dvd_pow 2 small
  constructor
  · intro run
    have inside := run.inside
    refine ⟨(Nat.dvd_add_right half).mp run.aligned, by omega, ?_⟩
    intro block member
    have apart := run.free block (List.mem_append.mpr (.inr member))
    omega
  · intro run
    have inside := run.inside
    refine ⟨Nat.dvd_add half run.aligned, by omega, ?_⟩
    intro block member
    rcases List.mem_append.mp member with inLeft | inRight
    · have bounds := mem_blocks_bounds inLeft
      omega
    · have apart := run.free block inRight
      omega

/-- What is taken is the first free run, and nothing is taken only when there
is none. -/
theorem take_lowest (base : Nat) (fits : tree.Fits height)
    (coalesced : tree.Coalesced) :
    match take order height tree with
    | some taken => FreeAt order height base tree taken.1 ∧
        ∀ offset, FreeAt order height base tree offset → taken.1 ≤ offset
    | none => ∀ offset, ¬ FreeAt order height base tree offset := by
  induction height generalizing base tree with
  | zero =>
      by_cases condition : order = 0 ∧ tree = unused
      · obtain ⟨rfl, rfl⟩ := condition
        simp only [take, and_self, if_true]
        exact ⟨freeAt_unused le_rfl, fun _ _ => Nat.zero_le _⟩
      · simp only [take, condition, if_false]
        intro offset run
        have inside := run.inside
        have single : order = 0 := by
          by_contra large
          have bigger : 2 ^ 1 ≤ 2 ^ order :=
            Nat.pow_le_pow_right (by decide) (by omega)
          omega
        subst single
        exact condition ⟨rfl, run.whole fits coalesced⟩
  | succ height induction =>
      by_cases same : order = height + 1
      · subst same
        by_cases free : tree = unused
        · subst free
          simp only [take, if_true]
          exact ⟨freeAt_unused le_rfl, fun _ _ => Nat.zero_le _⟩
        · simp only [take, free, if_true, if_false]
          exact fun offset run => free (run.whole fits coalesced)
      by_cases large : height + 1 < order
      · rw [take_of_lt large]
        intro offset run
        have bigger := Nat.pow_lt_pow_right (by decide : 1 < 2) large
        have inside := run.inside
        omega
      have small : order ≤ height := by omega
      cases tree with
      | used =>
          simp only [take, same, if_false]
          exact fun offset => not_freeAt_used
      | unused =>
          obtain ⟨taken, success⟩ := take_unused small
          simp only [take, same, if_false, success, Option.map_some]
          exact ⟨freeAt_unused (by omega), fun _ _ => Nat.zero_le _⟩
      | split left right =>
          have inLeft := induction base fits.1 coalesced.2.1
          have inRight := induction (base + 2 ^ height) fits.2 coalesced.2.2
          simp only [take, same, if_false]
          cases leftResult : take order height left with
          | some taken =>
              simp only [leftResult] at inLeft ⊢
              obtain ⟨run, lowest⟩ := inLeft
              have before : taken.1 < 2 ^ height := by
                have inside := run.inside
                have positive := Nat.two_pow_pos order
                omega
              refine ⟨(freeAt_left small before).mpr run, ?_⟩
              intro offset other
              by_cases half : offset < 2 ^ height
              · exact lowest offset ((freeAt_left small half).mp other)
              · omega
          | none =>
              simp only [leftResult] at inLeft ⊢
              have beyond : ∀ offset,
                  FreeAt order (height + 1) base (split left right) offset →
                  ∃ offset', offset = 2 ^ height + offset' ∧
                    FreeAt order height (base + 2 ^ height) right offset' := by
                intro offset run
                have half : 2 ^ height ≤ offset := by
                  by_contra before
                  exact inLeft offset ((freeAt_left small (by omega)).mp run)
                obtain ⟨offset', rfl⟩ := Nat.exists_eq_add_of_le half
                exact ⟨offset', rfl, (freeAt_right small).mp run⟩
              cases rightResult : take order height right with
              | some taken =>
                  simp only [rightResult, Option.map_some] at inRight ⊢
                  obtain ⟨run, lowest⟩ := inRight
                  refine ⟨(freeAt_right small).mpr run, ?_⟩
                  intro offset other
                  obtain ⟨offset', rfl, inHalf⟩ := beyond offset other
                  exact Nat.add_le_add_left (lowest offset' inHalf) _
              | none =>
                  simp only [rightResult, Option.map_none] at inRight ⊢
                  intro offset other
                  obtain ⟨offset', -, inHalf⟩ := beyond offset other
                  exact inRight offset' inHalf

end FreeRuns

/-- One step of the way from a node up to its parent, with the other half. -/
inductive Frame where
  | left (right : BuddyTree)
  | right (left : BuddyTree)

/-- The other half. -/
def Frame.sibling : Frame → BuddyTree
  | .left other => other
  | .right other => other

/-- The parent, with the given tree as the half the step came from. -/
def Frame.fill : Frame → BuddyTree → BuddyTree
  | .left other, tree => split tree other
  | .right other, tree => split other tree

/-- Put a tree back below the nodes of a path. -/
def plug : List Frame → BuddyTree → BuddyTree
  | [], tree => tree
  | frame :: path, tree => plug path (frame.fill tree)

/-- Like `plug`, merging unused halves on the way up. -/
def plugJoin : List Frame → BuddyTree → BuddyTree
  | [], tree => tree
  | frame :: path, tree =>
      plugJoin path
        (if tree = unused ∧ frame.sibling = unused then unused
          else frame.fill tree)

theorem Frame.full_fill (frame : Frame) (tree : BuddyTree) :
    (frame.fill tree).full = (tree.full && frame.sibling.full) := by
  cases frame <;> simp [fill, sibling, full, Bool.and_comm]

theorem Frame.fill_ne_unused (frame : Frame) (tree : BuddyTree) :
    frame.fill tree ≠ unused := by
  cases frame <;> simp [fill]

theorem plugJoin_of_ne_unused {path : List Frame} {tree : BuddyTree}
    (inUse : tree ≠ unused) : plugJoin path tree = plug path tree := by
  induction path generalizing tree with
  | nil => rfl
  | cons frame path induction =>
      simp [plugJoin, plug, inUse, induction (frame.fill_ne_unused tree)]

/-- The start of the units below a node, for a node of the given height. -/
def startOf (height : Nat) : List Frame → Nat
  | [] => 0
  | .left _ :: path => startOf (height + 1) path
  | .right _ :: path => startOf (height + 1) path + 2 ^ height

/-- The number of a node when nodes are numbered level by level. -/
def indexOf : List Frame → Nat
  | [] => 0
  | .left _ :: path => 2 * indexOf path + 1
  | .right _ :: path => 2 * indexOf path + 2

/-- The number of the other half, for the last step of a path. -/
def siblingIndex : Frame → List Frame → Nat
  | .left _, path => 2 * indexOf path + 2
  | .right _, path => 2 * indexOf path + 1

theorem indexOf_bounds (path : List Frame) :
    2 ^ path.length ≤ indexOf path + 1 ∧
      indexOf path + 1 < 2 ^ (path.length + 1) := by
  induction path with
  | nil => simp [indexOf]
  | cons frame path induction =>
      have double : 2 ^ (path.length + 1) = 2 * 2 ^ path.length := by ring
      have double' : 2 ^ (path.length + 1 + 1) = 2 * 2 ^ (path.length + 1) := by
        ring
      cases frame <;> simp only [indexOf, List.length_cons] <;> omega

theorem startOf_eq (height : Nat) (path : List Frame) :
    startOf height path =
      (indexOf path + 1 - 2 ^ path.length) * 2 ^ height := by
  induction path generalizing height with
  | nil => simp [startOf, indexOf]
  | cons frame path induction =>
      obtain ⟨below, -⟩ := indexOf_bounds path
      have double : 2 ^ (path.length + 1) = 2 * 2 ^ path.length := by ring
      have doubled : ∀ rest : Nat,
          2 * rest * 2 ^ height = rest * 2 ^ (height + 1) := by
        intro rest
        ring
      cases frame with
      | left sibling =>
          have shifted : 2 * indexOf path + 1 + 1 - 2 ^ (path.length + 1) =
              2 * (indexOf path + 1 - 2 ^ path.length) := by omega
          simp only [startOf, indexOf, List.length_cons, induction,
            shifted, doubled]
      | right sibling =>
          have shifted : 2 * indexOf path + 2 + 1 - 2 ^ (path.length + 1) =
              2 * (indexOf path + 1 - 2 ^ path.length) + 1 := by omega
          simp only [startOf, indexOf, List.length_cons, induction, shifted,
            Nat.add_mul, Nat.one_mul, doubled]

/-- Node `j` is `i` or lies below it in the level by level numbering. -/
def Below (i j : Nat) : Prop := ∃ depth, (j + 1) / 2 ^ depth = i + 1

theorem Below.refl (i : Nat) : Below i i := ⟨0, by simp⟩

theorem Below.le {i j : Nat} (below : Below i j) : i ≤ j := by
  obtain ⟨depth, ancestor⟩ := below
  have shrinks := Nat.div_le_self (j + 1) (2 ^ depth)
  omega

theorem Below.of_left {i j : Nat} (below : Below (2 * i + 1) j) :
    Below i j := by
  obtain ⟨depth, ancestor⟩ := below
  refine ⟨depth + 1, ?_⟩
  rw [pow_succ, ← Nat.div_div_eq_div_mul, ancestor]
  omega

theorem Below.of_right {i j : Nat} (below : Below (2 * i + 2) j) :
    Below i j := by
  obtain ⟨depth, ancestor⟩ := below
  refine ⟨depth + 1, ?_⟩
  rw [pow_succ, ← Nat.div_div_eq_div_mul, ancestor]
  omega

theorem Below.not_both {i j : Nat} (left : Below (2 * i + 1) j) :
    ¬ Below (2 * i + 2) j := by
  rintro ⟨depth', right⟩
  obtain ⟨depth, left⟩ := left
  rcases lt_trichotomy depth depth' with less | same | more
  · obtain ⟨further, rfl⟩ := Nat.exists_eq_add_of_lt less
    rw [Nat.add_assoc, pow_add, ← Nat.div_div_eq_div_mul, left, pow_succ,
      Nat.mul_comm (2 ^ further), ← Nat.div_div_eq_div_mul] at right
    have shrinks := Nat.div_le_self ((2 * i + 1 + 1) / 2) (2 ^ further)
    omega
  · subst same
    omega
  · obtain ⟨further, rfl⟩ := Nat.exists_eq_add_of_lt more
    rw [Nat.add_assoc, pow_add, ← Nat.div_div_eq_div_mul, right, pow_succ,
      Nat.mul_comm (2 ^ further), ← Nat.div_div_eq_div_mul] at left
    have shrinks := Nat.div_le_self ((2 * i + 2 + 1) / 2) (2 ^ further)
    omega

theorem Below.of_hole {frame : Frame} {path : List Frame} {j : Nat}
    (below : Below (indexOf (frame :: path)) j) : Below (indexOf path) j := by
  cases frame with
  | left right => exact below.of_left
  | right left => exact below.of_right

theorem Below.of_sibling {frame : Frame} {path : List Frame} {j : Nat}
    (below : Below (siblingIndex frame path) j) : Below (indexOf path) j := by
  cases frame with
  | left right => exact below.of_right
  | right left => exact below.of_left

theorem Below.not_sibling {frame : Frame} {path : List Frame} {j : Nat}
    (hole : Below (indexOf (frame :: path)) j) :
    ¬ Below (siblingIndex frame path) j := by
  cases frame with
  | left right => exact hole.not_both
  | right left => exact fun below => below.not_both hole

theorem not_below_hole (frame : Frame) (path : List Frame) :
    ¬ Below (indexOf (frame :: path)) (indexOf path) := by
  intro below
  have := below.le
  cases frame <;> simp only [indexOf] at this <;> omega

theorem not_below_sibling (frame : Frame) (path : List Frame) :
    ¬ Below (siblingIndex frame path) (indexOf path) := by
  intro below
  have := below.le
  cases frame <;> simp only [siblingIndex] at this <;> omega

end BuddyTree
