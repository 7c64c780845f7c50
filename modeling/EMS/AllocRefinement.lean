import EMS.Alloc
import EMS.BuddyTree
import Mathlib.Tactic.SplitIfs

/-!
# The allocator computes on buddy trees

The array of node states represents a buddy tree.  Searching, marking,
merging and unmarking are each related to an operation on the tree at the
position the loop has reached, and the two entry points compute `take` and
`give` on the whole tree.
-/

namespace EMS

open BuddyTree

/-! ## Tree accesses -/

theorem EmsMem.read_ok (self : EmsMem) {i : Nat} (inside : i < self.size) :
    self.read (i : Int) = .ok (self.tree i) := by
  simp [EmsMem.read, inside]

theorem EmsMem.write_ok (self : EmsMem) {i : Nat} (inside : i < self.size)
    (state : Buddy) :
    self.write (i : Int) state =
      .ok { self with tree := Function.update self.tree i state } := by
  simp [EmsMem.write, inside]

theorem buddyOf_hole (frame : Frame) (path : List Frame) :
    buddyOf (indexOf (frame :: path) : Int) = siblingIndex frame path := by
  cases frame <;> simp only [buddyOf, indexOf, siblingIndex] <;> omega

private theorem siblingIndex_pos (frame : Frame) (path : List Frame) :
    (0 : Int) < siblingIndex frame path := by
  cases frame <;> simp only [siblingIndex] <;> omega

theorem parent_hole (frame : Frame) (path : List Frame) :
    ((indexOf (frame :: path) : Int) + 1) / 2 - 1 = indexOf path := by
  cases frame <;> simp only [indexOf] <;> omega

theorem indexOf_lt_size {self : EmsMem} {path : List Frame} {height : Nat}
    (depth : path.length + height = self.level) : indexOf path < self.size := by
  obtain ⟨-, below⟩ := indexOf_bounds path
  have grows : 2 ^ (path.length + 1) ≤ 2 ^ (self.level + 1) :=
    Nat.pow_le_pow_right (by omega) (by omega)
  unfold EmsMem.size
  omega

theorem siblingIndex_lt_size {self : EmsMem} {frame : Frame} {path : List Frame}
    {height : Nat} (depth : (frame :: path).length + height = self.level) :
    siblingIndex frame path < self.size := by
  -- the two halves of a node lie at the same depth
  cases frame with
  | left right =>
      have other : (Frame.right right :: path).length + height = self.level :=
        depth
      exact indexOf_lt_size other
  | right left =>
      have other : (Frame.left left :: path).length + height = self.level :=
        depth
      exact indexOf_lt_size other

/-! ## Representation -/

/-- The state byte of a node. -/
def mark : BuddyTree → Buddy
  | .unused => .unused
  | .used => .used
  | .split left right => if left.full && right.full then .full else .split

theorem mark_split (left right : BuddyTree) :
    mark (.split left right) = .full ∨ mark (.split left right) = .split := by
  simp only [mark]
  split
  · exact .inl rfl
  · exact .inr rfl

/-- The states at and below node `i` spell out the tree. -/
def Represents (states : Nat → Buddy) : Nat → Nat → BuddyTree → Prop
  | i, _, .unused => states i = .unused
  | i, _, .used => states i = .used
  | _, 0, .split _ _ => False
  | i, height + 1, .split left right =>
      states i = mark (.split left right) ∧
        Represents states (2 * i + 1) height left ∧
        Represents states (2 * i + 2) height right

theorem Represents.root {states : Nat → Buddy} {i height : Nat}
    {tree : BuddyTree}
    (represents : Represents states i height tree) : states i = mark tree := by
  cases tree with
  | split left right =>
      cases height with
      | zero => exact represents.elim
      | succ height => exact represents.1
  | _ => cases height <;> exact represents

theorem Represents.fits {states : Nat → Buddy} {i height : Nat}
    {tree : BuddyTree}
    (represents : Represents states i height tree) : tree.Fits height := by
  induction height generalizing i tree with
  | zero => cases tree <;> trivial
  | succ height induction =>
      cases tree with
      | split left right =>
          exact ⟨induction represents.2.1, induction represents.2.2⟩
      | _ => trivial

theorem Represents.congr {states states' : Nat → Buddy} {i height : Nat}
    {tree : BuddyTree} (same : ∀ j, Below i j → states' j = states j)
    (represents : Represents states i height tree) :
    Represents states' i height tree := by
  induction height generalizing i tree with
  | zero =>
      cases tree with
      | split left right => exact represents.elim
      | _ => exact (same i (Below.refl i)).trans represents
  | succ height induction =>
      cases tree with
      | split left right =>
          exact ⟨(same i (Below.refl i)).trans represents.1,
            induction (fun j below => same j below.of_left) represents.2.1,
            induction (fun j below => same j below.of_right) represents.2.2⟩
      | _ => exact (same i (Below.refl i)).trans represents

theorem mark_eq_unused {tree : BuddyTree} :
    mark tree = .unused ↔ tree = .unused := by
  cases tree with
  | split left right =>
      simp only [mark, reduceCtorEq, iff_false]
      split <;> simp
  | _ => simp [mark]

theorem mark_full {tree : BuddyTree} :
    (mark tree = .used ∨ mark tree = .full) ↔ tree.full = true := by
  cases tree with
  | split left right =>
      simp only [mark, full]
      split <;> simp_all
  | _ => simp [mark, full]

theorem represents_fill {states : Nat → Buddy} {frame : Frame}
    {path : List Frame}
    {height : Nat} {tree : BuddyTree} :
    Represents states (indexOf path) (height + 1) (frame.fill tree) ↔
      states (indexOf path) = mark (frame.fill tree) ∧
        Represents states (indexOf (frame :: path)) height tree ∧
        Represents states (siblingIndex frame path) height frame.sibling := by
  cases frame with
  | left right => exact Iff.rfl
  | right left =>
      exact ⟨fun ⟨marked, leftHalf, rightHalf⟩ => ⟨marked, rightHalf, leftHalf⟩,
        fun ⟨marked, rightHalf, leftHalf⟩ => ⟨marked, leftHalf, rightHalf⟩⟩

theorem mark_fill (frame : Frame) (tree : BuddyTree) :
    mark (frame.fill tree) =
      if tree.full && frame.sibling.full then .full else .split := by
  cases frame <;> simp [Frame.fill, Frame.sibling, mark, and_comm]

/-- The states outside the hole at the end of a path: the other halves are
represented, and the nodes on the path are marked for a hole that is full or
not. -/
def Around (states : Nat → Buddy) : List Frame → Nat → Bool → Prop
  | [], _, _ => True
  | frame :: path, height, isFull =>
      states (indexOf path) =
        (if isFull && frame.sibling.full then .full else .split) ∧
        Represents states (siblingIndex frame path) height frame.sibling ∧
        Around states path (height + 1) (isFull && frame.sibling.full)

theorem Around.congr {states states' : Nat → Buddy} {path : List Frame}
    {height : Nat} {isFull : Bool}
    (same : ∀ j, ¬ Below (indexOf path) j → states' j = states j)
    (around : Around states path height isFull) :
    Around states' path height isFull := by
  induction path generalizing height isFull with
  | nil => trivial
  | cons frame path induction =>
      obtain ⟨marked, sibling, outer⟩ := around
      refine ⟨?_, sibling.congr fun j below => same j
        fun hole => hole.not_sibling below,
        induction (fun j outside => same j fun hole =>
          outside hole.of_hole) outer⟩
      rw [same _ (not_below_hole frame path), marked]

theorem Around.write {states : Nat → Buddy} {path : List Frame} {height : Nat}
    {isFull : Bool} (around : Around states path height isFull)
    (state : Buddy) :
    Around (Function.update states (indexOf path) state) path height
      isFull := by
  refine around.congr fun j outside => Function.update_of_ne ?_ _ _
  rintro rfl
  exact outside (Below.refl _)

theorem Represents.write_parent {states : Nat → Buddy} {frame : Frame}
    {path : List Frame} {height : Nat} {tree sibling : BuddyTree}
    (hole : Represents states (indexOf (frame :: path)) height tree)
    (other : Represents states (siblingIndex frame path) height sibling)
    (state : Buddy) :
    Represents (Function.update states (indexOf path) state)
        (indexOf (frame :: path)) height tree ∧
      Represents (Function.update states (indexOf path) state)
        (siblingIndex frame path) height sibling := by
  constructor
  · refine hole.congr fun j below => Function.update_of_ne ?_ _ _
    rintro rfl
    exact not_below_hole frame path below
  · refine other.congr fun j below => Function.update_of_ne ?_ _ _
    rintro rfl
    exact not_below_sibling frame path below

/-- The array represents `tree` at the end of `path`, and everything around
it. -/
structure AtHole (states : Nat → Buddy) (path : List Frame) (height : Nat)
    (tree : BuddyTree) : Prop where
  inside : Represents states (indexOf path) height tree
  around : Around states path height tree.full

theorem atHole_fill {states : Nat → Buddy} {frame : Frame} {path : List Frame}
    {height : Nat} {tree : BuddyTree} :
    AtHole states path (height + 1) (frame.fill tree) ↔
      AtHole states (frame :: path) height tree := by
  constructor
  · rintro ⟨inside, around⟩
    obtain ⟨marked, hole, sibling⟩ := represents_fill.mp inside
    rw [Frame.full_fill] at around
    exact ⟨hole, marked.trans (mark_fill frame tree), sibling, around⟩
  · rintro ⟨hole, marked, sibling, around⟩
    refine ⟨represents_fill.mpr ⟨marked.trans (mark_fill frame tree).symm, hole,
      sibling⟩, ?_⟩
    rw [Frame.full_fill]
    exact around

theorem AtHole.plug {states : Nat → Buddy} {path : List Frame} {height : Nat}
    {tree : BuddyTree} (hole : AtHole states path height tree) :
    Represents states 0 (path.length + height) (plug path tree) := by
  induction path generalizing height tree with
  | nil => simpa [BuddyTree.plug, indexOf] using hole.inside
  | cons frame path induction =>
      have taller : (frame :: path).length + height =
          path.length + (height + 1) := by
        simp only [List.length_cons]
        omega
      rw [taller]
      exact induction (atHole_fill.mpr hole)

/-! ## Marking full parents -/

/-- `EMS_mark_parent` completes the marks above a node that has become full. -/
theorem EMS_mark_parent_spec {path : List Frame} {height : Nat}
    {tree : BuddyTree}
    (self : EmsMem) (bound : Nat) (depth : path.length + height = self.level)
    (enough : path.length < bound) (nowFull : tree.full = true)
    (inside : Represents self.tree (indexOf path) height tree)
    (around : Around self.tree path height false) :
    ∃ states, EMS_mark_parent bound self (indexOf path) =
      .ok ⟨self.level, states⟩ ∧
      Represents states 0 self.level (plug path tree) := by
  induction path generalizing height tree self bound with
  | nil =>
      obtain ⟨bound, rfl⟩ := Nat.exists_eq_add_of_lt enough
      refine
        ⟨self.tree, by simp [EMS_mark_parent, buddyOf, indexOf, pure, Except.pure], ?_⟩
      rw [← depth]
      exact AtHole.plug ⟨inside, trivial⟩
  | cons frame path induction =>
      obtain ⟨bound, rfl⟩ := Nat.exists_eq_add_of_lt enough
      have depth' : path.length + (height + 1) = self.level := by
        simp only [List.length_cons] at depth
        omega
      obtain ⟨marked, sibling, outer⟩ := around
      simp only [Bool.false_and] at marked outer
      have readSibling := EmsMem.read_ok self (siblingIndex_lt_size depth)
      rw [sibling.root] at readSibling
      by_cases siblingFull : frame.sibling.full = true
      · -- both halves are full: mark the parent and go on from there
        have marks := mark_full.mpr siblingFull
        have writeParent := EmsMem.write_ok self (indexOf_lt_size depth') .full
        obtain ⟨holeAfter, siblingAfter⟩ := inside.write_parent sibling .full
        have parentFull : (frame.fill tree).full = true := by
          simp [Frame.full_fill, nowFull, siblingFull]
        have parentAfter :
            Represents (Function.update self.tree (indexOf path) .full)
            (indexOf path) (height + 1) (frame.fill tree) := by
          refine represents_fill.mpr ⟨?_, holeAfter, siblingAfter⟩
          simp [mark_fill, nowFull, siblingFull]
        obtain ⟨states, success, represents⟩ :=
          induction ⟨self.level, Function.update self.tree (indexOf path) .full⟩
            ((frame :: path).length + bound) depth'
            (by simp only [List.length_cons]; omega) parentFull parentAfter
            (outer.write .full)
        refine ⟨states, ?_, represents⟩
        simp only [EMS_mark_parent, buddyOf_hole, siblingIndex_pos, if_true,
          readSibling,
          bind, Except.bind, marks, parent_hole, writeParent]
        exact success
      · -- the parent keeps its mark, and so does everything above
        have marks : ¬ (mark frame.sibling = .used ∨
            mark frame.sibling = .full) :=
          fun marks => siblingFull (mark_full.mp marks)
        have open_ : frame.sibling.full = false := by simpa using siblingFull
        refine ⟨self.tree, ?_, ?_⟩
        · simp [EMS_mark_parent, buddyOf_hole, readSibling, bind, Except.bind,
            marks, pure, Except.pure]
        · rw [← depth]
          refine AtHole.plug ⟨inside, ?_, sibling, ?_⟩
          · simpa [open_] using marked
          · simpa [open_] using outer

/-! ## Searching -/

/-- The node that comes after a position in search order. -/
def nextNode : List Frame → Nat → Option (Int × Nat × Nat)
  | [], _ => none
  | .left other :: path, height =>
      some ((indexOf (.left other :: path) : Int) + 1,
        path.length + 1, 2 ^ height)
  | .right _ :: path, height => nextNode path (height + 1)

/-- Where climbing from a position ends. -/
def climbFrom : List Frame → Nat → Option (Int × Nat × Nat)
  | [], _ => none
  | _ :: path, height => nextNode path (height + 1)

theorem emsMem_climb_spec (path : List Frame) (height : Nat) {bound : Nat}
    (enough : path.length < bound) :
    emsMem_climb bound (indexOf path) path.length (2 ^ height) =
      .ok (climbFrom path height) := by
  induction path generalizing height bound with
  | nil =>
      obtain ⟨bound, rfl⟩ := Nat.exists_eq_add_of_lt enough
      simp [emsMem_climb, indexOf, climbFrom]
  | cons frame path induction =>
      obtain ⟨bound, rfl⟩ := Nat.exists_eq_add_of_lt enough
      have shorter : path.length < (frame :: path).length + bound := by
        simp only [List.length_cons]
        omega
      have further := induction (height + 1) shorter
      have notNegative : ¬ (indexOf path : Int) < 0 := by omega
      simp only [emsMem_climb, parent_hole, notNegative, if_false, ← pow_succ,
        List.length_cons, Nat.add_sub_cancel, climbFrom]
      cases path with
      | nil => simpa [indexOf, nextNode, climbFrom] using further
      | cons outer path =>
          cases outer with
          | left other =>
              have odd : (indexOf (.left other :: path) : Int) % 2 = 1 := by
                simp only [indexOf]
                omega
              simp [odd, nextNode]
          | right other =>
              have even : ¬ (indexOf (.right other :: path) : Int) % 2 = 1 := by
                simp only [indexOf]
                omega
              simpa [even, nextNode, climbFrom] using further

/-- Go on with the search at the given node, or report that there is none. -/
def searchFrom (bound : Nat) (self : EmsMem) (size : Nat) :
    Option (Int × Nat × Nat) → Except AllocFault (Int × EmsMem)
  | none => .ok (-1, self)
  | some (index, level, length) =>
      emsMem_search bound self size index level length

/-- A node that is neither taken nor entered is left for the next one. -/
theorem emsMem_search_skip {self : EmsMem} {path : List Frame}
    {height size : Nat}
    (depth : path.length + height = self.level)
    (notFree : self.tree (indexOf path) ≠ .unused)
    (notEntered : size = 2 ^ height ∨ self.tree (indexOf path) ≠ .split)
    (bound : Nat) :
    emsMem_search (bound + 1) self size (indexOf path) path.length
      (2 ^ height) =
      searchFrom bound self size (nextNode path height) := by
  have readHere := EmsMem.read_ok self (indexOf_lt_size depth)
  have notSplit : ¬ (size ≠ 2 ^ height ∧ self.tree (indexOf path) =
      .split) := by
    rintro ⟨different, isSplit⟩
    exact notEntered.elim different fun notSplit => notSplit isSplit
  have shallow : path.length < self.level + 1 := by omega
  have climbs := emsMem_climb_spec path height shallow
  simp only [emsMem_search, readHere, bind, Except.bind, notFree,
    and_false, if_false,
    notSplit, climbs]
  cases path with
  | nil => simp [indexOf, climbFrom, nextNode, searchFrom, pure, Except.pure]
  | cons frame path =>
      cases frame with
      | left other =>
          have odd : (indexOf (.left other :: path) : Int) % 2 = 1 := by
            simp only [indexOf]
            omega
          simp [odd, nextNode, searchFrom]
      | right other =>
          have even : ¬ (indexOf (.right other :: path) : Int) % 2 = 1 := by
            simp only [indexOf]
            omega
          simp only [even, if_false, climbFrom, nextNode]
          cases nextNode path (height + 1) <;>
            simp [searchFrom, pure, Except.pure]

/-- A free node of the right size is taken. -/
private theorem emsMem_search_take {self : EmsMem} {path : List Frame}
    {height : Nat}
    (depth : path.length + height = self.level)
    (hole : AtHole self.tree path height .unused) (bound : Nat) :
    ∃ states, emsMem_search (bound + 1) self (2 ^ height) (indexOf path)
        path.length (2 ^ height) =
        .ok (startOf height path * EMS_MEM_BLOCKSZ, ⟨self.level, states⟩) ∧
      Represents states 0 self.level (plug path .used) := by
  have inside := indexOf_lt_size depth
  have free : self.tree (indexOf path) = .unused := hole.inside.root
  have readHere := EmsMem.read_ok self inside
  have writeHere := EmsMem.write_ok self inside .used
  have taken : Represents (Function.update self.tree (indexOf path) .used)
      (indexOf path) height .used := by
    cases height <;> simp [Represents]
  obtain ⟨states, marked, represents⟩ := EMS_mark_parent_spec
    ⟨self.level, Function.update self.tree (indexOf path) .used⟩
      (self.level + 1)
    depth (by omega) full_of_used taken (hole.around.write .used)
  refine ⟨states, ?_, represents⟩
  have offset : EMS_index_offset (indexOf path) path.length self.level =
      startOf height path := by
    obtain ⟨below, -⟩ := indexOf_bounds path
    have rest : self.level - path.length = height := by omega
    rw [EMS_index_offset, startOf_eq, rest]
    push_cast [below]
    rfl
  simp [emsMem_search, readHere, bind, Except.bind, free, writeHere,
    marked, offset,
    pure, Except.pure]

/-- An unused node that is too large is split and its left half entered. -/
theorem emsMem_search_split {self : EmsMem} {path : List Frame}
    {height size : Nat}
    (depth : path.length + (height + 1) = self.level)
    (different : size ≠ 2 ^ (height + 1))
    (hole : AtHole self.tree path (height + 1) .unused) :
    ∃ states, AtHole states (.left .unused :: path) height .unused ∧
      ∀ bound, emsMem_search (bound + 1) self size (indexOf path) path.length
          (2 ^ (height + 1)) =
        emsMem_search bound ⟨self.level, states⟩ size
          (indexOf (.left .unused :: path))
          (path.length + 1) (2 ^ height) := by
  have depthBelow : (Frame.left .unused :: path).length + height =
      self.level := by
    simp only [List.length_cons]
    omega
  have inside := indexOf_lt_size depth
  have leftInside := indexOf_lt_size depthBelow
  have rightInside := siblingIndex_lt_size depthBelow
  have free : self.tree (indexOf path) = .unused := hole.inside.root
  let split := Function.update self.tree (indexOf path) .split
  let leftFree :=
    Function.update split (indexOf (.left .unused :: path)) .unused
  let bothFree :=
    Function.update leftFree (siblingIndex (.left .unused) path) .unused
  have leftNumber : (indexOf path : Int) * 2 + 1 =
      indexOf (.left .unused :: path) := by
    simp only [indexOf]
    omega
  have rightNumber : (indexOf path : Int) * 2 + 2 =
      siblingIndex (.left .unused) path := by
    simp only [siblingIndex]
    omega
  have halved : 2 ^ (height + 1) / 2 = 2 ^ height := by
    rw [pow_succ]
    omega
  refine ⟨bothFree, ?_, ?_⟩
  · have untouched : ∀ j, ¬ Below (indexOf path) j →
        bothFree j = self.tree j := by
      intro j outside
      have notRight : j ≠ siblingIndex (.left .unused) path := by
        rintro rfl
        exact outside (Below.of_sibling (Below.refl _))
      have notLeft : j ≠ indexOf (.left .unused :: path) := by
        rintro rfl
        exact outside (Below.of_hole (Below.refl _))
      have notHere : j ≠ indexOf path := by
        rintro rfl
        exact outside (Below.refl _)
      simp [bothFree, leftFree, split, notRight, notLeft, notHere]
    have isSplit : bothFree (indexOf path) = .split := by
      have notRight : indexOf path ≠ siblingIndex (.left .unused) path := by
        simp only [siblingIndex]
        omega
      have notLeft : indexOf path ≠ indexOf (.left .unused :: path) := by
        simp only [indexOf]
        omega
      simp [bothFree, leftFree, split, notRight, notLeft]
    have leftUnused : bothFree (indexOf (.left .unused :: path)) = .unused := by
      have notRight : indexOf (.left .unused :: path) ≠
          siblingIndex (.left .unused) path := by
        simp only [indexOf, siblingIndex]
        omega
      simp [bothFree, leftFree, notRight]
    have rightUnused : bothFree (siblingIndex (.left .unused) path) =
        .unused := by
      simp [bothFree]
    refine ⟨?_, isSplit, ?_, ?_⟩
    · cases height <;> exact leftUnused
    · cases height <;> exact rightUnused
    · exact hole.around.congr untouched
  · intro bound
    have readHere := EmsMem.read_ok self inside
    have writeHere := EmsMem.write_ok self inside .split
    have writeLeft := EmsMem.write_ok ⟨self.level, split⟩ leftInside .unused
    have writeRight :=
      EmsMem.write_ok ⟨self.level, leftFree⟩ rightInside .unused
    simp only [emsMem_search, readHere, bind, Except.bind, free,
      and_true, different,
      if_false, ne_eq, not_false_eq_true, if_true, writeHere, leftNumber,
      rightNumber,
      halved]
    rw [writeLeft]
    simp only
    rw [writeRight]

private theorem mark_ne_split_of_full {tree : BuddyTree}
    (isFull : tree.full = true) :
    mark tree ≠ .unused ∧ mark tree ≠ .split := by
  rcases mark_full.mpr isFull with isUsed | isFull <;> simp [*]

/-- What the search does below a position: it takes the leftmost free block
there, or leaves the array as it is and goes on behind the position. -/
def SearchesTo (order height : Nat) (path : List Frame) (self : EmsMem) :
    Option (Nat × BuddyTree) → Prop
  | some (offset, taken) => ∀ bound, 2 ^ (height + 1) ≤ bound + 1 →
      ∃ states, emsMem_search bound self (2 ^ order) (indexOf path) path.length
          (2 ^ height) =
          .ok (((startOf height path + offset : Nat) : Int) * EMS_MEM_BLOCKSZ,
            ⟨self.level, states⟩) ∧
        Represents states 0 self.level (plug path taken)
  | none => ∃ cost, cost + 1 ≤ 2 ^ (height + 1) ∧ ∀ bound,
      emsMem_search (bound + cost) self (2 ^ order) (indexOf path) path.length
          (2 ^ height) =
        searchFrom bound self (2 ^ order) (nextNode path height)

theorem emsMem_search_here {order : Nat} {tree : BuddyTree} {path : List Frame}
    {self : EmsMem} (depth : path.length + order = self.level)
    (hole : AtHole self.tree path order tree) :
    SearchesTo order order path self (take order order tree) := by
  have positive : 0 < 2 ^ order := Nat.two_pow_pos order
  have double : 2 ^ (order + 1) = 2 * 2 ^ order := by ring
  by_cases free : tree = .unused
  · subst free
    have result : take order order .unused = some (0, .used) := by
      cases order <;> simp [take]
    rw [result]
    intro bound enough
    obtain ⟨bound, rfl⟩ := Nat.exists_eq_add_of_le' (by omega : 1 ≤ bound)
    simpa using emsMem_search_take depth hole bound
  · have result : take order order tree = none := by
      cases order <;> simp [take, free]
    rw [result]
    refine
      ⟨1, by omega, fun bound => emsMem_search_skip depth ?_ (.inl rfl) bound⟩
    rw [hole.inside.root]
    exact fun marked => free (mark_eq_unused.mp marked)

theorem emsMem_search_none {order height : Nat} {tree : BuddyTree}
    {path : List Frame}
    {self : EmsMem} (depth : path.length + height = self.level)
    (hole : AtHole self.tree path height tree) (isFull : tree.full = true) :
    SearchesTo order height path self none := by
  have positive : 0 < 2 ^ height := Nat.two_pow_pos height
  have double : 2 ^ (height + 1) = 2 * 2 ^ height := by ring
  obtain ⟨notUnused, notSplit⟩ := mark_ne_split_of_full isFull
  refine ⟨1, by omega, fun bound => emsMem_search_skip depth ?_ (.inr ?_) bound⟩
  · rwa [hole.inside.root]
  · rwa [hole.inside.root]

private theorem emsMem_search_enter {self : EmsMem} {path : List Frame}
    {height size : Nat}
    {left right : BuddyTree} (depth : path.length + (height + 1) = self.level)
    (different : size ≠ 2 ^ (height + 1))
    (hole : AtHole self.tree path (height + 1) (.split left right))
    (notFull : (left.full && right.full) = false) (bound : Nat) :
    emsMem_search (bound + 1) self size (indexOf path) path.length
      (2 ^ (height + 1)) =
      emsMem_search bound self size (indexOf (.left right :: path))
        (Frame.left right :: path).length (2 ^ height) := by
  have readHere := EmsMem.read_ok self (indexOf_lt_size depth)
  have isSplit : self.tree (indexOf path) = .split := by
    simpa [mark, notFull] using hole.inside.root
  have leftNumber : (indexOf path : Int) * 2 + 1 =
      indexOf (.left right :: path) := by
    simp only [indexOf]
    omega
  have halved : 2 ^ (height + 1) / 2 = 2 ^ height := by
    rw [pow_succ]
    omega
  simp [emsMem_search, readHere, bind, Except.bind, isSplit, different,
    leftNumber, halved]

theorem emsMem_search_spec (order height : Nat) (tree : BuddyTree)
    (path : List Frame)
    (self : EmsMem) (depth : path.length + height = self.level)
    (small : order ≤ height)
    (hole : AtHole self.tree path height tree) :
    SearchesTo order height path self (take order height tree) := by
  induction height generalizing tree path self with
  | zero =>
      obtain rfl : order = 0 := by omega
      exact emsMem_search_here depth hole
  | succ height induction =>
      by_cases same : order = height + 1
      · subst same
        exact emsMem_search_here depth hole
      have smaller : order ≤ height := by omega
      have different : 2 ^ order ≠ 2 ^ (height + 1) :=
        fun equal => same (Nat.pow_right_injective (by omega) equal)
      have positive : 0 < 2 ^ height := Nat.two_pow_pos height
      have double : 2 ^ (height + 1) = 2 * 2 ^ height := by ring
      have double' : 2 ^ (height + 1 + 1) = 2 * 2 ^ (height + 1) := by ring
      cases tree with
      | used =>
          have result : take order (height + 1) .used = none := by
            simp [take, same]
          rw [result]
          exact emsMem_search_none depth hole rfl
      | unused =>
          obtain ⟨states, leftHole, enters⟩ :=
            emsMem_search_split depth different hole
          have searched :=
            induction .unused (.left .unused :: path) ⟨self.level, states⟩
            (by simp only [List.length_cons]; omega) smaller leftHole
          obtain ⟨left, leftTaken⟩ := take_unused smaller
          have result : take order (height + 1) .unused =
              some (0, .split left .unused) := by
            simp [take, same, leftTaken]
          rw [leftTaken] at searched
          rw [result]
          intro bound enough
          obtain ⟨bound, rfl⟩ := Nat.exists_eq_add_of_le' (by omega : 1 ≤ bound)
          obtain ⟨states', success, represents⟩ := searched bound (by omega)
          exact ⟨states', (enters bound).trans success, represents⟩
      | split left right =>
          by_cases isFull : (left.full && right.full) = true
          · have result : take order (height + 1) (.split left right) = none :=
              take_full isFull
            rw [result]
            exact emsMem_search_none depth hole isFull
          have enters :=
            emsMem_search_enter depth different hole (by simpa using isFull)
          have leftHole : AtHole self.tree (.left right :: path) height left :=
            atHole_fill.mp hole
          have rightHole : AtHole self.tree (.right left :: path)
              height right :=
            atHole_fill.mp hole
          have searched := induction left (.left right :: path) self
            (by simp only [List.length_cons]; omega) smaller leftHole
          cases leftResult : take order height left with
          | some leftTaken =>
              obtain ⟨offset, left'⟩ := leftTaken
              have result : take order (height + 1) (.split left right) =
                  some (offset, .split left' right) := by
                simp [take, same, leftResult]
              rw [leftResult] at searched
              rw [result]
              intro bound enough
              obtain ⟨bound, rfl⟩ :=
                Nat.exists_eq_add_of_le' (by omega : 1 ≤ bound)
              obtain ⟨states, success, represents⟩ := searched bound (by omega)
              exact ⟨states, (enters bound).trans success, represents⟩
          | none =>
              rw [leftResult] at searched
              obtain ⟨cost, cheap, passes⟩ := searched
              -- the node after the left half is the right half
              have toRight : ∀ bound, searchFrom bound self (2 ^ order)
                  (nextNode (.left right :: path) height) =
                  emsMem_search bound self (2 ^ order)
                    (indexOf (.right left :: path))
                    (Frame.right left :: path).length (2 ^ height) := by
                intro bound
                simp [nextNode, searchFrom, indexOf, add_assoc]
              have searchedRight := induction right (.right left :: path) self
                (by simp only [List.length_cons]; omega) smaller rightHole
              cases rightResult : take order height right with
              | some rightTaken =>
                  obtain ⟨offset, right'⟩ := rightTaken
                  have result : take order (height + 1) (.split left right) =
                      some (2 ^ height + offset, .split left right') := by
                    simp [take, same, leftResult, rightResult]
                  rw [rightResult] at searchedRight
                  rw [result]
                  intro bound enough
                  obtain ⟨bound, rfl⟩ :=
                    Nat.exists_eq_add_of_le' (by omega : cost + 1 ≤ bound)
                  obtain ⟨states, success, represents⟩ :=
                    searchedRight bound (by omega)
                  refine ⟨states, ?_, represents⟩
                  rw [← Nat.add_assoc, enters, passes, toRight, success]
                  simp [startOf, Nat.add_assoc]
              | none =>
                  have result : take order (height + 1)
                      (.split left right) = none := by
                    simp [take, same, leftResult, rightResult]
                  rw [rightResult] at searchedRight
                  obtain ⟨cost', cheap', passes'⟩ := searchedRight
                  rw [result]
                  refine ⟨cost' + cost + 1, by omega, fun bound => ?_⟩
                  rw [← Nat.add_assoc, enters, ← Nat.add_assoc, passes,
                    toRight, passes']
                  rfl

/-! ## Allocating -/

private theorem bitCount_pow {bits k : Nat} (inside : k < bits) :
    bitCount bits (2 ^ k) = 1 := by
  have none : ∀ bits, bitCount bits 0 = 0 := by
    intro bits
    induction bits with
    | zero => rfl
    | succ bits induction => simpa [bitCount] using induction
  induction bits generalizing k with
  | zero => omega
  | succ bits induction =>
      cases k with
      | zero => simp [bitCount, none]
      | succ k =>
          have even : 2 ^ (k + 1) % 2 = 0 := by simp [pow_succ]
          have half : 2 ^ (k + 1) / 2 = 2 ^ k := by simp [pow_succ]
          rw [bitCount, even, half, induction (by omega)]

private theorem bitCount_pos {bits x : Nat} (positive : 0 < x)
    (small : x < 2 ^ bits) :
    0 < bitCount bits x := by
  induction bits generalizing x with
  | zero => omega
  | succ bits induction =>
      rw [bitCount]
      by_cases odd : x % 2 = 1
      · omega
      · have rest := induction (by omega : 0 < x / 2) (by omega)
        omega

theorem eq_pow_of_bitCount {bits x : Nat} (small : x < 2 ^ bits)
    (one : bitCount bits x = 1) : ∃ k, x = 2 ^ k := by
  induction bits generalizing x with
  | zero => simp [bitCount] at one
  | succ bits induction =>
      rw [bitCount] at one
      by_cases odd : x % 2 = 1
      · have noMore : ¬ 0 < x / 2 := by
          intro positive
          have rest := bitCount_pos positive (by omega : x / 2 < 2 ^ bits)
          omega
        exact ⟨0, by omega⟩
      · obtain ⟨k, half⟩ := induction (by omega : x / 2 < 2 ^ bits) (by omega)
        refine ⟨k + 1, ?_⟩
        rw [pow_succ, ← half]
        omega

/-- The least power of two that is not below `x`. -/
theorem emsNextPow2_eq {x : Nat} (positive : 0 < x) (small : x < 2 ^ 63) :
    emsNextPow2 x = 2 ^ Nat.clog 2 x := by
  unfold emsNextPow2
  split
  · next one =>
      obtain ⟨k, rfl⟩ := eq_pow_of_bitCount (by omega : x < 2 ^ 64) one
      rw [Nat.clog_pow 2 k (by omega)]
  · next notOne =>
      have logSmall : Nat.log 2 x < 63 :=
        Nat.log_lt_of_lt_pow positive.ne' small
      have shift : 64 - builtin_clzll x = Nat.log 2 x + 1 := by
        rw [builtin_clzll, Nat.log2_eq_log_two]
        omega
      have notPower : x ≠ 2 ^ Nat.log 2 x := by
        intro power
        rw [power] at notOne
        exact notOne (bitCount_pow (by omega))
      have below := Nat.pow_log_le_self 2 positive.ne'
      have above := Nat.lt_pow_succ_log_self (by omega : 1 < 2) x
      have atMost : Nat.clog 2 x ≤ Nat.log 2 x + 1 :=
        Nat.clog_le_of_le_pow above.le
      have atLeast : Nat.log 2 x < Nat.clog 2 x :=
        (Nat.lt_clog_iff_pow_lt (by omega)).mpr
          (lt_of_le_of_ne below notPower.symm)
      rw [shift, Nat.one_shiftLeft, Nat.le_antisymm atMost atLeast]

theorem emsNextPow2_is_pow {x : Nat} (small : x < 2 ^ 64) :
    ∃ k, emsNextPow2 x = 2 ^ k := by
  unfold emsNextPow2
  split
  · next one => exact eq_pow_of_bitCount small one
  · exact ⟨_, Nat.one_shiftLeft _⟩

/-- What `emsMem_alloc` does on the tree: take the leftmost free block of the
order, or report failure and change nothing. -/
theorem emsMem_alloc_spec {order bytesRequested : Nat}
    (size : emsNextPow2
      ((bytesRequested + (EMS_MEM_BLOCKSZ - 1)) % 2 ^ 64 / EMS_MEM_BLOCKSZ) =
        2 ^ order)
    {self : EmsMem} {tree : BuddyTree}
    (represents : Represents self.tree 0 self.level tree) :
    match take order self.level tree with
    | some (offset, taken) => ∃ states,
        emsMem_alloc self bytesRequested =
          .ok ((offset : Int) * EMS_MEM_BLOCKSZ, ⟨self.level, states⟩) ∧
        Represents states 0 self.level taken
    | none => emsMem_alloc self bytesRequested = .ok (-1, self) := by
  have notZero : (2 : Nat) ^ order ≠ 0 := (Nat.two_pow_pos order).ne'
  by_cases small : order ≤ self.level
  · have fits : ¬ 2 ^ self.level < 2 ^ order := by
      have grows := Nat.pow_le_pow_right (n := 2) (by omega) small
      omega
    have searched :=
      emsMem_search_spec order self.level tree [] self (by simp) small
      ⟨represents, trivial⟩
    have unfolded : emsMem_alloc self bytesRequested =
        emsMem_search (2 ^ (self.level + 1)) self (2 ^ order) 0 0
            (2 ^ self.level) := by
      simp only [emsMem_alloc, size, notZero, if_false, fits]
    cases result : take order self.level tree with
    | some taken =>
        obtain ⟨offset, taken⟩ := taken
        rw [result] at searched
        obtain ⟨states, success, after⟩ :=
          searched (2 ^ (self.level + 1)) (by omega)
        refine ⟨states, ?_, after⟩
        rw [unfolded]
        simpa [indexOf, startOf] using success
    | none =>
        rw [result] at searched
        obtain ⟨cost, cheap, passes⟩ := searched
        simp only
        obtain ⟨spare, enough⟩ :=
          Nat.exists_eq_add_of_le (by omega : cost ≤ 2 ^ (self.level + 1))
        rw [unfolded, enough, Nat.add_comm]
        simpa [indexOf, nextNode, searchFrom] using passes spare
  · have tooLarge : 2 ^ self.level < 2 ^ order :=
      Nat.pow_lt_pow_right (by omega) (by omega)
    rw [take_of_lt (by omega)]
    simp only [emsMem_alloc, size, notZero, if_false, tooLarge, if_true]

/-! ## Freeing -/

/-- `EMS_unmark` turns the full marks above a node that is no longer full. -/
theorem EMS_unmark_spec {path : List Frame} {height : Nat} {isFull : Bool}
    (self : EmsMem) (bound : Nat) (depth : path.length + height = self.level)
    (enough : path.length < bound)
    (around : Around self.tree path height isFull) :
    ∃ states, EMS_unmark bound self (indexOf path) = .ok ⟨self.level, states⟩ ∧
      Around states path height false ∧
      ∀ j, Below (indexOf path) j → states j = self.tree j := by
  induction path generalizing height isFull self bound with
  | nil =>
      obtain ⟨bound, rfl⟩ := Nat.exists_eq_add_of_lt enough
      exact
        ⟨self.tree, by simp [EMS_unmark, indexOf, pure, Except.pure], trivial,
        fun _ _ => rfl⟩
  | cons frame path induction =>
      obtain ⟨bound, rfl⟩ := Nat.exists_eq_add_of_lt enough
      have depth' : path.length + (height + 1) = self.level := by
        simp only [List.length_cons] at depth
        omega
      obtain ⟨marked, sibling, outer⟩ := around
      have readParent := EmsMem.read_ok self (indexOf_lt_size depth')
      rw [marked] at readParent
      have notNegative : (0 : Int) ≤ indexOf path := by omega
      by_cases wasFull : (isFull && frame.sibling.full) = true
      · have writeParent := EmsMem.write_ok self (indexOf_lt_size depth') .split
        rw [wasFull] at outer
        obtain ⟨states, success, outerAfter, unchanged⟩ :=
          induction ⟨self.level,
            Function.update self.tree (indexOf path) .split⟩
            ((frame :: path).length + bound) depth'
            (by simp only [List.length_cons]; omega) (outer.write .split)
        have belowKept : ∀ j, Below (indexOf path) j → j ≠ indexOf path →
            states j = self.tree j := by
          intro j below different
          simpa [different] using unchanged j below
        refine ⟨states, ?_, ⟨?_, ?_, ?_⟩, ?_⟩
        · simp only [EMS_unmark, parent_hole, notNegative, if_true,
            readParent, bind,
            Except.bind, wasFull, writeParent]
          exact success
        · simpa using unchanged _ (Below.refl _)
        · refine sibling.congr fun j below => belowKept j below.of_sibling ?_
          rintro rfl
          exact not_below_sibling frame path below
        · simpa using outerAfter
        · intro j below
          refine belowKept j below.of_hole ?_
          rintro rfl
          exact not_below_hole frame path below
      · have open_ : (isFull && frame.sibling.full) = false := by
          simpa using wasFull
        rw [open_] at outer
        refine ⟨self.tree, ?_, ⟨?_, sibling, ?_⟩, fun _ _ => rfl⟩
        · simp [EMS_unmark, parent_hole, notNegative, readParent, bind,
            Except.bind,
            open_, pure, Except.pure]
        · simpa [open_] using marked
        · simpa using outer

theorem EMS_combine_stop {path : List Frame} {height : Nat} {isFull : Bool}
    {self : EmsMem} (depth : path.length + height = self.level)
    (around : Around self.tree path height isFull) :
    ∃ states,
      (do
        let self ← self.write (indexOf path) .unused
        EMS_unmark (self.level + 1) self (indexOf path)) =
          .ok ⟨self.level, states⟩ ∧
      Represents states 0 self.level (plug path .unused) := by
  have writeHere := EmsMem.write_ok self (indexOf_lt_size depth) .unused
  obtain ⟨states, success, outside, unchanged⟩ :=
    EMS_unmark_spec ⟨self.level,
      Function.update self.tree (indexOf path) .unused⟩
      (self.level + 1) depth (by omega) (around.write .unused)
  refine ⟨states, by simpa [writeHere, bind, Except.bind] using success, ?_⟩
  have free : states (indexOf path) = .unused := by
    simpa using unchanged _ (Below.refl _)
  have inside : Represents states (indexOf path) height .unused := by
    cases height <;> exact free
  rw [← depth]
  exact AtHole.plug ⟨inside, outside⟩

/-- `EMS_combine` frees the node at the hole and merges unused halves. -/
theorem EMS_combine_spec {path : List Frame} {height : Nat} {isFull : Bool}
    {self : EmsMem} (bound : Nat) (depth : path.length + height = self.level)
    (enough : path.length < bound)
    (around : Around self.tree path height isFull) :
    ∃ states, EMS_combine bound self (indexOf path) = .ok ⟨self.level, states⟩ ∧
      Represents states 0 self.level (plugJoin path .unused) := by
  induction path generalizing height isFull bound with
  | nil =>
      obtain ⟨bound, rfl⟩ := Nat.exists_eq_add_of_lt enough
      obtain ⟨states, success, represents⟩ := EMS_combine_stop depth around
      refine ⟨states, ?_, represents⟩
      simpa [EMS_combine, buddyOf, indexOf, bind, Except.bind, pure,
        Except.pure] using success
  | cons frame path induction =>
      obtain ⟨bound, rfl⟩ := Nat.exists_eq_add_of_lt enough
      have depth' : path.length + (height + 1) = self.level := by
        simp only [List.length_cons] at depth
        omega
      have sibling := around.2.1
      have readSibling := EmsMem.read_ok self (siblingIndex_lt_size depth)
      rw [sibling.root] at readSibling
      have hasSibling : ¬ (siblingIndex frame path : Int) < 0 := by omega
      by_cases merges : frame.sibling = .unused
      · obtain ⟨states, success, represents⟩ :=
          induction ((frame :: path).length + bound) depth'
            (by simp only [List.length_cons]; omega) around.2.2
        refine ⟨states, ?_, by simpa [plugJoin, merges] using represents⟩
        have isUnused : mark frame.sibling = .unused :=
          mark_eq_unused.mpr merges
        simpa [EMS_combine, buddyOf_hole, hasSibling, readSibling, bind,
          Except.bind,
          pure, Except.pure, isUnused, parent_hole] using success
      · obtain ⟨states, success, represents⟩ := EMS_combine_stop depth around
        refine ⟨states, ?_, ?_⟩
        · have inUse : mark frame.sibling ≠ .unused :=
            fun isUnused => merges (mark_eq_unused.mp isUnused)
          simpa [EMS_combine, buddyOf_hole, hasSibling, readSibling, bind,
            Except.bind,
            pure, Except.pure, inUse] using success
        · simpa [plugJoin, plug, merges,
            plugJoin_of_ne_unused (frame.fill_ne_unused .unused)]
              using represents

/-- What `emsMem_free` does from a position on: it gives back the block that
starts at the offset, or the assertion fails when there is none. -/
def DescendsTo (path : List Frame) (self : EmsMem)
    (run : Except AllocFault EmsMem) :
    Option BuddyTree → Prop
  | some given => ∃ states, run = .ok ⟨self.level, states⟩ ∧
      Represents states 0 self.level (plugJoin path given)
  | none => run = .error .assertion

/-- Descending ends at a node that is not split. -/
theorem emsMem_descend_end {height : Nat} {tree : BuddyTree} {path : List Frame}
    {self : EmsMem} (offset bound : Nat)
    (depth : path.length + height = self.level)
    (hole : AtHole self.tree path height tree)
    (atEnd : tree = .unused ∨ tree = .used) :
    DescendsTo path self
      (emsMem_descend (bound + 1) self (startOf height path + offset)
        (startOf height path) (2 ^ height) (indexOf path))
      (give height offset tree) := by
  have readHere := EmsMem.read_ok self (indexOf_lt_size depth)
  rw [hole.inside.root] at readHere
  rcases atEnd with rfl | rfl
  · have result : give height offset .unused = none := by cases height <;> rfl
    rw [result]
    simp [DescendsTo, emsMem_descend, readHere, bind, Except.bind, mark]
  · have result : give height offset .used = if offset = 0 then some .unused
        else none := by
      cases height <;> rfl
    rw [result]
    by_cases atStart : offset = 0
    · obtain ⟨states, success, represents⟩ :=
        EMS_combine_spec (self.level + 1) depth (by omega) hole.around
      rw [if_pos atStart]
      refine ⟨states, ?_, represents⟩
      simpa [emsMem_descend, readHere, bind, Except.bind, mark,
        atStart] using success
    · rw [if_neg atStart]
      simp [DescendsTo, emsMem_descend, readHere, bind, Except.bind,
        mark, atStart]

theorem emsMem_descend_split {self : EmsMem} {first second : BuddyTree}
    (offset left length bound : Nat) {index : Int}
    (readHere : self.read index = .ok (mark (.split first second))) :
    emsMem_descend (bound + 1) self offset left length index =
      if offset < left + length / 2 then
        emsMem_descend bound self offset left (length / 2) (index * 2 + 1)
      else emsMem_descend bound self offset (left + length / 2) (length / 2)
        (index * 2 + 2) := by
  rcases mark_split first second with isFull | isSplit
  · simp only [emsMem_descend, readHere, isFull, bind, Except.bind]
  · simp only [emsMem_descend, readHere, isSplit, bind, Except.bind]

theorem emsMem_descend_spec (height : Nat) (tree : BuddyTree)
    (path : List Frame)
    {self : EmsMem} (offset bound : Nat)
    (depth : path.length + height = self.level)
    (enough : height < bound) (hole : AtHole self.tree path height tree) :
    DescendsTo path self
      (emsMem_descend bound self (startOf height path + offset)
        (startOf height path)
        (2 ^ height) (indexOf path))
      (give height offset tree) := by
  induction height generalizing tree path offset bound with
  | zero =>
      obtain ⟨bound, rfl⟩ := Nat.exists_eq_add_of_le' enough
      cases tree with
      | split left right => exact hole.inside.elim
      | unused => exact emsMem_descend_end offset bound depth hole (.inl rfl)
      | used => exact emsMem_descend_end offset bound depth hole (.inr rfl)
  | succ height induction =>
      obtain ⟨bound, rfl⟩ := Nat.exists_eq_add_of_le' (by omega : 1 ≤ bound)
      cases tree with
      | unused => exact emsMem_descend_end offset bound depth hole (.inl rfl)
      | used => exact emsMem_descend_end offset bound depth hole (.inr rfl)
      | split left right =>
          have readHere := EmsMem.read_ok self (indexOf_lt_size depth)
          rw [hole.inside.root] at readHere
          have halved : 2 ^ (height + 1) / 2 = 2 ^ height := by
            rw [pow_succ]
            omega
          have leftNumber : (indexOf path : Int) * 2 + 1 =
              indexOf (.left right :: path) := by
            simp only [indexOf]
            omega
          have rightNumber : (indexOf path : Int) * 2 + 2 =
              indexOf (.right left :: path) := by
            simp only [indexOf]
            omega
          by_cases near : offset < 2 ^ height
          · have leftHole : AtHole self.tree (.left right :: path)
                height left :=
              atHole_fill.mp hole
            have descends := induction left (.left right :: path) offset bound
              (by simp only [List.length_cons]; omega) (by omega) leftHole
            have unfolded : emsMem_descend (bound + 1) self
                (startOf (height + 1) path + offset) (startOf (height + 1) path)
                (2 ^ (height + 1)) (indexOf path) =
                emsMem_descend bound self
                  (startOf height (.left right :: path) + offset)
                  (startOf height (.left right :: path)) (2 ^ height)
                  (indexOf (.left right :: path)) := by
              rw [emsMem_descend_split _ _ _ _ readHere, halved, leftNumber,
                if_pos (by omega)]
              rfl
            rw [unfolded]
            cases result : give height offset left with
            | none =>
                rw [result] at descends
                simp only [give, near, result, if_true, Option.map_none]
                exact descends
            | some left' =>
                rw [result] at descends
                obtain ⟨states, success, represents⟩ := descends
                simp only [give, near, result, if_true, Option.map_some]
                exact ⟨states, success, represents⟩
          · have rightHole : AtHole self.tree (.right left :: path)
                height right :=
              atHole_fill.mp hole
            have descends :=
              induction right (.right left :: path) (offset - 2 ^ height)
              bound (by simp only [List.length_cons]; omega)
                (by omega) rightHole
            have rebased : startOf height (.right left :: path) +
                (offset - 2 ^ height) =
                startOf (height + 1) path + offset := by
              simp only [startOf]
              omega
            rw [rebased] at descends
            have unfolded : emsMem_descend (bound + 1) self
                (startOf (height + 1) path + offset) (startOf (height + 1) path)
                (2 ^ (height + 1)) (indexOf path) =
                emsMem_descend bound self (startOf (height + 1) path + offset)
                  (startOf height (.right left :: path)) (2 ^ height)
                  (indexOf (.right left :: path)) := by
              rw [emsMem_descend_split _ _ _ _ readHere, halved, rightNumber,
                if_neg (by omega)]
              rfl
            rw [unfolded]
            cases result : give height (offset - 2 ^ height) right with
            | none =>
                rw [result] at descends
                simp only [give, near, result, if_false, Option.map_none]
                exact descends
            | some right' =>
                rw [result] at descends
                obtain ⟨states, success, represents⟩ := descends
                simp only [give, near, result, if_false, Option.map_some]
                refine ⟨states, success, ?_⟩
                simpa [plugJoin, join, Frame.sibling, Frame.fill,
                  and_comm] using represents

theorem emsMem_free_spec {self : EmsMem} {tree : BuddyTree} (address : Nat)
    (represents : Represents self.tree 0 self.level tree) :
    if address / EMS_MEM_BLOCKSZ < 2 ^ self.level then
      DescendsTo [] self (emsMem_free self address)
        (give self.level (address / EMS_MEM_BLOCKSZ) tree)
    else emsMem_free self address = .error .assertion := by
  by_cases inside : address / EMS_MEM_BLOCKSZ < 2 ^ self.level
  · have descends := emsMem_descend_spec self.level tree []
      (address / EMS_MEM_BLOCKSZ) (self.level + 1) (by simp) (by omega)
      ⟨represents, trivial⟩
    rw [if_pos inside]
    simpa [emsMem_free, inside, startOf, indexOf] using descends
  · rw [if_neg inside]
    simp [emsMem_free, inside]

theorem emsMem_new_represents (level : Nat) :
    Represents (emsMem_new level).tree 0 level .unused := by
  cases level <;> rfl

end EMS
