import EMS.AllocHistory
import EMS.GuardedObject

/-!
# The allocator among other processes

`emsMutexMem_alloc` and `emsMutexMem_free` call the allocator under its mutex.
Here every byte of the tree is read and written by an access of its own, so
that other processes may run between any two of them.  The calls are atomic
all the same, and the blocks that are out never overlap.
-/

namespace EMS

open SharedProgram Interleaving GuardedObject

/-! ## Accesses to the tree -/

/-- An access to a node.  `record` and `forget` keep the books of the blocks
that are out, and are none of the source. -/
inductive HeapAct where
  | readNode (index : Nat)
  | writeNode (index : Nat) (state : Buddy)
  | record (block : Block)
  | forget (block : Block)

abbrev HeapReply : HeapAct → Type
  | .readNode _ => Buddy
  | .writeNode _ _ | .record _ | .forget _ => Unit

def HeapAct.perform : (act : HeapAct) → Heap → HeapReply act × Heap
  | .readNode index, heap => (heap.self.tree index, heap)
  | .writeNode index state, heap =>
      ((), { heap with
        self :=
          { heap.self with tree :=
            Function.update heap.self.tree index state } })
  | .record block, heap => ((), { heap with live := block :: heap.live })
  | .forget block, heap => ((), { heap with live := heap.live.erase block })

/-- Only a block that is out is given back. -/
def HeapAct.Given : HeapAct → Heap → Prop
  | .forget block, heap => block ∈ heap.live
  | _, _ => True

abbrev HeapProg := Prog HeapAct HeapReply

/-- The program of one access. -/
abbrev visit (act : HeapAct) : HeapProg (HeapReply act) := Prog.perform act

/-- The allocator while nobody else accesses it. -/
abbrev treeSolo : Solo Heap HeapAct HeapReply :=
  ⟨HeapAct.perform, HeapAct.Given, fun _ => True, False⟩

section Accesses

variable (level : Nat)

/-- `self->tree[index]`. -/
def readTree (index : Int) : HeapProg Buddy :=
  if 0 ≤ index ∧ index < (2 ^ (level + 1) - 1 : Nat) then
    visit (.readNode index.toNat)
  else .abort

/-- `self->tree[index] = state`. -/
def writeTree (index : Int) (state : Buddy) : HeapProg Unit :=
  if 0 ≤ index ∧ index < (2 ^ (level + 1) - 1 : Nat) then
    visit (.writeNode index.toNat state)
  else .abort

/-- The accesses of `EMS_mark_parent`. -/
def EMS_mark_parentAccesses : Nat → Int → HeapProg Unit
  | 0, _ => .spin
  | bound + 1, index => do
      let buddy := buddyOf index
      if 0 < buddy then
        let state ← readTree level buddy
        if state = .used ∨ state = .full then
          let index := (index + 1) / 2 - 1
          writeTree level index .full
          EMS_mark_parentAccesses bound index
        else return ()
      else return ()

/-- The accesses of the loops of `emsMem_alloc`. -/
def emsMem_searchAccesses : Nat → Nat → Int → Nat → Nat → HeapProg Int
  | 0, _, _, _, _ => .spin
  | bound + 1, size, index, depth, length => do
      let state ← readTree level index
      if size = length ∧ state = .unused then
        writeTree level index .used
        EMS_mark_parentAccesses level (level + 1) index
        return EMS_index_offset index depth level * EMS_MEM_BLOCKSZ
      else if size ≠ length ∧ state = .unused then
        -- split first
        writeTree level index .split
        writeTree level (index * 2 + 1) .unused
        writeTree level (index * 2 + 2) .unused
        emsMem_searchAccesses bound size (index * 2 + 1) (depth + 1)
          (length / 2)
      else if size ≠ length ∧ state = .split then
        emsMem_searchAccesses bound size (index * 2 + 1) (depth + 1)
          (length / 2)
      else if index % 2 = 1 then
        emsMem_searchAccesses bound size (index + 1) depth length
      else
        match emsMem_climb (level + 1) index depth length with
        | .error _ => .spin
        | .ok none => pure (-1)
        | .ok (some (index, depth, length)) =>
            emsMem_searchAccesses bound size index depth length

/-- The accesses of `emsMem_alloc`. -/
@[irreducible] def emsMem_allocAccesses (bytesRequested : Nat) : HeapProg Int :=
  let size := emsNextPow2
    ((bytesRequested + (EMS_MEM_BLOCKSZ - 1)) % 2 ^ 64 / EMS_MEM_BLOCKSZ)
  let size := if size = 0 then size + 1 else size
  let length := 2 ^ level
  if length < size then pure (-1)
  else emsMem_searchAccesses level (2 ^ (level + 1)) size 0 0 length

/-- The accesses of the loop in `EMS_combine` that turns full parents back into
split ones. -/
def EMS_unmarkAccesses : Nat → Int → HeapProg Unit
  | 0, _ => .spin
  | bound + 1, index => do
      let index := (index + 1) / 2 - 1
      if 0 ≤ index then
        let state ← readTree level index
        if state = .full then
          writeTree level index .split
          EMS_unmarkAccesses bound index
        else return ()
      else return ()

/-- The accesses of `EMS_combine`. -/
def EMS_combineAccesses : Nat → Int → HeapProg Unit
  | 0, _ => .spin
  | bound + 1, index => do
      let buddy := buddyOf index
      let stop ← if buddy < 0 then pure true
        else do
          let state ← readTree level buddy
          pure (decide (state ≠ .unused))
      if stop then
        writeTree level index .unused
        EMS_unmarkAccesses level (level + 1) index
      else EMS_combineAccesses bound ((index + 1) / 2 - 1)

/-- The accesses of the loop of `emsMem_free`. -/
def emsMem_descendAccesses : Nat → Nat → Nat → Nat → Int → HeapProg Unit
  | 0, _, _, _, _ => .spin
  | bound + 1, offset, left, length, index => do
      let state ← readTree level index
      match state with
      | .used =>
          if offset = left then EMS_combineAccesses level (level + 1) index
          else .abort
      | .unused => .abort
      | _ =>
          let length := length / 2
          if offset < left + length then
            emsMem_descendAccesses bound offset left length (index * 2 + 1)
          else
            emsMem_descendAccesses bound offset (left + length) length
              (index * 2 + 2)

/-- The accesses of `emsMem_free`. -/
def emsMem_freeAccesses (offset : Nat) : HeapProg Unit :=
  let offset := offset / EMS_MEM_BLOCKSZ
  if offset < 2 ^ level then
    emsMem_descendAccesses level (level + 1) offset 0 (2 ^ level) 0
  else .abort

/-- What a caller does under the mutex. -/
inductive MutexCall where
  | alloc (bytes : Nat)
  | free (block : Block)

/-- The bodies of `emsMutexMem_alloc` and `emsMutexMem_free`, between taking the
mutex and giving it back. -/
def MutexCall.body : MutexCall → HeapProg Int
  | .alloc bytes => do
      let retval ← emsMem_allocAccesses level bytes
      if 0 ≤ retval then
        visit (.record ⟨retval.toNat, bytes⟩)
      return retval
  | .free block => do
      visit (.forget block)
      emsMem_freeAccesses level block.address
      return 0

end Accesses

/-! ## Alone, the accesses compute what the functions do -/

section Computing

variable {level : Nat} {α β : Type}

theorem ok_of_bind {ε : Type} {x : Except ε α} {rest : α → Except ε β}
    {result : β}
    (ok : x >>= rest = .ok result) : ∃ value,
      x = .ok value ∧ rest value = .ok result := by
  cases x with
  | error => cases ok
  | ok value => exact ⟨value, rfl, ok⟩

variable {self self' : EmsMem} {live : List Block} {index : Int} {state : Buddy}
  {post : α → Heap → Prop}

theorem readTree_ends {rest : Buddy → HeapProg α}
    (sameLevel : self.level = level)
    (read : self.read index = .ok state)
    (ends : treeSolo.Ends post (rest state) ⟨self, live⟩) :
    treeSolo.Ends post (readTree level index >>= rest) ⟨self, live⟩ := by
  subst sameLevel
  rw [EmsMem.read, EmsMem.size] at read
  by_cases inside : 0 ≤ index ∧ index < (2 ^ (self.level + 1) - 1 : Nat)
  · rw [if_pos inside] at read
    obtain rfl := Except.ok.inj read
    rw [readTree, if_pos inside]
    exact fun _ => ⟨trivial, ends⟩
  · rw [if_neg inside] at read
    cases read

theorem writeTree_ends {rest : Unit → HeapProg α}
    (sameLevel : self.level = level)
    (write : self.write index state = .ok self')
    (ends : self'.level = level → treeSolo.Ends post (rest ()) ⟨self', live⟩) :
    treeSolo.Ends post (writeTree level index state >>= rest) ⟨self, live⟩ := by
  subst sameLevel
  rw [EmsMem.write, EmsMem.size] at write
  by_cases inside : 0 ≤ index ∧ index < (2 ^ (self.level + 1) - 1 : Nat)
  · rw [if_pos inside] at write
    obtain rfl := Except.ok.inj write
    rw [writeTree, if_pos inside]
    exact fun _ => ⟨trivial, ends rfl⟩
  · rw [if_neg inside] at write
    cases write

/-- What the function gives has been returned and left, on the same level. -/
def Left (level : Nat) (value : α) (self' : EmsMem) (live : List Block)
    (returned : α)
    (after : Heap) : Prop :=
  returned = value ∧ after = ⟨self', live⟩ ∧ self'.level = level

/-- Alone, the program leaves what the function gives. -/
structure Leaves (level : Nat) (prog : HeapProg α) (before : EmsMem) (value : α)
    (after : EmsMem) :
    Prop where
  ends : ∀ live, treeSolo.Ends (Left level value after live) prog ⟨before, live⟩

theorem Leaves.bind {prog : HeapProg α} {value : α} {rest : α → HeapProg β}
    {post : β → Heap → Prop} (leaves : Leaves level prog self value self')
    (ends : self'.level = level → treeSolo.Ends post
      (rest value) ⟨self', live⟩) :
    treeSolo.Ends post (prog >>= rest) ⟨self, live⟩ := by
  apply Solo.Ends.bind
  apply (leaves.ends live).mono
  intro returned after ended
  obtain ⟨rfl, rfl, sameLevel⟩ := ended
  exact ends sameLevel

theorem EMS_mark_parent_leaves {bound : Nat} (sameLevel : self.level = level)
    (marks : EMS_mark_parent bound self index = .ok self') :
    Leaves level (EMS_mark_parentAccesses level bound index) self () self' := by
  induction bound generalizing self index with
  | zero => cases marks
  | succ bound induction =>
      refine ⟨fun live => ?_⟩
      simp only [EMS_mark_parent] at marks
      rw [EMS_mark_parentAccesses]
      split at marks
      case isTrue positive =>
        rw [if_pos positive]
        obtain ⟨state, read, marks⟩ := ok_of_bind marks
        apply readTree_ends sameLevel read
        split at marks
        case isTrue taken =>
          rw [if_pos taken]
          obtain ⟨between, write, marks⟩ := ok_of_bind marks
          apply writeTree_ends sameLevel write
          intro sameLevel'
          exact (induction sameLevel' marks).ends live
        case isFalse free =>
          rw [if_neg free]
          obtain rfl := Except.ok.inj marks
          exact ⟨rfl, rfl, sameLevel⟩
      case isFalse root =>
        rw [if_neg root]
        obtain rfl := Except.ok.inj marks
        exact ⟨rfl, rfl, sameLevel⟩

theorem emsMem_search_leaves {bound size depth length : Nat} {result : Int}
    (sameLevel : self.level = level)
    (finds : emsMem_search bound self size index depth length = .ok
      (result, self')) :
    Leaves level (emsMem_searchAccesses level bound size index depth length)
      self result self' := by
  induction bound generalizing self index depth length with
  | zero => cases finds
  | succ bound induction =>
      refine ⟨fun live => ?_⟩
      simp only [emsMem_search] at finds
      rw [emsMem_searchAccesses]
      obtain ⟨state, read, finds⟩ := ok_of_bind finds
      apply readTree_ends sameLevel read
      by_cases fits : size = length ∧ state = .unused
      · rw [if_pos fits] at finds ⊢
        obtain ⟨between, write, finds⟩ := ok_of_bind finds
        obtain ⟨marked, marks, ended⟩ := ok_of_bind finds
        apply writeTree_ends sameLevel write
        intro sameLevel'
        rw [sameLevel'] at marks
        apply (EMS_mark_parent_leaves sameLevel' marks).bind
        intro last
        rw [last] at ended
        obtain ⟨rfl, rfl⟩ := Prod.mk.inj (Except.ok.inj ended)
        exact ⟨rfl, rfl, last⟩
      rw [if_neg fits] at finds ⊢
      by_cases splits : size ≠ length ∧ state = .unused
      · rw [if_pos splits] at finds ⊢
        obtain ⟨first, write, finds⟩ := ok_of_bind finds
        obtain ⟨second, write', finds⟩ := ok_of_bind finds
        obtain ⟨third, write'', finds⟩ := ok_of_bind finds
        apply writeTree_ends sameLevel write
        intro level₁
        apply writeTree_ends level₁ write'
        intro level₂
        apply writeTree_ends level₂ write''
        intro level₃
        exact (induction level₃ finds).ends live
      rw [if_neg splits] at finds ⊢
      by_cases descends : size ≠ length ∧ state = .split
      · rw [if_pos descends] at finds ⊢
        exact (induction sameLevel finds).ends live
      rw [if_neg descends] at finds ⊢
      by_cases left : index % 2 = 1
      · rw [if_pos left] at finds ⊢
        exact (induction sameLevel finds).ends live
      rw [if_neg left] at finds ⊢
      obtain ⟨next, climbs, finds⟩ := ok_of_bind finds
      rw [sameLevel] at climbs
      rw [climbs]
      cases next with
      | none =>
          obtain ⟨rfl, rfl⟩ := Prod.mk.inj (Except.ok.inj finds)
          exact ⟨rfl, rfl, sameLevel⟩
      | some next => exact (induction sameLevel finds).ends live

private theorem emsMem_alloc_leaves {bytes : Nat} {result : Int}
    (sameLevel : self.level = level)
    (allocates : emsMem_alloc self bytes = .ok (result, self')) :
    Leaves level (emsMem_allocAccesses level bytes) self result self' := by
  refine ⟨fun live => ?_⟩
  simp only [emsMem_alloc, sameLevel] at allocates
  rw [emsMem_allocAccesses]
  generalize emsNextPow2 _ = size at allocates ⊢
  generalize (if size = 0 then size + 1 else size) = size at allocates ⊢
  by_cases tooLong : 2 ^ level < size
  · rw [if_pos tooLong] at allocates ⊢
    obtain ⟨rfl, rfl⟩ := Prod.mk.inj (Except.ok.inj allocates)
    exact ⟨rfl, rfl, sameLevel⟩
  · rw [if_neg tooLong] at allocates ⊢
    exact (emsMem_search_leaves sameLevel allocates).ends live

theorem EMS_unmark_leaves {bound : Nat} (sameLevel : self.level = level)
    (unmarks : EMS_unmark bound self index = .ok self') :
    Leaves level (EMS_unmarkAccesses level bound index) self () self' := by
  induction bound generalizing self index with
  | zero => cases unmarks
  | succ bound induction =>
      refine ⟨fun live => ?_⟩
      simp only [EMS_unmark] at unmarks
      rw [EMS_unmarkAccesses]
      split at unmarks
      case isTrue inside =>
        rw [if_pos inside]
        obtain ⟨state, read, unmarks⟩ := ok_of_bind unmarks
        apply readTree_ends sameLevel read
        split at unmarks
        case isTrue full =>
          rw [if_pos full]
          obtain ⟨between, write, unmarks⟩ := ok_of_bind unmarks
          apply writeTree_ends sameLevel write
          intro sameLevel'
          exact (induction sameLevel' unmarks).ends live
        case isFalse other =>
          rw [if_neg other]
          obtain rfl := Except.ok.inj unmarks
          exact ⟨rfl, rfl, sameLevel⟩
      case isFalse root =>
        rw [if_neg root]
        obtain rfl := Except.ok.inj unmarks
        exact ⟨rfl, rfl, sameLevel⟩

theorem EMS_combine_leaves {bound : Nat} (sameLevel : self.level = level)
    (combines : EMS_combine bound self index = .ok self') :
    Leaves level (EMS_combineAccesses level bound index) self () self' := by
  induction bound generalizing index with
  | zero => cases combines
  | succ bound induction =>
      refine ⟨fun live => ?_⟩
      simp only [EMS_combine] at combines
      rw [EMS_combineAccesses]
      have ends : ∀ stop : Bool,
          (if stop = true then self.write index .unused >>= fun self =>
            EMS_unmark (self.level + 1) self index
          else EMS_combine bound self ((index + 1) / 2 - 1)) = .ok self' →
          treeSolo.Ends (Left level () self' live)
            (if stop = true then writeTree level index .unused >>= fun _ =>
              EMS_unmarkAccesses level (level + 1) index
            else EMS_combineAccesses level bound ((index + 1) / 2 - 1))
                ⟨self, live⟩ := by
        intro stop combines
        cases stop with
        | true =>
            obtain ⟨between, write, unmarks⟩ := ok_of_bind combines
            apply writeTree_ends sameLevel write
            intro sameLevel'
            rw [sameLevel'] at unmarks
            exact (EMS_unmark_leaves sameLevel' unmarks).ends live
        | false => exact (induction combines).ends live
      by_cases outside : buddyOf index < 0
      · rw [if_pos outside] at combines ⊢
        exact ends true combines
      · rw [if_neg outside] at combines ⊢
        obtain ⟨state, read, combines⟩ := ok_of_bind combines
        apply readTree_ends sameLevel read
        exact ends (decide (state ≠ .unused)) combines

theorem emsMem_descend_leaves {bound offset left length : Nat}
    (sameLevel : self.level = level)
    (descends : emsMem_descend bound self offset left length index =
      .ok self') :
    Leaves level (emsMem_descendAccesses level bound offset left length index)
      self () self' := by
  induction bound generalizing left length index with
  | zero => cases descends
  | succ bound induction =>
      refine ⟨fun live => ?_⟩
      simp only [emsMem_descend] at descends
      rw [emsMem_descendAccesses]
      obtain ⟨state, read, descends⟩ := ok_of_bind descends
      apply readTree_ends sameLevel read
      cases state with
      | used =>
          simp only at descends ⊢
          split at descends
          case isTrue here =>
            rw [if_pos here]
            rw [sameLevel] at descends
            exact (EMS_combine_leaves sameLevel descends).ends live
          case isFalse => cases descends
      | unused => cases descends
      | split | full =>
          simp only at descends ⊢
          split at descends
          case isTrue first =>
            rw [if_pos first]
            exact (induction descends).ends live
          case isFalse second =>
            rw [if_neg second]
            exact (induction descends).ends live

private theorem emsMem_free_leaves {offset : Nat}
    (sameLevel : self.level = level)
    (frees : emsMem_free self offset = .ok self') :
    Leaves level (emsMem_freeAccesses level offset) self () self' := by
  refine ⟨fun live => ?_⟩
  simp only [emsMem_free, sameLevel] at frees
  rw [emsMem_freeAccesses]
  by_cases inside : offset / EMS_MEM_BLOCKSZ < 2 ^ level
  · rw [if_pos inside] at frees
    simp only [if_pos inside]
    exact (emsMem_descend_leaves sameLevel frees).ends live
  · rw [if_neg inside] at frees
    cases frees

end Computing

/-! ## The calls -/

/-- What a call does to the heap, as the allocator alone computes it. -/
def MutexCall.effect : MutexCall → Heap → Heap → Int → Prop
  | .alloc bytes, before, after, retval =>
      emsMem_alloc before.self bytes = .ok (retval, after.self) ∧
        after.live = if 0 ≤ retval then ⟨retval.toNat, bytes⟩ :: before.live
          else before.live
  | .free block, before, after, retval =>
      retval = 0 ∧ block ∈ before.live ∧ emsMem_free before.self block.address =
        .ok after.self ∧
        after.live = before.live.erase block

/-- Requests are not empty, and rounding them up does not wrap. -/
def MutexCall.Valid : MutexCall → Prop
  | .alloc bytes => ValidRequest bytes
  | .free _ => True

theorem MutexCall.alloc_ends {level bytes : Nat} {before : Heap}
    (valid : ValidRequest bytes)
    {tree : BuddyTree} (shape : HeapShape level before tree) :
    treeSolo.Ends (fun retval after =>
      (MutexCall.alloc bytes).effect before after retval ∧
      ∃ tree, HeapShape level after tree) ((MutexCall.alloc bytes).body level)
        before := by
  have leaves : ∀ retval self,
      emsMem_alloc before.self bytes = .ok (retval, self) →
      Leaves level (emsMem_allocAccesses level bytes) before.self retval self :=
    fun _ _ => emsMem_alloc_leaves shape.level_eq
  have spec := shape.alloc valid
  rw [MutexCall.body]
  generalize emsMem_allocAccesses level bytes = prog at leaves ⊢
  split at spec
  · next offset taken _ =>
      obtain ⟨self, success, after⟩ := spec
      generalize isAddress : offset * EMS_MEM_BLOCKSZ = address at success after
      have served : (0 : Int) ≤ (address : Int) := Int.natCast_nonneg _
      refine (leaves _ _ success).bind fun _ => ?_
      rw [if_pos served, Int.toNat_natCast]
      refine fun _ => ⟨trivial, ⟨success, ?_⟩, taken, after⟩
      rw [if_pos served, Int.toNat_natCast]
      rfl
  · have refused : ¬ (0 : Int) ≤ -1 := by decide
    refine (leaves _ _ spec).bind fun _ => ?_
    rw [if_neg refused]
    refine ⟨⟨spec, ?_⟩, tree, shape⟩
    rw [if_neg refused]

theorem MutexCall.free_ends {level : Nat} {block : Block} {before : Heap}
    {tree : BuddyTree}
    (shape : HeapShape level before tree) :
    treeSolo.Ends (fun retval after =>
      (MutexCall.free block).effect before after retval ∧
      ∃ tree, HeapShape level after tree) ((MutexCall.free block).body level)
        before := by
  have leaves : ∀ self, emsMem_free before.self block.address = .ok self →
      Leaves level (emsMem_freeAccesses level block.address)
          before.self () self :=
    fun _ => emsMem_free_leaves shape.level_eq
  rw [MutexCall.body]
  generalize emsMem_freeAccesses level block.address = prog at leaves ⊢
  apply Solo.Ends.perform
  intro member
  obtain ⟨self, given, success, after⟩ := shape.free member
  refine ⟨trivial, (leaves _ success).bind fun _ => ?_⟩
  exact ⟨⟨rfl, member, success, rfl⟩, given, after⟩

theorem MutexCall.ends {level : Nat} {call : MutexCall} {before : Heap}
    (valid : call.Valid)
    (shaped : ∃ tree, HeapShape level before tree) :
    treeSolo.Ends (fun retval after => call.effect before after retval ∧
      ∃ tree, HeapShape level after tree) (call.body level) before := by
  obtain ⟨tree, shape⟩ := shaped
  cases call with
  | alloc bytes => exact MutexCall.alloc_ends valid shape
  | free block => exact MutexCall.free_ends shape

/-- The allocator, with the mutex around its calls. -/
def heapGuard (level : Nat) : Guarded Heap HeapAct HeapReply MutexCall Int where
  solo := treeSolo
  body := MutexCall.body level
  admits := MutexCall.Valid
  effect := MutexCall.effect
  good heap := ∃ tree, HeapShape level heap tree
  ends := MutexCall.ends

/-- Processes that allocate and free on a heap of the level. -/
abbrev heapMachine (ι : Type) (level : Nat) := (heapGuard level).machine ι

/-- What holds of every run. -/
structure AllocatorAtomic {ι : Type} [DecidableEq ι] (level : Nat)
    (trace : List (ι × GuardedLabel HeapAct HeapReply MutexCall Int))
    (config : (heapMachine ι level).State) : Prop where
  linearizable : ∃ spec, Run (AtomicObject.Step MutexCall.effect)
      (AtomicObject.initial (Heap.fresh level))
        (trace.filterMap guardedEvent) spec ∧
    (config.shared.locked = false → config.shared.object = spec.object) ∧
    HeapSafe level spec.object
  neverAborts : ∀ p call, config.control p ≠ .running call .abort

instance (call : MutexCall) : Decidable call.Valid :=
  match call with
  | .alloc bytes =>
      inferInstanceAs (Decidable (1 ≤ bytes ∧ bytes + 31 < 2 ^ 64))
  | .free _ => .isTrue trivial

instance {ι : Type} {level : Nat} (p : ι) (call : MutexCall)
    (memory : GuardedMemory Heap) :
    Decidable ((heapMachine ι level).admits p call memory) :=
  inferInstanceAs (Decidable call.Valid)

instance (act : HeapAct) (heap : Heap) : Decidable (act.Given heap) :=
  match act with
  | .forget block => inferInstanceAs (Decidable (block ∈ heap.live))
  | .readNode _ | .writeNode _ _ | .record _ => .isTrue trivial

instance {ι : Type} {level : Nat} (p : ι) (act : GuardedAct HeapAct)
    (memory : GuardedMemory Heap) :
    Decidable ((heapMachine ι level).permits p act memory) :=
  match act with
  | .inner act => inferInstanceAs (Decidable (act.Given memory.object))
  | .tryLock | .unlock => .isTrue trivial

/-- Two processes allocate: the second one waits for the first one's mutex. -/
def allocatingSchedule : List (Fin 2 × Choice MutexCall) :=
  [(0, .call (.alloc 20) 1), (1, .call (.alloc 40) 2), (0, .go), (1, .go)] ++
    List.replicate 14 (0, .go) ++ List.replicate 9 (1, .go)

/-- Under their mutex the calls of the allocator are atomic: whatever other
processes do between the accesses to its tree, the calls of every run take
effect one at a time as the allocator alone computes them, no assertion fails
and no access leaves the tree, and the blocks that are out are inside the heap,
aligned, long enough and disjoint. -/
theorem emsMutexMem_atomic {ι : Type} [DecidableEq ι] {level : Nat}
    (addressable : EMS_MEM_BLOCKSZ * 2 ^ level < 2 ^ 63)
    {trace : List (ι × GuardedLabel HeapAct HeapReply MutexCall Int)}
    {config : (heapMachine ι level).State}
    (run : Run (heapMachine ι level).Step
      ((heapMachine ι level).start ⟨false, Heap.fresh level⟩) trace config) :
    AllocatorAtomic level trace config := by
  have fresh : (heapGuard level).good (Heap.fresh level) :=
    ⟨_, HeapShape.fresh level⟩
  obtain ⟨spec, linearized⟩ := Guarded.linearized fresh run
  obtain ⟨tree, shape⟩ := linearized.good
  exact ⟨⟨spec, linearized.atomic, linearized.settled, shape.safe addressable⟩,
    linearized.neverAborts⟩

theorem emsMutexMem_atomic_interleaved :
    ∃ trace config, AllocatorAtomic (ι := Fin 2) 2 trace config ∧
      config.shared.object.live = [⟨64, 40⟩, ⟨0, 20⟩] := by
  obtain ⟨trace, config, run, served⟩ := (heapMachine (Fin 2) 2).exists_run
    ((heapMachine (Fin 2) 2).start ⟨false, Heap.fresh 2⟩) allocatingSchedule
    (fun played => played.2.shared.object.live = [⟨64, 40⟩, ⟨0, 20⟩])
      (by decide +kernel)
  exact ⟨trace, config, emsMutexMem_atomic (by decide) run,
    of_decide_eq_true served⟩

end EMS
