import EMS.Primitives
import EMS.Routines
import Mathlib.Data.List.Pairwise

/-!
# Values in memory

What the word of a slot and the heap hold for a value, and the blocks of the
heap that belong to it.  A value that has been stored stays what it is as long
as its word and the bytes of its blocks do.
-/

namespace EMS

open SharedProgram

/-- The allocator does not refuse the request. -/
def Serves (mem : EmsMem) (bytes : Nat) : Prop :=
  ∀ address after, emsMem_alloc mem bytes = .ok (address, after) → 0 ≤ address

instance (mem : EmsMem) (bytes : Nat) : Decidable (Serves mem bytes) :=
  match served : emsMem_alloc mem bytes with
  | .ok (address, _) =>
      decidable_of_iff (0 ≤ address) (by simp [Serves, served])
  | .error _ => isTrue (by simp [Serves, served])

theorem HeapShape.serve {level : Nat} {heap : Heap} {tree : BuddyTree}
    {bytes : Nat}
    (shape : HeapShape level heap tree) (valid : ValidRequest bytes)
    (serves : Serves heap.self bytes) :
    ∃ (address : Nat) (mem : EmsMem) (tree' : BuddyTree),
      emsMem_alloc heap.self bytes = .ok ((address : Int), mem) ∧
        HeapShape level ⟨mem, ⟨address, bytes⟩ :: heap.live⟩ tree' := by
  have spec := shape.alloc valid
  cases result : BuddyTree.take (orderFor bytes) level tree with
  | none =>
      simp only [result] at spec
      exact absurd (serves _ _ spec) (by decide)
  | some taken =>
      simp only [result] at spec
      obtain ⟨mem, success, after⟩ := spec
      exact ⟨_, mem, _, success, after⟩

instance : Std.Symm Block.Apart := ⟨fun _ _ either => either.symm⟩

theorem HeapShape.apart_of_ne {level : Nat} {heap : Heap} {tree : BuddyTree}
    (shape : HeapShape level heap tree) {first second : Block}
    (inFirst : first ∈ heap.live)
    (inSecond : second ∈ heap.live) (different : first ≠ second) :
    first.Apart second :=
  shape.apart.forall inFirst inSecond different

theorem HeapShape.perm {level : Nat} {mem : EmsMem} {live live' : List Block}
    {tree : BuddyTree}
    (shape : HeapShape level ⟨mem, live⟩ tree) (same : live'.Perm live) :
    HeapShape level ⟨mem, live'⟩ tree where
  level_eq := shape.level_eq
  represents := shape.represents
  coalesced := shape.coalesced
  onUnits := fun block member => shape.onUnits block (same.subset member)
  handsOut := (same.map Block.node).trans shape.handsOut

/-! ## Contents -/

/-- The bytes of the block are the same in both heaps. -/
def Block.Same (block : Block) (heap heap' : Int → UInt8) : Prop :=
  ∀ a : Int, block.address ≤ a → a < block.address + block.length →
    heap' a = heap a

/-- The request for the bytes of a string with its terminating zero. -/
def CString.block (text : CString) (address : Nat) : Block :=
  ⟨address, text.bytes.length + 1⟩

theorem HeapHolds.same {heap heap' : Int → UInt8} {text : CString}
    {address : Nat}
    (same : (text.block address).Same heap heap')
    (holds : HeapHolds heap address text.bytes) :
    HeapHolds heap' address text.bytes := by
  have room := (text.block address).bytes_le_length
  simp only [CString.block] at room same
  refine HeapHolds.congr (fun a lower upper => same a lower ?_) holds
  simp only at same ⊢
  omega

private theorem writeText_same {heap : Int → UInt8} {text : CString}
    {address : Nat} {block : Block}
    (apart : (text.block address).Apart block) :
    block.Same heap (writeText heap address text.bytes) := by
  intro a lower upper
  have room := (text.block address).bytes_le_length
  simp only [Block.Apart, CString.block] at apart room
  apply writeText_outside
  omega

/-- The types of values that a slot holds. -/
def IsValue (type : EMSType) : Prop := type ≠ .invalid ∧ type ≠ .unassigned

instance (type : EMSType) : Decidable (IsValue type) :=
  inferInstanceAs (Decidable (_ ∧ _))

/-- A value of one of the types, whose text fits into memory. -/
def EMSvalueType.Fits (value : EMSvalueType) : Prop :=
  IsValue value.type ∧ value.text.bytes.length + 32 < 2 ^ 64

instance (value : EMSvalueType) : Decidable value.Fits :=
  inferInstanceAs (Decidable (_ ∧ _))

/-- A string of 40 characters, which a heap of one block cannot hold. -/
def longString : EMSvalueType :=
  ⟨.string, 0, ⟨List.replicate 40 97, by simp⟩, 40⟩

/-- What a word and the heap hold for a value that takes the blocks. -/
def Contents (word : Int) (heap : Int → UInt8) (value : EMSvalueType)
    (blocks : List Block) :
    Prop :=
  match value.type with
  | .boolean | .integer | .float => word = value.value ∧ blocks = []
  | .json | .string => ∃ address : Nat, word = address ∧
      blocks = [value.text.block address] ∧
        HeapHolds heap address value.text.bytes
  | .undefined => blocks = []
  | _ => False

theorem Contents.same {word : Int} {heap heap' : Int → UInt8}
    {value : EMSvalueType}
    {blocks : List Block} (same : ∀ block ∈ blocks, block.Same heap heap')
    (contents : Contents word heap value blocks) :
    Contents word heap' value blocks := by
  unfold Contents at contents ⊢
  split at contents
  case h_4 | h_5 =>
    obtain ⟨address, sameWord, rfl, holds⟩ := contents
    exact ⟨address, sameWord, rfl, holds.same (same _ (by simp))⟩
  all_goals exact contents

/-- The entry holds the value. -/
def SlotHolds (buf : EmsBuf) (idx : Int) (value : EMSvalueType)
    (blocks : List Block) : Prop :=
  (buf.tag (EMSdataCell idx)).type = value.type ∧
    Contents (buf.word (EMSdataCell idx)) buf.heap value blocks

/-- A value as it comes back from a stack or a queue. -/
def EMSvalueType.back (value : EMSvalueType) : EMSvalueType :=
  match value.type with
  | .json | .string => ⟨value.type, 0, value.text, value.text.bytes.length⟩
  | .undefined => scalar .undefined 0xdeadbeef
  | type => scalar type value.value

/-- What is returned: the index of a value that was stored, or a value that was
taken. -/
inductive EntryRes where
  | index (res : Except EMSError Int)
  | value (res : Except EMSError EMSvalueType)

/-- What a call on an empty stack or queue returns. -/
def nothingThere : EMSvalueType := scalar .undefined 0xf00dd00f

/-- A value has been stored in a slot.  Everything else is as before, the
blocks of others included. -/
structure Stored (level : Nat) (live : List Block) (cell : Cell)
    (value : EMSvalueType)
    (blocks : List Block) (buf after : EmsBuf) : Prop where
  word : ∀ other, other ≠ cell → after.word other = buf.word other
  tag : after.tag = buf.tag
  mutex : after.memMutex = buf.memMutex
  shape : ∃ tree, HeapShape level ⟨after.mem, blocks ++ live⟩ tree
  heap : ∀ block ∈ live, block.Same buf.heap after.heap
  contents : Contents (after.word cell) after.heap value blocks

theorem Stored.scalar {level : Nat} {live : List Block} {tree : BuddyTree}
    {buf : EmsBuf}
    (shape : HeapShape level ⟨buf.mem, live⟩ tree) (cell : Cell)
    {value : EMSvalueType}
    {word : Int} (contents : Contents word buf.heap value []) :
    Stored level live cell value [] buf (buf.setWord cell word) where
  word := fun other different => by simp [different]
  tag := rfl
  mutex := rfl
  shape := ⟨tree, shape⟩
  heap := fun _ _ _ _ _ => rfl
  contents := by simpa using contents

theorem Stored.text {level : Nat} {live : List Block} {tree : BuddyTree}
    {buf : EmsBuf}
    {value : EMSvalueType} {address : Nat} {mem : EmsMem}
    (isText : value.type = .json ∨ value.type = .string)
    (shape : HeapShape level ⟨mem, value.text.block address :: live⟩ tree)
    (cell : Cell) :
    Stored level live cell value [value.text.block address] buf
      (((buf.setMem mem).setWord cell address).setHeap
        (writeText buf.heap address value.text.bytes)) where
  word := fun other different => by simp [different]
  tag := rfl
  mutex := rfl
  shape := ⟨tree, shape⟩
  heap := by
    intro block member
    exact writeText_same (List.rel_of_pairwise_cons shape.apart member)
  contents := by
    have holds := writeText_holds buf.heap address value.text.bytes
    rcases isText with type | type <;>
      · simp only [Contents, type]
        exact ⟨address, by simp, rfl, holds⟩

/-! ## Accesses that change no tag -/

/-- The entry whose tag the access may change. -/
def Access.tagged : Access → Option Cell
  | .storeTag cell _ | .casTag cell _ _ => some cell
  | _ => none

/-- An access changes no tag but the one it is meant for. -/
theorem Access.perform_tag {act : Access} {cell : Cell}
    (untouched : act.tagged ≠ some cell)
    (buf : EmsBuf) : (act.perform buf).2.tag cell = buf.tag cell := by
  have different : ∀ other, act.tagged = some other → cell ≠ other := by
    intro other changed same
    exact untouched (same ▸ changed)
  cases act with
  | storeTag other tag => simp [perform, different other rfl]
  | casTag other old new =>
      simp only [perform]
      split
      · simp [different other rfl]
      · rfl
  | casMutex old new => simp only [perform]; split <;> rfl
  | memAlloc bytes => simp only [perform]; split <;> rfl
  | memFree address => simp only [perform]; split <;> rfl
  | _ => rfl

section Undisturbed

variable {given : Access → EmsBuf → Prop} {allows : Access → Prop}
  {spins : Prop}
  {level : Nat} {live : List Block} {tree : BuddyTree} {buf : EmsBuf}
    {patience : Nat}

/-- The value has been stored without an error. -/
def StoredOk (level : Nat) (live : List Block) (cell : Cell)
    (value : EMSvalueType)
    (buf : EmsBuf) (stored : Except EMSError Unit) (after : EmsBuf) : Prop :=
  stored = .ok () ∧ ∃ blocks, Stored level live cell value blocks buf after

/-- Writing an entry of a stack or a queue. -/
theorem storeEntry_ends {idx : Int} {value : EMSvalueType} (fits : value.Fits)
    (shape : HeapShape level ⟨buf.mem, live⟩ tree)
    (free : buf.memMutex = .empty)
    (patient : patience = 0 → spins)
    (mayUse : ∀ act, act.tagged = none → allows act)
    (serves : value.type = .json ∨ value.type = .string → ∀ held : EmsBuf,
      held.mem = buf.mem →
      given (.memAlloc (value.text.bytes.length + 1)) held →
      Serves held.mem (value.text.bytes.length + 1)) :
    (emsSolo given allows spins).Ends
    (StoredOk level live (EMSdataCell idx) value buf)
      (storeEntry patience idx value) buf := by
  have scalar : ∀ word, Contents word buf.heap value [] →
      (emsSolo given allows spins).Ends
        (StoredOk level live (EMSdataCell idx) value buf)
        (store (EMSdataCell idx) word >>= fun _ => pure (.ok ())) buf := by
    intro word contents
    apply Solo.Ends.perform
    exact fun _ => ⟨mayUse _ rfl, rfl, [], .scalar shape _ contents⟩
  have text : (isText : value.type = .json ∨ value.type = .string) →
      (emsSolo given allows spins).Ends
        (StoredOk level live (EMSdataCell idx) value buf)
        (emsMutexMem_alloc patience (value.text.bytes.length + 1) >>=
            fun textOffset =>
          if textOffset < 0 then pure (.error .outOfMemory)
          else do
            store (EMSdataCell idx) textOffset
            copyToHeap textOffset value.text.bytes
            return .ok ()) buf := by
    intro isText
    apply Solo.Ends.bind
    refine emsMutexMem_alloc_ends free (fun _ _ => mayUse _ rfl)
      (fun _ => mayUse _ rfl)
      patient (mayUse _ rfl) fun isGiven => ?_
    have valid : ValidRequest (value.text.bytes.length + 1) := by
      have short := fits.2
      constructor <;> omega
    have served := serves isText { buf with memMutex := .full } rfl isGiven
    obtain ⟨address, mem, tree', success, after⟩ := shape.serve valid served
    refine ⟨address, mem, success, ?_⟩
    rw [if_neg (by omega)]
    apply Solo.Ends.perform
    refine fun _ => ⟨mayUse _ rfl, ?_⟩
    apply (copyToHeap_yields fun _ _ _ _ => mayUse _ rfl).bind
    exact ⟨rfl, _, .text isText after _⟩
  obtain ⟨type, word, valueText, length⟩ := value
  cases type with
  | invalid => exact absurd rfl fits.1.1
  | unassigned => exact absurd rfl fits.1.2
  | boolean | integer | float => exact scalar word ⟨rfl, rfl⟩
  | undefined => exact scalar 0xdeadbeef rfl
  | json => exact text (.inl rfl)
  | string => exact text (.inr rfl)

end Undisturbed

end EMS
