import EMS.Ledger
import EMS.Rmw

/-!
# Placing values in elements

A string is placed in a block of its own, which is handed out for it; any other
value is its word.  The three ways in which the operations place a value end in
the same: one new block for a string, and nothing else is disturbed.
-/

namespace EMS

open SharedProgram

/-- The type of a value that is placed in the heap. -/
def EMSType.IsText (type : EMSType) : Prop := type = .string ∨ type = .json

instance (type : EMSType) : Decidable type.IsText :=
  inferInstanceAs (Decidable (_ ∨ _))

/-- The type of a value that is its word. -/
def EMSType.IsWord (type : EMSType) : Prop :=
  type = .boolean ∨ type = .integer ∨ type = .float

instance (type : EMSType) : Decidable type.IsWord :=
  inferInstanceAs (Decidable (_ ∨ _ ∨ _))

theorem EMSType.IsText.not_word {type : EMSType} (isText : type.IsText) :
    ¬ type.IsWord := by
  rcases isText with rfl | rfl <;> decide

/-- What a word and the heap hold for a value in the blocks.  A block may be
longer than its string. -/
def WordHolds (word : Int) (heap : Int → UInt8) (value : EMSvalueType)
    (blocks : List Block) :
    Prop :=
  match value.type with
  | .boolean | .integer | .float => word = value.value ∧ blocks = []
  | .json | .string => ∃ block, blocks = [block] ∧ word = block.address ∧
      value.text.bytes.length < block.bytes ∧
        HeapHolds heap block.address value.text.bytes
  | .undefined => blocks = []
  | _ => False

theorem wordHolds_text {word : Int} {heap : Int → UInt8} {value : EMSvalueType}
    {blocks : List Block} (text : value.type.IsText) :
    WordHolds word heap value blocks ↔ ∃ block, blocks = [block] ∧
      word = block.address ∧
      value.text.bytes.length < block.bytes ∧
        HeapHolds heap block.address value.text.bytes := by
  rcases text with type | type <;> simp [WordHolds, type]

theorem wordHolds_word {word : Int} {heap : Int → UInt8} {value : EMSvalueType}
    {blocks : List Block} (isWord : value.type.IsWord) :
    WordHolds word heap value blocks ↔ word = value.value ∧ blocks = [] := by
  rcases isWord with type | type | type <;> simp [WordHolds, type]

theorem WordHolds.isValue {word : Int} {heap : Int → UInt8}
    {value : EMSvalueType}
    {blocks : List Block} (holds : WordHolds word heap value blocks) :
    IsValue value.type := by
  unfold WordHolds at holds
  split at holds
  case h_7 => exact holds.elim
  all_goals simp_all [IsValue]

theorem WordHolds.no_blocks {word : Int} {heap : Int → UInt8}
    {value : EMSvalueType}
    {blocks : List Block} (noText : ¬ value.type.IsText)
    (holds : WordHolds word heap value blocks) :
    blocks = [] := by
  unfold WordHolds at holds
  split at holds
  case h_4 type => exact absurd (.inr type) noText
  case h_5 type => exact absurd (.inl type) noText
  case h_6 => exact holds
  case h_7 => exact holds.elim
  all_goals exact holds.2

theorem HeapHolds.in_block {heap heap' : Int → UInt8} {text : List UInt8}
    {block : Block}
    (room : text.length < block.bytes) (same : block.Same heap heap')
    (holds : HeapHolds heap block.address text) :
    HeapHolds heap' block.address text := by
  have longEnough := block.bytes_le_length
  apply HeapHolds.congr _ holds
  intro a lower upper
  apply same a lower
  omega

theorem WordHolds.same {word : Int} {heap heap' : Int → UInt8}
    {value : EMSvalueType}
    {blocks : List Block} (same : ∀ block ∈ blocks, block.Same heap heap')
    (holds : WordHolds word heap value blocks) :
    WordHolds word heap' value blocks := by
  by_cases text : value.type.IsText
  · rw [wordHolds_text text] at holds ⊢
    obtain ⟨block, rfl, address, room, bytes⟩ := holds
    exact ⟨block, rfl, address, room,
      bytes.in_block room (same block (by simp))⟩
  · unfold WordHolds at holds ⊢
    split at holds
    case h_4 type => exact absurd (.inr type) text
    case h_5 type => exact absurd (.inl type) text
    all_goals exact holds

theorem writeText_apart {heap : Int → UInt8} {text : List UInt8}
    {block other : Block}
    (room : text.length < block.bytes) (apart : block.Apart other) :
    other.Same heap (writeText heap block.address text) := by
  intro a lower upper
  have longEnough := block.bytes_le_length
  unfold Block.Apart at apart
  apply writeText_outside
  omega

/-- A value has been placed in the entry, in new blocks.  Everything else is as
before. -/
structure Placed (level : Nat) (cell : Cell) (value : EMSvalueType)
    (blocks : List Block)
    (ledger after : Ledger) : Prop where
  word : ∀ other, other ≠ cell → after.buf.word other = ledger.buf.word other
  tag : after.buf.tag = ledger.buf.tag
  ordered : after.Ordered level
  live : after.live = blocks ++ ledger.live
  misfreed : after.misfreed = ledger.misfreed
  heap : ∀ block ∈ ledger.live, block.Same ledger.buf.heap after.buf.heap
  holds : WordHolds (after.buf.word cell) after.buf.heap value blocks

section Placing

variable {level : Nat} {ledger : Ledger} {cell : Cell} {value : EMSvalueType}

theorem Placed.scalar {word : Int} (ordered : ledger.Ordered level)
    (holds : WordHolds word ledger.buf.heap value []) :
    Placed level cell value [] ledger
      { ledger with buf := ledger.buf.setWord cell word } where
  word := by
    intro other different
    simp [different]
  tag := rfl
  ordered := ordered.congr rfl rfl rfl
  live := rfl
  misfreed := rfl
  heap := fun _ _ _ _ _ => rfl
  holds := by simpa using holds

theorem Placed.text {mem : EmsMem} {block : Block} (text : value.type.IsText)
    (room : value.text.bytes.length < block.bytes)
    (ordered : Ledger.Ordered level
      ⟨ledger.buf.setMem mem, block :: ledger.live, ledger.misfreed⟩) :
    Placed level cell value [block] ledger
      ⟨((ledger.buf.setMem mem).setWord cell block.address).setHeap
        (writeText ledger.buf.heap block.address value.text.bytes),
          block :: ledger.live,
        ledger.misfreed⟩ where
  word := by
    intro other different
    simp [different]
  tag := rfl
  ordered := ordered.congr rfl rfl rfl
  live := rfl
  misfreed := rfl
  heap := by
    obtain ⟨-, tree, shape⟩ := ordered
    intro other member
    exact writeText_apart room (List.rel_of_pairwise_cons shape.apart member)
  holds := by
    rw [wordHolds_text text]
    exact ⟨block, rfl, by simp, room, writeText_holds _ _ _⟩

/-! ## The three ways to place a value -/

/-- The request of an operation for the bytes of a string. -/
structure EMSvalueType.Requests (value : EMSvalueType)
    (bytes : Nat) : Prop where
  valid : ValidRequest bytes
  room : value.text.bytes.length < bytes

variable {patience : Nat}

/-- The value has been placed without an error. -/
def PlacedOk (level : Nat) (cell : Cell) (value : EMSvalueType)
    (ledger : Ledger)
    (placed : Except EMSError Unit) (after : Ledger) : Prop :=
  placed = .ok () ∧ ∃ blocks, Placed level cell value blocks ledger after

theorem store_places {word : Int} (ordered : ledger.Ordered level)
    (holds : WordHolds word ledger.buf.heap value []) :
    ledgerSolo.Ends (PlacedOk level cell value ledger)
      (store cell word >>= fun _ => pure (.ok ())) ledger := by
  apply Ends.account
  apply Solo.Ends.perform
  exact fun _ => ⟨trivial, rfl, [], .scalar ordered holds⟩

theorem alloc_places {bytes : Nat} (ordered : ledger.Ordered level)
    (text : value.type.IsText)
    (requests : value.Requests bytes) :
    ledgerSolo.Ends (PlacedOk level cell value ledger)
      (emsMutexMem_alloc patience bytes >>= fun textOffset =>
        if textOffset < 0 then pure (.error .outOfMemory)
        else do
          store cell textOffset
          copyToHeap textOffset value.text.bytes
          return .ok ()) ledger := by
  apply Solo.Ends.bind
  apply (emsMutexMem_alloc_alone ordered requests.valid).mono
  rintro _ _ ⟨offset, mem, rfl, rfl, ordered'⟩
  rw [if_neg (by omega)]
  apply Ends.account
  apply Solo.Ends.perform
  refine fun _ => ⟨trivial, ?_⟩
  apply (copyToHeap_yields fun _ _ _ _ => trivial).bind
  exact ⟨rfl, _, .text text requests.room ordered'⟩

theorem storeText_places {bytes : Nat} {idx : Int}
    (ordered : ledger.Ordered level)
    (text : value.type.IsText) (requests : value.Requests bytes) :
    ledgerSolo.Ends (PlacedOk level (EMSdataCell idx) value ledger)
      (storeText patience idx bytes (pure value.text)) ledger := by
  apply Solo.Ends.bind
  apply (emsMutexMem_alloc_alone ordered requests.valid).mono
  rintro _ _ ⟨offset, mem, rfl, rfl, ordered'⟩
  rw [if_neg (by omega)]
  apply Ends.account
  apply (copyToHeap_yields fun _ _ _ _ => trivial).bind
  apply Solo.Ends.perform
  exact fun _ => ⟨trivial, rfl, _, .text text requests.room ordered'⟩

/-- A value of one of the types of values. -/
structure EMSvalueType.Placeable (value : EMSvalueType)
    (bytes : Nat) : Prop where
  isValue : IsValue value.type
  requests : value.type.IsText → value.Requests bytes

theorem EMSvalueType.Placeable.cases {bytes : Nat}
    (placeable : value.Placeable bytes) :
    (value.type.IsText ∧ value.Requests bytes) ∨ value.type = .boolean ∨
      value.type = .integer ∨
      value.type = .float ∨ value.type = .undefined := by
  obtain ⟨isValue, requests⟩ := placeable
  by_cases text : value.type.IsText
  · exact .inl ⟨text, requests text⟩
  · right
    cases type : value.type <;> simp_all [IsValue, EMSType.IsText]

theorem storeValue_places {idx : Int} (ordered : ledger.Ordered level)
    (placeable : value.Placeable (value.length + 1)) :
    ledgerSolo.Ends (PlacedOk level (EMSdataCell idx) value ledger)
      (storeValue patience idx value) ledger := by
  rcases placeable.cases with ⟨type | type, requests⟩ | type |
    type | type | type
  · simp only [storeValue, type]
    exact alloc_places ordered (.inl type) requests
  · simp only [storeValue, type]
    exact alloc_places ordered (.inr type) requests
  all_goals
    simp only [storeValue, type]
    exact store_places ordered (by simp [WordHolds, type])

theorem storeEntry_places {idx : Int} (ordered : ledger.Ordered level)
    (placeable : value.Placeable (value.text.bytes.length + 1)) :
    ledgerSolo.Ends (PlacedOk level (EMSdataCell idx) value ledger)
      (storeEntry patience idx value) ledger := by
  rcases placeable.cases with ⟨type | type, requests⟩ | type |
    type | type | type
  · simp only [storeEntry, type]
    exact alloc_places ordered (.inl type) requests
  · simp only [storeEntry, type]
    exact alloc_places ordered (.inr type) requests
  all_goals
    simp only [storeEntry, type]
    exact store_places ordered (by simp [WordHolds, type])

theorem casStore_places {idx : Int} (ordered : ledger.Ordered level)
    (placeable : value.Placeable (value.length + 1)) :
    ledgerSolo.Ends (PlacedOk level (EMSdataCell idx) value ledger)
      (casStore patience idx value) ledger := by
  rcases placeable.cases with ⟨type | type, requests⟩ | type |
    type | type | type
  · simp only [casStore, type]
    exact storeText_places ordered (.inl type) requests
  · simp only [casStore, type]
    exact storeText_places ordered (.inr type) requests
  all_goals
    simp only [casStore, type]
    exact store_places ordered (by simp [WordHolds, type])

end Placing

end EMS
