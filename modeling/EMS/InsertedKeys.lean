import EMS.AloneCalls
import EMS.KeyMap
import EMS.OwnedBlocks
import EMS.RefusedStrings

/-!
# The keys that slots are bound to

Writes insert the keys of a map, and the heap may refuse what they ask for.  A
call that is refused leaves a slot or an element busy.  Whatever has been
refused, a slot that is full is free or holds a key that was inserted.
-/

namespace EMS

open SharedProgram OpenAddressing

/-! ## Placing what the heap may refuse -/

section Placing

variable {level patience : Nat} {ledger after : Ledger} {cell : Cell}
  {value : EMSvalueType}
  {result : Except EMSError Unit}

/-- A request that is refused changes nothing. -/
theorem Ledger.Ordered.refused {bytes : Nat} {address : Int} {mem : EmsMem}
    (ordered : ledger.Ordered level) (valid : ValidRequest bytes)
    (answer : emsMem_alloc ledger.buf.mem bytes = .ok (address, mem))
    (negative : address < 0) :
    ledger.allocated bytes address mem = ledger := by
  obtain ⟨-, tree, shape⟩ := ordered
  have refused : ¬ Serves ledger.buf.mem bytes := by
    rw [serves_of_answer answer]
    omega
  have same := shape.refuse valid refused
  obtain ⟨-, rfl⟩ := Prod.mk.inj (Except.ok.inj (answer.symm.trans same))
  rw [Ledger.allocated, if_neg (by omega)]
  rfl

/-- The value has been placed, or there was no memory for it. -/
def PlacedOrRefused (level : Nat) (cell : Cell) (value : EMSvalueType)
    (ledger : Ledger)
    (result : Except EMSError Unit) (after : Ledger) : Prop :=
  result = .error .outOfMemory ∧ after = ledger ∨
    PlacedOk level cell value ledger result after

theorem store_placed {word : Int} (ordered : ledger.Ordered level)
    (holds : WordHolds word ledger.buf.heap value [])
    (returned : heapSolo.Returns
      (store cell word >>= fun _ => pure (.ok ())) ledger result after) :
    PlacedOrRefused level cell value ledger result after := by
  rw [store_returns] at returned
  obtain ⟨rfl, rfl⟩ := Solo.returns_ret_iff.mp returned
  exact .inr ⟨rfl, [], .scalar ordered holds⟩

theorem alloc_placed {bytes : Nat} (ordered : ledger.Ordered level)
    (text : value.type.IsText)
    (requests : value.Requests bytes)
    (returned : heapSolo.Returns
      (emsMutexMem_alloc patience bytes >>= fun textOffset =>
        if textOffset < 0 then pure (.error .outOfMemory)
        else do
          store cell textOffset
          copyToHeap textOffset value.text.bytes
          return .ok ()) ledger result after) :
    PlacedOrRefused level cell value ledger result after := by
  obtain ⟨address, between, requested, continued⟩ :=
    Solo.returns_bind_iff.mp returned
  obtain ⟨mem, answer, rfl⟩ := emsMutexMem_alloc_returns requested
  split at continued
  · next negative =>
      rw [ordered.refused requests.valid answer negative] at continued
      exact .inl (Solo.returns_ret_iff.mp continued)
  · next served =>
      rw [store_returns] at continued
      have copied := copyToHeap_returns continued
      obtain ⟨rfl, rfl⟩ := Solo.returns_ret_iff.mp copied
      obtain ⟨offset, rfl⟩ := Int.eq_ofNat_of_zero_le (Int.not_lt.mp served)
      have inOrder :=
        ordered.allocated requests.valid answer (Int.natCast_nonneg offset)
      refine .inr ⟨rfl, [⟨offset, bytes⟩], ?_⟩
      rw [Ledger.allocated, if_pos (Int.natCast_nonneg offset)] at inOrder ⊢
      exact .text text requests.room inOrder

private theorem storeValue_placed {idx : Int} (ordered : ledger.Ordered level)
    (placeable : value.Placeable (value.length + 1))
    (returned : heapSolo.Returns
      (storeValue patience idx value) ledger result after) :
    PlacedOrRefused level (EMSdataCell idx) value ledger result after := by
  rcases placeable.cases with ⟨type | type, requests⟩ | type |
    type | type | type
  · simp only [storeValue, type] at returned
    exact alloc_placed ordered (.inl type) requests returned
  · simp only [storeValue, type] at returned
    exact alloc_placed ordered (.inr type) requests returned
  all_goals
    simp only [storeValue, type] at returned
    exact store_placed ordered (by simp [WordHolds, type]) returned

/-- The type of the key is stored in the slot before there is memory for it. -/
theorem insertKey_placed {array : EmsArray} {key : EMSvalueType} {k : MapKey}
    {slot : Int}
    (same : SameContent key k.value) (sized : key.Sized)
    (ordered : ledger.Ordered level)
    (returned : heapSolo.Returns
      (insertKey patience array key slot) ledger result after) :
    PlacedOrRefused level (EMSmapCell array.nElem slot) k.value
      (ledger.setTag (EMSmapCell array.nElem slot)
        { ledger.buf.tag (EMSmapCell array.nElem slot) with type :=
          k.value.type }) result
      after := by
  obtain ⟨keyType, keyText, keyWord⟩ := same
  rw [keyType] at keyText keyWord
  rw [insertKey, storeType_returns, keyType] at returned
  have typed : (ledger.setTag (EMSmapCell array.nElem slot)
      { ledger.buf.tag (EMSmapCell array.nElem slot) with type :=
          k.value.type }).Ordered level :=
    ordered.congr rfl rfl rfl
  cases k with
  | boolean bit =>
      apply store_placed typed _ returned
      rw [wordHolds_word (.inl rfl), keyWord (.inl rfl)]
      cases bit <;> simp [MapKey.value, scalar]
  | integer number =>
      apply store_placed typed _ returned
      exact (wordHolds_word (.inr (.inl rfl))).mpr
        ⟨keyWord (.inr (.inl rfl)), rfl⟩
  | string text =>
      have passed := keyText (.inl rfl)
      obtain ⟨room, addressable⟩ := sized.text (keyType ▸ .inl rfl)
      rw [passed] at room returned
      apply alloc_placed typed (.inl rfl) _ returned
      constructor
      · constructor <;> omega
      · omega

end Placing

/-! ## Searching for a slot -/

section Searching

variable [CRuntime] {array : EmsArray} {level patience : Nat}
  {ledger after : Ledger}
  {key : EMSvalueType} {k : MapKey} {slot : Int}

/-- The slot has been free, and the key is placed there, or there was no memory
for it. -/
def SlotClaimed (array : EmsArray) (level : Nat) (k : MapKey) (ledger : Ledger)
    (slot : Int)
    (claimed : Int) (after : Ledger) : Prop :=
  (ledger.buf.tag (EMSmapCell array.nElem claimed)).fe = .full ∧
    (ledger.buf.tag (EMSmapCell array.nElem claimed)).type = .undefined ∧
    ∃ inserted, PlacedOrRefused level (EMSmapCell array.nElem claimed) k.value
        (ledger.setTag (EMSmapCell array.nElem claimed)
          { ledger.buf.tag (EMSmapCell array.nElem claimed) with
            fe := .busy, type := k.value.type }) inserted after ∧
      slot = if inserted.isOk then claimed else -1

/-- The search has given up, has found a full slot, or has claimed a free
one. -/
def Searched (array : EmsArray) (level : Nat) (k : MapKey) (ledger : Ledger)
    (slot : Int)
    (after : Ledger) : Prop :=
  slot = -1 ∧ after = ledger ∨
    slot.tmod array.nElem = slot ∧
      (ledger.buf.tag (EMSmapCell array.nElem slot)).fe = .full ∧
      after = ledger ∨
    ∃ claimed, claimed.tmod array.nElem = claimed ∧
      SlotClaimed array level k ledger slot claimed after

theorem writeProbe_searched (same : SameContent key k.value) (sized : key.Sized)
    (ordered : ledger.Ordered level) {tries : Nat} {idx : Int}
    (returned : heapSolo.Returns
      (writeProbe patience array key tries idx) ledger slot after) :
    Searched array level k ledger slot after := by
  induction tries generalizing idx with
  | zero => exact .inl (Solo.returns_ret_iff.mp returned)
  | succ tries induction =>
      rw [writeProbe] at returned
      obtain ⟨full, continued⟩ := transition_returns returned
      split at continued
      · next free =>
          obtain ⟨inserted, between, placed, ended⟩ :=
            Solo.returns_bind_iff.mp continued
          have held : (ledger.setTag
              (EMSmapCell array.nElem (idx.tmod array.nElem))
              { ledger.buf.tag (EMSmapCell array.nElem (idx.tmod array.nElem))
                  with
                fe := .busy }).Ordered level :=
            ordered.congr rfl rfl rfl
          have claims := insertKey_placed same sized held placed
          simp only [Ledger.setTag_buf, EmsBuf.setTag_tag, Function.update_self,
            Ledger.setTag_setTag] at claims
          refine .inr (.inr ⟨_, Int.tmod_tmod _ _, full, free, inserted, ?_⟩)
          cases inserted with
          | error error =>
              obtain ⟨rfl, rfl⟩ := Solo.returns_ret_iff.mp ended
              exact ⟨claims, rfl⟩
          | ok =>
              obtain ⟨rfl, rfl⟩ := Solo.returns_ret_iff.mp ended
              exact ⟨claims, rfl⟩
      · next bound =>
          rw [writeMatches_returns (by simp)] at continued
          simp only [Ledger.setTag_buf, writeFinds_setTag] at continued
          split at continued
          · next finds =>
              have type : (ledger.buf.tag
                  (EMSmapCell array.nElem (idx.tmod array.nElem))).type =
                  k.value.type := by
                rw [writeFinds] at finds
                split at finds
                · next sameType => exact sameType.trans same.1
                · cases finds
              cases kind : (ledger.buf.tag
                  (EMSmapCell array.nElem (idx.tmod array.nElem))).type with
              | boolean | integer | float | string =>
                  simp only [kind] at continued
                  rw [← kind, storeFE_released full] at continued
                  obtain ⟨rfl, rfl⟩ := Solo.returns_ret_iff.mp continued
                  exact .inr (.inl ⟨Int.tmod_tmod _ _, full, rfl⟩)
              | undefined => exact absurd kind bound
              | json | invalid | unassigned =>
                  rw [kind] at type
                  cases k <;> simp [MapKey.value, scalar] at type
          · rw [storeFE_released full] at continued
            exact induction continued

private theorem EMSwriteIndexMap_searched (mapped : array.isMapped = true)
    (positive : 0 < array.nElem)
    (same : SameContent key k.value) (sized : key.Sized)
    (ordered : ledger.Ordered level)
    (returned : heapSolo.Returns
      (EMSwriteIndexMap patience array key) ledger slot after) :
    Searched array level k ledger slot after := by
  rw [EMSwriteIndexMap, mapped] at returned
  obtain ⟨first, between, looked, continued⟩ :=
    Solo.returns_bind_iff.mp returned
  obtain ⟨index, same'⟩ := EMSkey2index_returns looked
  subst same'
  split at continued
  · next above =>
      obtain ⟨rfl, rfl⟩ := Solo.returns_ret_iff.mp continued
      refine .inr (.inl ⟨?_, EMSkey2index_full positive above.le looked, rfl⟩)
      rw [index, keyIndex_tmod]
      omega
  · obtain ⟨second, between, reduced, probed⟩ :=
      Solo.returns_bind_iff.mp continued
    obtain ⟨-, rfl⟩ := EMSkey2index_returns reduced
    exact writeProbe_searched same sized ordered probed

end Searching

/-! ## What slots and elements own -/

/-- The slots in the table hold their keys, and the other full slots are free.
A key that is a string has a block of its own, and so has an element that is
one, unless it is busy or being worked on. -/
structure KeysHold (array : EmsArray) (level : Nat) (working : Int)
    (table : Table MapKey)
    (owner : Cell → Option Block) (ledger : Ledger) : Prop where
  ordered : ledger.Ordered level
  live : ∀ cell block, owner cell = some block → block ∈ ledger.live
  distinct : ∀ cell cell' block, owner cell = some block →
    owner cell' = some block → cell = cell'
  bound : ∀ i : Nat, (i : Int) < array.nElem → ∀ k, table i = some k →
    (ledger.buf.tag (EMSmapCell array.nElem i)).type = k.value.type ∧
      WordHolds (ledger.buf.word (EMSmapCell array.nElem i))
        ledger.buf.heap k.value
        (owner (EMSmapCell array.nElem i)).toList
  free : ∀ i : Nat, (i : Int) < array.nElem → table i = none →
    (ledger.buf.tag (EMSmapCell array.nElem i)).fe = .full →
    (ledger.buf.tag (EMSmapCell array.nElem i)).type = .undefined
  elements : ∀ i : Nat, (i : Int) < array.nElem → (i : Int) ≠ working →
    (ledger.buf.tag (EMSdataCell i)).fe ≠ .busy →
    BlocksOf (ledger.buf.tag (EMSdataCell i)).type
      (ledger.buf.word (EMSdataCell i))
      (owner (EMSdataCell i)).toList

section Owners

variable {array : EmsArray} {level slot : Nat} {working : Int}
  {table : Table MapKey}
  {owner : Cell → Option Block} {ledger after : Ledger} {cell : Cell}

/-- A tag has been stored that leaves a bound slot its type. -/
theorem KeysHold.setTag
    (keys : KeysHold array level working table owner ledger) {tag : Tag}
    (bound : ∀ i : Nat, (i : Int) < array.nElem →
      EMSmapCell array.nElem i = cell →
      table i ≠ none → tag.type = (ledger.buf.tag cell).type)
    (free : ∀ i : Nat, (i : Int) < array.nElem →
      EMSmapCell array.nElem i = cell →
      table i = none → tag.fe = .full → tag.type = .undefined)
    (elements : ∀ i : Nat, (i : Int) < array.nElem → EMSdataCell i = cell →
      (i : Int) ≠ working →
      tag.fe ≠ .busy → BlocksOf tag.type (ledger.buf.word cell)
        (owner cell).toList) :
    KeysHold array level working table owner (ledger.setTag cell tag) where
  ordered := keys.ordered.congr rfl rfl rfl
  live := keys.live
  distinct := keys.distinct
  bound := by
    intro i inside k isBound
    obtain ⟨type, word⟩ := keys.bound i inside k isBound
    refine ⟨?_, word⟩
    by_cases same : EMSmapCell array.nElem i = cell
    · subst same
      simp [bound i inside rfl (by simp [isBound]), type]
    · simp [same, type]
  free := by
    intro i inside isFree full
    by_cases same : EMSmapCell array.nElem i = cell
    · subst same
      simp only [Ledger.setTag_buf, EmsBuf.setTag_tag,
        Function.update_self] at full ⊢
      exact free i inside rfl isFree full
    · simp only [Ledger.setTag_buf, EmsBuf.setTag_tag,
        Function.update_of_ne same] at full ⊢
      exact keys.free i inside isFree full
  elements := by
    intro i inside other idle
    by_cases same : EMSdataCell i = cell
    · subst same
      simp only [Ledger.setTag_buf, EmsBuf.setTag_tag,
        Function.update_self] at idle ⊢
      exact elements i inside rfl other idle
    · simp only [Ledger.setTag_buf, EmsBuf.setTag_tag,
        Function.update_of_ne same] at idle ⊢
      exact keys.elements i inside other idle

theorem WordHolds.toList_head {word : Int} {heap : Int → UInt8}
    {value : EMSvalueType}
    {blocks : List Block} (holds : WordHolds word heap value blocks) :
    blocks.head?.toList = blocks := by
  by_cases text : value.type.IsText
  · obtain ⟨block, rfl, -⟩ := (wordHolds_text text).mp holds
    rfl
  · rw [holds.no_blocks text]
    rfl

/-- A block that has just been handed out is nobody's. -/
theorem Ledger.Ordered.fresh {blocks : List Block}
    (ordered : after.Ordered level)
    (live : after.live = blocks ++ ledger.live) {block : Block}
    (new : block ∈ blocks) :
    block ∉ ledger.live := by
  obtain ⟨-, tree, shape⟩ := ordered
  have apart : (blocks ++ ledger.live).Pairwise Block.Apart := by
    rw [← live]
    exact shape.apart
  intro old
  have self := (List.pairwise_append.mp apart).2.2 block new block old
  have positive := block.length_pos
  rw [Block.Apart] at self
  omega

/-- A value has been placed where nothing is held to be. -/
theorem KeysHold.placed (keys : KeysHold array level working table owner ledger)
    {value : EMSvalueType} {blocks : List Block}
    (places : Placed level cell value blocks ledger after)
    (slots : ∀ i : Nat, (i : Int) < array.nElem → table i ≠ none →
      EMSmapCell array.nElem i ≠ cell)
    (elements : ∀ i : Nat, (i : Int) < array.nElem → (i : Int) ≠ working →
      (ledger.buf.tag (EMSdataCell i)).fe ≠ .busy → EMSdataCell i ≠ cell) :
    KeysHold array level working table
      (Function.update owner cell blocks.head?) after where
  ordered := places.ordered
  live := by
    intro other block owns
    rw [places.live]
    by_cases same : other = cell
    · subst same
      rw [Function.update_self] at owns
      exact List.mem_append_left _ (List.mem_of_mem_head? owns)
    · rw [Function.update_of_ne same] at owns
      exact List.mem_append_right _ (keys.live other block owns)
  distinct := by
    have new : ∀ other block, other ≠ cell → owner other = some block →
        blocks.head? ≠ some block := by
      intro other block _ owns placed
      exact places.ordered.fresh places.live (List.mem_of_mem_head? placed)
        (keys.live other block owns)
    intro first second block owns owns'
    by_cases same : first = cell
    · by_cases same' : second = cell
      · rw [same, same']
      · rw [same, Function.update_self] at owns
        rw [Function.update_of_ne same'] at owns'
        exact absurd owns (new second block same' owns')
    · rw [Function.update_of_ne same] at owns
      by_cases same' : second = cell
      · rw [same', Function.update_self] at owns'
        exact absurd owns' (new first block same owns)
      · rw [Function.update_of_ne same'] at owns'
        exact keys.distinct first second block owns owns'
  bound := by
    intro i inside k isBound
    have other := slots i inside (by simp [isBound])
    obtain ⟨type, word⟩ := keys.bound i inside k isBound
    rw [places.tag, places.word _ other, Function.update_of_ne other]
    refine ⟨type, word.same ?_⟩
    intro block member
    exact places.heap block (keys.live _ block (Option.mem_toList.mp member))
  free := by
    intro i inside isFree
    rw [places.tag]
    exact keys.free i inside isFree
  elements := by
    intro i inside other idle
    rw [places.tag] at idle ⊢
    have apart := elements i inside other idle
    rw [places.word _ apart, Function.update_of_ne apart]
    exact keys.elements i inside other idle

/-- A key has been placed in a slot that has none. -/
theorem KeysHold.bind (keys : KeysHold array level working table owner ledger)
    {k : MapKey}
    (type : (ledger.buf.tag (EMSmapCell array.nElem slot)).type = k.value.type)
    (word : WordHolds (ledger.buf.word (EMSmapCell array.nElem slot))
      ledger.buf.heap k.value
      (owner (EMSmapCell array.nElem slot)).toList) :
    KeysHold array level working (Function.update table slot (some k)) owner
      ledger where
  ordered := keys.ordered
  live := keys.live
  distinct := keys.distinct
  bound := by
    intro i inside k' isBound
    by_cases same : i = slot
    · subst same
      rw [Function.update_self] at isBound
      obtain rfl := Option.some.inj isBound
      exact ⟨type, word⟩
    · rw [Function.update_of_ne same] at isBound
      exact keys.bound i inside k' isBound
  free := by
    intro i inside isFree
    by_cases same : i = slot
    · simp [same] at isFree
    · rw [Function.update_of_ne same] at isFree
      exact keys.free i inside isFree
  elements := keys.elements

/-- A slot that is not full may be forgotten. -/
theorem KeysHold.forget (keys : KeysHold array level working table owner ledger)
    (held : (ledger.buf.tag (EMSmapCell array.nElem slot)).fe ≠ .full) :
    KeysHold array level working (Function.update table slot none) owner
      ledger where
  ordered := keys.ordered
  live := keys.live
  distinct := keys.distinct
  bound := by
    intro i inside k isBound
    by_cases same : i = slot
    · simp [same] at isBound
    · rw [Function.update_of_ne same] at isBound
      exact keys.bound i inside k isBound
  free := by
    intro i inside isFree full
    by_cases same : i = slot
    · subst same
      exact absurd full held
    · rw [Function.update_of_ne same] at isFree
      exact keys.free i inside isFree full
  elements := keys.elements

/-- The block of the element that is worked on has been given back. -/
theorem KeysHold.freed (small : EMS_MEM_BLOCKSZ * 2 ^ level < 2 ^ 63)
    (keys : KeysHold array level slot table owner ledger) {block : Block}
    {mem : EmsMem}
    (owns : owner (EMSdataCell slot) = some block)
    (apart : ∀ i : Nat, (i : Int) < array.nElem → EMSmapCell array.nElem i ≠
      EMSdataCell slot)
    (answer : emsMem_free ledger.buf.mem (heapOffset block.address) = .ok mem) :
    KeysHold array level slot table
      (Function.update owner (EMSdataCell slot) none)
      (ledger.freed block.address mem) := by
  obtain ⟨ordered, erased⟩ :=
    keys.ordered.freed small (keys.live _ block owns) answer
  have kept : ∀ {other block'},
      Function.update owner (EMSdataCell slot) none other = some block' →
      other ≠ EMSdataCell slot ∧ owner other = some block' := by
    intro other block' owns'
    by_cases same : other = EMSdataCell slot
    · simp [same] at owns'
    · rw [Function.update_of_ne same] at owns'
      exact ⟨same, owns'⟩
  refine ⟨ordered, ?_, ?_, ?_, keys.free, ?_⟩
  · intro other block' owns'
    obtain ⟨different, owns'⟩ := kept owns'
    rw [erased]
    apply (List.mem_erase_of_ne ?_).mpr (keys.live other block' owns')
    rintro rfl
    exact different (keys.distinct other _ block' owns' owns)
  · intro first second block' owns' owns''
    exact keys.distinct first second block' (kept owns').2 (kept owns'').2
  · intro i inside k isBound
    rw [Function.update_of_ne (apart i inside)]
    exact keys.bound i inside k isBound
  · intro i inside other idle
    have different : EMSdataCell i ≠ EMSdataCell slot := by simpa using other
    rw [Function.update_of_ne different]
    exact keys.elements i inside other idle

theorem KeysHold.work (keys : KeysHold array level (-1) table owner ledger) :
    KeysHold array level working table owner ledger where
  ordered := keys.ordered
  live := keys.live
  distinct := keys.distinct
  bound := keys.bound
  free := keys.free
  elements := fun i inside _ idle => keys.elements i inside (by omega) idle

theorem KeysHold.finish (keys : KeysHold array level slot table owner ledger)
    (element : (ledger.buf.tag (EMSdataCell slot)).fe ≠ .busy →
      BlocksOf (ledger.buf.tag (EMSdataCell slot)).type
        (ledger.buf.word (EMSdataCell slot))
        (owner (EMSdataCell slot)).toList) :
    KeysHold array level (-1) table owner ledger where
  ordered := keys.ordered
  live := keys.live
  distinct := keys.distinct
  bound := keys.bound
  free := keys.free
  elements := by
    intro i inside _ idle
    by_cases same : i = slot
    · subst same
      exact element idle
    · exact keys.elements i inside (by omega) idle

end Owners

/-! ## Writing -/

section Writing

variable {array : EmsArray} {level patience : Nat} {table : Table MapKey}
  {owner : Cell → Option Block} {ledger between after : Ledger}
    {key value : EMSvalueType}
  {k : MapKey}

theorem map_ne_data {i j : Nat} (below : (j : Int) < array.nElem) :
    EMSmapCell array.nElem i ≠ EMSdataCell j :=
  (data_ne_map (Int.natCast_nonneg i) j below).symm

/-- A slot that was full has stayed as it was, or a free one has been bound and
is held. -/
def BoundSlot (array : EmsArray) (table table' : Table MapKey) (k : MapKey)
    (slot : Int)
    (between : Ledger) : Prop :=
  table' = table ∧ (0 ≤ slot →
    (between.buf.tag (EMSmapCell array.nElem slot)).fe = .full) ∨
    ∃ s : Nat, slot = s ∧ table' = Function.update table s (some k) ∧
      (between.buf.tag (EMSmapCell array.nElem s)).fe = .busy

/-- The tag with which a slot is claimed keeps what is held of the others. -/
theorem KeysHold.claimed (keys : KeysHold array level (-1) table owner ledger)
    {claimed : Int}
    (free : (ledger.buf.tag (EMSmapCell array.nElem claimed)).type = .undefined)
    (type : EMSType) :
    (∀ i : Nat, (i : Int) < array.nElem → EMSmapCell array.nElem i =
      EMSmapCell array.nElem claimed →
      table i = none) ∧
      KeysHold array level (-1) table owner
        (ledger.setTag (EMSmapCell array.nElem claimed)
        { ledger.buf.tag (EMSmapCell array.nElem claimed)
          with fe := .busy, type := type }) := by
  have unbound : ∀ i : Nat, (i : Int) < array.nElem →
      EMSmapCell array.nElem i = EMSmapCell array.nElem claimed →
          table i = none := by
    intro i below same
    by_contra isBound
    obtain ⟨k, isBound⟩ := Option.ne_none_iff_exists'.mp isBound
    have typed := (keys.bound i below k isBound).1
    rw [same, free] at typed
    exact k.value_type_ne typed.symm
  refine ⟨unbound, keys.setTag ?_ ?_ ?_⟩
  · exact fun i below same isBound => absurd (unbound i below same) isBound
  · exact fun _ _ _ _ wrong => nomatch wrong
  · exact fun _ _ _ _ wrong => absurd rfl wrong

/-- A search keeps the keys, and may bind the one it is for. -/
theorem KeysHold.searched (positive : 0 < array.nElem)
    (keys : KeysHold array level (-1) table owner ledger) {slot : Int}
    (searched : Searched array level k ledger slot between) :
    slot < array.nElem ∧ ∃ table' owner',
      KeysHold array level (-1) table' owner' between ∧
      BoundSlot array table table' k slot between := by
  rcases searched with ⟨rfl, rfl⟩ | ⟨remainder, full, rfl⟩ |
    ⟨claimed, remainder, -, free, inserted, placed, isSlot⟩
  · exact
      ⟨by
        omega, table, owner, keys,
        .inl ⟨rfl, fun wrong => absurd wrong (by decide)⟩⟩
  · refine ⟨?_, table, owner, keys, .inl ⟨rfl, fun _ => full⟩⟩
    rw [← remainder]
    exact Int.tmod_lt_of_pos slot positive
  · have inside : claimed < array.nElem := by
      rw [← remainder]
      exact Int.tmod_lt_of_pos claimed positive
    obtain ⟨unbound, held⟩ := keys.claimed free k.value.type
    rcases placed with ⟨rfl, rfl⟩ | ⟨rfl, blocks, places⟩
    · obtain rfl : slot = -1 := isSlot
      exact
        ⟨by
          omega, table, owner, held,
          .inl ⟨rfl, fun wrong => absurd wrong (by decide)⟩⟩
    · obtain rfl : slot = claimed := isSlot
      have busy : ((ledger.setTag (EMSmapCell array.nElem slot)
          { ledger.buf.tag (EMSmapCell array.nElem slot) with
            fe := .busy, type := k.value.type }).buf.tag
                (EMSmapCell array.nElem slot)).fe = .busy := by
        simp
      have keys' := held.placed places
        (fun i below isBound same => isBound (unbound i below same))
        (fun i below _ idle same => idle (same ▸ busy))
      refine ⟨inside, ?_⟩
      by_cases negative : slot < 0
      · exact ⟨table, _, keys',
          .inl ⟨rfl, fun wrong => absurd negative (by omega)⟩⟩
      · obtain ⟨s, rfl⟩ := Int.eq_ofNat_of_zero_le (Int.not_lt.mp negative)
        have type : (between.buf.tag (EMSmapCell array.nElem s)).type =
            k.value.type := by
          rw [places.tag]
          simp
        have word : WordHolds (between.buf.word (EMSmapCell array.nElem s))
            between.buf.heap k.value
            (Function.update owner (EMSmapCell array.nElem s) blocks.head?
              (EMSmapCell array.nElem s)).toList := by
          rw [Function.update_self, places.holds.toList_head]
          exact places.holds
        refine ⟨_, _, keys'.bind type word, .inr ⟨s, rfl, rfl, ?_⟩⟩
        rw [places.tag]
        exact busy

theorem KeysHold.givesBack {slot : Nat} {type : EMSType} {placed : Ledger}
    (small : EMS_MEM_BLOCKSZ * 2 ^ level < 2 ^ 63)
    (below : (slot : Int) < array.nElem)
    (keys : KeysHold array level slot table owner ledger)
    (owns : BlocksOf type (ledger.buf.word (EMSdataCell slot))
      (owner (EMSdataCell slot)).toList)
    (gives : GivesBack slot type ledger placed) :
    ∃ owner', KeysHold array level slot table owner' placed := by
  rw [GivesBack] at gives
  split at gives
  · next text =>
      obtain ⟨mem, answer, rfl⟩ := gives
      rw [BlocksOf, if_pos text] at owns
      obtain ⟨block, own, address⟩ := owns
      rw [address] at answer ⊢
      have isOwner : owner (EMSdataCell slot) = some block := by
        rw [← Option.mem_toList, own, List.mem_singleton]
      exact ⟨_, keys.freed small isOwner (fun i _ => map_ne_data below) answer⟩
  · rw [gives]
    exact ⟨owner, keys⟩

/-- The slot of an element that has been written is full. -/
theorem KeysHold.released {slot : Nat} {working : Int}
    (mapped : array.isMapped = true)
    (below : (slot : Int) < array.nElem)
    (keys : KeysHold array level working table owner ledger)
    (full : table slot = none →
      (ledger.buf.tag (EMSmapCell array.nElem slot)).fe = .full) :
    KeysHold array level working table owner (ledger.released array slot) := by
  rw [Ledger.released, if_pos mapped]
  apply keys.setTag
  · exact fun _ _ _ _ => rfl
  · intro i inside same isFree _
    obtain rfl : i = slot := by simpa using same
    exact keys.free i inside isFree (full isFree)
  · exact fun i inside same => absurd same.symm (map_ne_data inside)

/-- An element that a write holds is worked on, and nothing else has changed. -/
theorem KeysHold.acquired {slot : Nat} {initialFE finalFE : Option FE}
    {held : Ledger}
    (below : (slot : Int) < array.nElem)
    (keys : KeysHold array level (-1) table owner ledger)
    (acquired : AcquiredForWrite slot initialFE finalFE ledger held) :
    KeysHold array level slot table owner held ∧
      held.buf.word = ledger.buf.word ∧
      (∀ i : Nat, held.buf.tag (EMSmapCell array.nElem i) =
        ledger.buf.tag (EMSmapCell array.nElem i)) ∧
      (finalFE ≠ none → (held.buf.tag (EMSdataCell slot)).fe = .busy) := by
  rw [AcquiredForWrite] at acquired
  split at acquired
  · next ignores =>
      rw [acquired]
      exact ⟨keys.work, rfl, fun _ => rfl, fun waits => absurd ignores waits⟩
  · obtain ⟨-, -, rfl⟩ := acquired
    refine ⟨keys.work.setTag ?_ ?_ ?_, rfl, fun i => ?_, fun _ => by simp⟩
    · exact fun i _ same => absurd same (map_ne_data below)
    · exact fun i _ same => absurd same (map_ne_data below)
    · intro i _ same other
      have equal : (i : Int) = slot := by simpa using same
      exact absurd equal other
    · simp [map_ne_data below]

/-- A call that fails after its search keeps the keys that were there. -/
theorem KeysHold.failed {slot : Int} {table' : Table MapKey}
    (keys : KeysHold array level (-1) table' owner after)
    (bound : BoundSlot array table table' k slot between)
    (same : ∀ i : Nat, after.buf.tag (EMSmapCell array.nElem i) =
      between.buf.tag (EMSmapCell array.nElem i)) :
    KeysHold array level (-1) table owner after ∨
      ∃ s, KeysHold array level (-1) (Function.update table s none)
        owner after := by
  rcases bound with ⟨rfl, -⟩ | ⟨s, -, rfl, busy⟩
  · exact .inl keys
  · have held : (after.buf.tag (EMSmapCell array.nElem s)).fe ≠ .full := by
      rw [same, busy]
      decide
    have forgotten := keys.forget held
    rw [Function.update_idem] at forgotten
    exact .inr ⟨s, forgotten⟩

/-- A write keeps the keys, and inserts its own if it succeeds.  A write that
does not wait for the element may not be refused memory, and may not find the
element busy. -/
theorem KeysHold.write [CRuntime] (small : EMS_MEM_BLOCKSZ * 2 ^ level < 2 ^ 63)
    (mapped : array.isMapped = true) (positive : 0 < array.nElem)
    (keys : KeysHold array level (-1) table owner ledger)
    (same : SameContent key k.value)
    (sized : key.Sized) (placeable : value.Placeable (value.length + 1))
    {mode : WriteMode}
    {result : Except EMSError Unit}
    (granted : mode = .write → result ≠ .error .outOfMemory)
    (idle : mode = .write → ∀ slot, (slotSearch array key ledger.buf).At slot →
      (ledger.buf.tag (EMSdataCell slot)).fe ≠ .busy)
    (returned : heapSolo.Returns
      (mode.code array key value patience) ledger result after) :
    ∃ table' owner', KeysHold array level (-1) table' owner' after ∧
      ∀ i k', table' i = some k' → table i = some k' ∨ k' = k ∧
        result.isOk = true := by
  rw [mode.code_eq] at returned
  obtain ⟨slot, between, searched, written⟩ :=
    EMSwriteUsingTags_searched positive mode.waits mode.idle returned
  obtain ⟨below, table', owner', keys', bound⟩ := keys.searched positive
    (EMSwriteIndexMap_searched mapped positive same sized keys.ordered searched)
  have taken := EMSwriteIndexMap_returns positive searched
  -- whatever fails leaves the slot that was claimed busy
  have failing : ∀ {owner after}, KeysHold array level (-1) table' owner after →
      (∀ i : Nat, after.buf.tag (EMSmapCell array.nElem i) =
        between.buf.tag (EMSmapCell array.nElem i)) →
      ∃ table' owner', KeysHold array level (-1) table' owner' after ∧
        ∀ i k', table' i = some k' → table i = some k' ∨ k' = k ∧
            result.isOk = true := by
    intro owner after keys same
    rcases keys.failed bound same with kept | ⟨s, kept⟩
    · exact ⟨table, owner, kept, fun _ _ isBound => .inl isBound⟩
    · refine ⟨_, owner, kept, fun i k' isBound => .inl ?_⟩
      by_cases here : i = s
      · simp [here] at isBound
      · rwa [Function.update_of_ne here] at isBound
  rcases lt_or_ge slot 0 with negative | inside
  · rw [if_pos negative] at written
    obtain ⟨-, rfl⟩ := written
    exact failing keys' fun _ => rfl
  · rw [if_neg (by omega)] at written
    obtain ⟨held, placed, stored, outcome, acquired, gives, storing, ended⟩ :=
      written
    have ends := taken.ends inside
    obtain ⟨s, rfl⟩ := Int.eq_ofNat_of_zero_le inside
    have found : (between.buf.tag (EMSdataCell s)).fe ≠ .busy := by
      rw [AcquiredForWrite] at acquired
      split at acquired
      · next ignores =>
          rw [(taken.others ?_).1]
          · exact idle (WriteMode.finalFE_eq_none.mp ignores) s ends
          · intro other takes
            rw [SlotSearch.At.unique (.inr takes) ends]
            exact (map_ne_data below).symm
      · exact acquired.1
    obtain ⟨heldKeys, heldWord, heldMap, heldBusy⟩ :=
      keys'.acquired below acquired
    have owns := keys'.elements s below (by omega) found
    rw [← heldWord] at owns
    obtain ⟨owner'', placedKeys⟩ := heldKeys.givesBack small below owns gives
    rcases storeValue_placed placedKeys.ordered placeable storing with
      ⟨rfl, rfl⟩ | ⟨rfl, blocks, places⟩
    · obtain ⟨rfl, rfl⟩ := ended
      have waits : mode.finalFE ≠ none :=
        fun ignores => granted (WriteMode.finalFE_eq_none.mp ignores) rfl
      have busy : (after.buf.tag (EMSdataCell s)).fe = .busy := by
        rw [gives.tag]
        exact heldBusy waits
      apply failing (placedKeys.finish fun wrong => absurd busy wrong)
      intro i
      rw [gives.tag, heldMap]
    · obtain ⟨rfl, rfl⟩ := ended
      have storedKeys :=
        placedKeys.placed places (fun i _ _ => map_ne_data below)
        (fun i _ other _ => by simpa using other)
      have mapTag : (stored.buf.tag (EMSmapCell array.nElem s)).fe =
          (between.buf.tag (EMSmapCell array.nElem s)).fe := by
        rw [places.tag, gives.tag, heldMap]
      have tagged : KeysHold array level s table'
          (Function.update owner'' (EMSdataCell s)
          blocks.head?) (stored.setTag (EMSdataCell s)
            (writtenTag mode.finalFE value.type
                (held.buf.tag (EMSdataCell s)))) := by
        apply storedKeys.setTag
        · exact fun i _ same => absurd same (map_ne_data below)
        · exact fun i _ same => absurd same (map_ne_data below)
        · intro i _ same other
          exact absurd (by simpa using same) other
      have type : (writtenTag mode.finalFE value.type
          (held.buf.tag (EMSdataCell s))).type =
          value.type := by
        cases mode.finalFE <;> rfl
      have full : table' s = none →
          ((stored.setTag (EMSdataCell s) (writtenTag mode.finalFE
          value.type (held.buf.tag (EMSdataCell s)))).buf.tag
            (EMSmapCell array.nElem s)).fe =
            .full := by
        intro isFree
        rw [Ledger.setTag_buf, EmsBuf.setTag_tag,
          Function.update_of_ne (map_ne_data below), mapTag]
        rcases bound with ⟨-, full⟩ | ⟨s', sameSlot, rfl, -⟩
        · exact full inside
        · rw [Int.natCast_inj.mp sameSlot] at isFree
          simp at isFree
      have releasedKeys := tagged.released mapped below full
      refine ⟨table', _, releasedKeys.finish fun _ => ?_, ?_⟩
      · rw [Ledger.released_tag positive, Ledger.released_word,
          Ledger.setTag_buf,
          EmsBuf.setTag_tag, EmsBuf.setTag_word, Function.update_self,
          Function.update_self, type,
          places.holds.toList_head]
        exact places.holds.blocksOf
      · intro i k' isBound
        rcases bound with ⟨rfl, -⟩ | ⟨s', -, rfl, -⟩
        · exact .inl isBound
        · by_cases here : i = s'
          · rw [here, Function.update_self] at isBound
            exact .inr ⟨(Option.some.inj isBound).symm, rfl⟩
          · rw [Function.update_of_ne here] at isBound
            exact .inl isBound

end Writing

end EMS
