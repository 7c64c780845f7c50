import EMS.InsertedKeys

/-!
# Looking up a key that is absent

A lookup ends at a slot that holds its key, at a free slot, or when it has tried
often enough.  The answer -1 for an absent key is reduced to a slot like any
other, and the remainder is 0 when there is one slot only.
-/

namespace EMS

open SharedProgram Interleaving OpenAddressing

/-! ## Lookups that return -/

section Lookups

variable [CRuntime] {array : EmsArray} {key : EMSvalueType}
  {ledger after : Ledger}
  {patience : Nat} {stack : Tag}

/-- Every slot at which a lookup looks is full, so that it waits for none. -/
def WayFull (array : EmsArray) (key : EMSvalueType) (buf : EmsBuf) :
    Nat → Int → Prop
  | 0, _ => True
  | tries + 1, idx =>
      (buf.tag (EMSmapCell array.nElem (idx.tmod array.nElem))).fe = .full ∧
        (lookupFinds array key buf (idx.tmod array.nElem) = false →
          (buf.tag (EMSmapCell array.nElem (idx.tmod array.nElem))).type ≠
            .undefined →
          WayFull array key buf tries (idx.tmod array.nElem + 1))

private theorem lookupProbe_returns_iff {tries : Nat} {idx result : Int} :
    heapSolo.Returns (lookupProbe (patience + 1) array key tries idx) ledger
      result after ↔
      WayFull array key ledger.buf tries idx ∧
        result = (lookupSearch array key ledger.buf tries idx).getD (-1) ∧
          after = ledger := by
  induction tries generalizing idx with
  | zero => simp [lookupProbe, WayFull, lookupSearch]
  | succ tries induction =>
      rw [lookupProbe, WayFull, lookupSearch]
      by_cases full : (ledger.buf.tag
        (EMSmapCell array.nElem (idx.tmod array.nElem))).fe = .full
      · rw [transition_found full, lookupMatches_returns (by simp),
          and_iff_right full]
        simp only [storeFE_released full, Ledger.setTag_buf, lookupFinds_setTag]
        by_cases finds : lookupFinds array key ledger.buf
          (idx.tmod array.nElem) = true
        · simp [finds]
        · by_cases free : (ledger.buf.tag
              (EMSmapCell array.nElem (idx.tmod array.nElem))).type =
              .undefined
          · simp [finds, free]
          · simp only [finds, Bool.false_eq_true, if_false, free, induction]
            simp [free]
      · refine iff_of_false (fun returned => full ?_) fun both => full both.1.1
        exact (transition_returns returned).1

/-- The lookup of the key waits for no slot. -/
def LookupFull (array : EmsArray) (key : EMSvalueType) (buf : EmsBuf) : Prop :=
  ∀ start, keyStart key = some start →
    WayFull array key buf MAX_OPEN_HASH_STEPS start

theorem EMSkey2index_returns_iff {idx : Int} :
    heapSolo.Returns (EMSkey2index (patience + 1) array key true)
      ledger idx after ↔
      LookupFull array key ledger.buf ∧
        idx = keyIndex array key ledger.buf true ∧
        after = ledger := by
  rw [EMSkey2index, LookupFull, keyIndex]
  cases started : keyStart key with
  | none => simp
  | some start =>
      simp only [if_true, Solo.returns_bind_iff, lookupProbe_returns_iff,
        Option.some.injEq,
        forall_eq']
      constructor
      · rintro ⟨_, _, ⟨full, rfl, rfl⟩, ended⟩
        exact ⟨full, Solo.returns_ret_iff.mp ended⟩
      · rintro ⟨full, rfl, rfl⟩
        exact ⟨_, _, ⟨full, rfl, rfl⟩, .ret⟩

/-- The key is answered for as absent, and nothing is changed. -/
structure AnswersAbsent (array : EmsArray) (stack : Tag) (key : EMSvalueType)
    (ledger : Ledger) :
    Prop where
  key2index : ∀ patience, ∃ idx, idx < 0 ∧
    heapSolo.Returns (EMSkey2index (patience + 1) array key array.isMapped)
      ledger idx ledger
  read : ∀ patience, ∃ value, value.type = .undefined ∧
    heapSolo.Returns (EMSread (patience + 1) array stack key) ledger
      (.ok value) ledger
  releaseRW : ∀ patience, ∃ count, count < 0 ∧
    heapSolo.Returns (EMSreleaseRW (patience + 1) array key) ledger count ledger
  setTag : ∀ patience isFull,
    heapSolo.Returns (EMSsetTag (patience + 1) array key isFull) ledger
      false ledger

/-- A negative index is that of an absent key to all the calls. -/
private theorem answersAbsent_iff (mapped : array.isMapped = true) :
    AnswersAbsent array stack key ledger ↔
      LookupFull array key ledger.buf ∧
        keyIndex array key ledger.buf true < 0 := by
  constructor
  · rintro ⟨key2index, -⟩
    obtain ⟨idx, negative, returned⟩ := key2index 0
    rw [mapped, EMSkey2index_returns_iff] at returned
    obtain ⟨full, rfl, -⟩ := returned
    exact ⟨full, negative⟩
  · rintro ⟨full, negative⟩
    have looked : ∀ patience,
        heapSolo.Returns (EMSkey2index (patience + 1) array key array.isMapped)
        ledger (keyIndex array key ledger.buf true) ledger := by
      intro patience
      rw [mapped, EMSkey2index_returns_iff]
      exact ⟨full, rfl, rfl⟩
    refine ⟨fun patience => ⟨_, negative, looked patience⟩,
      fun patience => ⟨scalar .undefined 0xdeafbeef, rfl, ?_⟩,
      fun patience => ⟨-1, by decide, ?_⟩,
      fun patience isFull => ?_⟩
    · rw [EMSread, EMSreadUsingTags, (looked patience).bind_iff,
        if_pos ⟨mapped, negative⟩,
        if_pos rfl]
      exact .ret
    · rw [EMSreleaseRW, (looked patience).bind_iff, if_pos (.inl negative)]
      exact .ret
    · rw [EMSsetTag, (looked patience).bind_iff, if_pos (.inl negative)]
      exact .ret

end Lookups

/-! ## Sequences of insertions -/

/-- A write of the element of a key, in one of the four ways. -/
structure Insertion where
  mode : WriteMode
  key : EMSvalueType
  value : EMSvalueType

/-- The key is a boolean, an integer or a string, and the value is well
formed. -/
structure Insertion.Valid (insertion : Insertion) : Prop where
  key : ∃ k : MapKey, SameContent insertion.key k.value
  sized : insertion.key.Sized
  value : insertion.value.WellFormed

/-- A write that ignores tags is not refused memory for its value, and does not
come upon an element that another call holds. -/
structure Insertion.Orderly [CRuntime] (array : EmsArray)
    (insertion : Insertion)
    (before : Ledger) (result : Except EMSError Unit) : Prop where
  granted : insertion.mode = .write → result ≠ .error .outOfMemory
  idle : insertion.mode = .write → ∀ slot,
    (slotSearch array insertion.key before.buf).At slot →
    (before.buf.tag (EMSdataCell slot)).fe ≠ .busy

/-- An insertion that returns, whether or not it succeeds. -/
inductive Inserts [CRuntime] (array : EmsArray) :
    Ledger → Insertion × Except EMSError Unit → Ledger → Prop where
  | call {insertion : Insertion} {before after : Ledger}
      {result : Except EMSError Unit}
      (patience : Nat) : insertion.Valid →
      insertion.Orderly array before result →
      heapSolo.Returns (insertion.mode.code array insertion.key insertion.value
        patience) before
        result after →
      Inserts array before (insertion, result) after

/-- One of the calls has inserted the key. -/
def IsInserted (calls : List (Insertion × Except EMSError Unit))
    (k : MapKey) : Prop :=
  ∃ call ∈ calls, SameContent call.1.key k.value ∧ call.2.isOk = true

/-- Nothing but inserted keys is in the table. -/
structure InsertedKeys (array : EmsArray) (level : Nat)
    (calls : List (Insertion × Except EMSError Unit))
    (ledger : Ledger) : Prop where
  keys : ∃ table owner, KeysHold array level (-1) table owner ledger ∧
    ∀ i k, table i = some k → IsInserted calls k

section Sequences

variable {array : EmsArray} {level : Nat} {start final before after : Ledger}
  {calls : List (Insertion × Except EMSError Unit)}

theorem Ledger.Ordered.blocks_apart {blocks : Nat → List Block}
    (ordered : start.Ordered level)
    (live : (start.live : Multiset Block) =
      0 + ∑ i ∈ Finset.range array.nElem.toNat, (blocks i : Multiset Block))
    {i j : Nat} (inside : (i : Int) < array.nElem)
    (inside' : (j : Int) < array.nElem)
    {block : Block} (first : block ∈ blocks i)
    (second : block ∈ blocks j) : i = j := by
  obtain ⟨-, tree, shape⟩ := ordered
  have distinct : start.live.Nodup := by
    apply shape.apart.imp
    rintro block _ apart rfl
    have positive := block.length_pos
    rw [Block.Apart] at apart
    omega
  rw [zero_add, blocks_split inside] at live
  by_contra different
  have nodup : ((blocks i : Multiset Block) +
      ∑ i ∈ (Finset.range array.nElem.toNat).erase i,
      (blocks i : Multiset Block)).Nodup := by
    rw [← live]
    exact Multiset.coe_nodup.mpr distinct
  have apart := (Multiset.nodup_add.mp nodup).2.2
  apply Multiset.disjoint_left.mp apart first
  refine Multiset.mem_sum.mpr ⟨j, ?_, second⟩
  rw [Finset.mem_erase, Finset.mem_range]
  exact ⟨fun same => different same.symm, by omega⟩

/-- The first block of an element, by its cell. -/
def firstBlock (array : EmsArray) (blocks : Nat → List Block) (cell : Cell) :
    Option Block :=
  if 0 ≤ cell - EMS_ARR_CB_SIZE ∧ cell - EMS_ARR_CB_SIZE < array.nElem then
    (blocks (cell - EMS_ARR_CB_SIZE).toNat).head?
  else none

private theorem firstBlock_data {blocks : Nat → List Block} {i : Nat}
    (inside : (i : Int) < array.nElem) :
    firstBlock array blocks (EMSdataCell i) = (blocks i).head? := by
  have index : EMSdataCell i - EMS_ARR_CB_SIZE = i := Int.add_sub_cancel _ _
  rw [firstBlock, index, if_pos ⟨Int.natCast_nonneg i, inside⟩,
    Int.toNat_natCast]

theorem firstBlock_some {blocks : Nat → List Block} {cell : Cell}
    {block : Block}
    (owns : firstBlock array blocks cell = some block) :
    ∃ i : Nat, (i : Int) < array.nElem ∧ cell = EMSdataCell i ∧
      block ∈ blocks i := by
  rw [firstBlock, Option.ite_none_right_eq_some] at owns
  obtain ⟨⟨low, high⟩, first⟩ := owns
  refine ⟨(cell - EMS_ARR_CB_SIZE).toNat, ?_, ?_, List.mem_of_mem_head? first⟩
  · rwa [Int.toNat_of_nonneg low]
  · rw [Int.toNat_of_nonneg low]
    exact (Int.sub_add_cancel _ _).symm

/-- Before the first insertion no slot is bound. -/
theorem InitialMap.keys (initially : InitialMap array level start) :
    InsertedKeys array level [] start := by
  obtain ⟨slots, store, ⟨ordered, -, blocks, elements, live⟩, -⟩ := initially
  refine ⟨fun _ => none, firstBlock array blocks,
    ⟨ordered, ?_, ?_, nofun, ?_, ?_⟩, nofun⟩
  · intro cell block owns
    obtain ⟨i, inside, -, member⟩ := firstBlock_some owns
    exact mem_blocks (Finset.mem_range.mpr (by omega)) member live
  · intro cell cell' block owns owns'
    obtain ⟨i, inside, rfl, first⟩ := firstBlock_some owns
    obtain ⟨j, inside', rfl, second⟩ := firstBlock_some owns'
    rw [ordered.blocks_apart live inside inside' first second]
  · exact fun i inside _ _ => (slots i inside).2
  · intro i inside _ _
    obtain ⟨type, word⟩ := elements i inside
    rw [firstBlock_data inside, word.toList_head, type]
    exact word.blocksOf

theorem IsInserted.snoc {call : Insertion × Except EMSError Unit} {k : MapKey} :
    IsInserted (calls ++ [call]) k ↔
      IsInserted calls k ∨ SameContent call.1.key k.value ∧
        call.2.isOk = true := by
  simp only [IsInserted, List.mem_append, List.mem_singleton,
    or_and_right, exists_or,
    exists_eq_left]

variable [CRuntime]

/-- An insertion that returns keeps what is known of the keys. -/
theorem InsertedKeys.step (small : EMS_MEM_BLOCKSZ * 2 ^ level < 2 ^ 63)
    (mapped : array.isMapped = true) (positive : 0 < array.nElem)
    (inserted : InsertedKeys array level calls before)
    {call : Insertion × Except EMSError Unit}
    (inserts : Inserts array before call after) :
    InsertedKeys array level (calls ++ [call]) after := by
  obtain ⟨table, owner, keys, known⟩ := inserted
  cases inserts with
  | call patience valid orderly returned =>
      obtain ⟨k, same⟩ := valid.key
      obtain ⟨table', owner', keys', grows⟩ :=
        keys.write small mapped positive same valid.sized
        valid.value.toSized.placeable orderly.granted orderly.idle returned
      refine ⟨table', owner', keys', fun i k' isBound => ?_⟩
      rw [IsInserted.snoc]
      rcases grows i k' isBound with old | ⟨rfl, succeeded⟩
      · exact .inl (known i k' old)
      · exact .inr ⟨same, succeeded⟩

theorem InsertedKeys.run (small : EMS_MEM_BLOCKSZ * 2 ^ level < 2 ^ 63)
    (mapped : array.isMapped = true) (positive : 0 < array.nElem)
    (initially : InitialMap array level start)
    (run : Run (Inserts array) start calls final) :
    InsertedKeys array level calls final := by
  induction run with
  | nil => exact initially.keys
  | snoc _ inserts induction =>
      exact induction.step small mapped positive inserts

end Sequences

/-! ## Absent keys -/

section Absent

variable [CRuntime] {array : EmsArray} {level : Nat} {table : Table MapKey}
  {owner : Cell → Option Block} {start final ledger : Ledger}
    {key : EMSvalueType} {k : MapKey}
  {stack : Tag} {calls : List (Insertion × Except EMSError Unit)}

/-- A lookup finds a key only where it is bound. -/
theorem KeysHold.finds (keys : KeysHold array level (-1) table owner ledger)
    (same : SameContent key k.value) {i : Nat}
    (inside : (i : Int) < array.nElem)
    (full : (ledger.buf.tag (EMSmapCell array.nElem i)).fe = .full)
    (finds : lookupFinds array key ledger.buf i = true) : table i = some k := by
  rw [lookupFinds, ite_eq_iff] at finds
  obtain ⟨type, equal⟩ | ⟨-, wrong⟩ := finds
  · cases isBound : table i with
    | none =>
        rw [keys.free i inside isBound full, same.1] at type
        exact absurd type.symm k.value_type_ne
    | some k' =>
        obtain ⟨type', word⟩ := keys.bound i inside k' isBound
        have keyType : key.type = k'.value.type := type.symm.trans type'
        have content : SameContent key k'.value := by
          refine ⟨keyType, fun isText => ?_, fun isWord => ?_⟩
          · cases k' with
            | string text =>
                rw [keyType] at equal
                obtain ⟨block, -, address, -, holds⟩ :=
                  (wordHolds_text (.inl rfl)).mp word
                rw [← address] at holds
                exact (heapEquals_iff.mp equal).unique holds
            | boolean | integer =>
                rw [keyType] at isText
                simp [EMSType.IsText, MapKey.value, scalar] at isText
          · rw [keyType] at isWord
            obtain ⟨stored, -⟩ := (wordHolds_word isWord).mp word
            rw [← stored]
            cases k' with
            | boolean | integer =>
                rw [keyType] at equal
                exact of_decide_eq_true equal
            | string => simp [EMSType.IsWord, MapKey.value] at isWord
        rw [content.key_eq same]
  · exact absurd wrong (by decide)

/-- The last slot that a lookup looks at is the one that it finds. -/
theorem WayFull.found {tries : Nat} {idx slot : Int} {buf : EmsBuf}
    (full : WayFull array key buf tries idx)
    (search : lookupSearch array key buf tries idx = some slot) :
    (buf.tag (EMSmapCell array.nElem slot)).fe = .full ∧
      lookupFinds array key buf slot = true := by
  induction tries generalizing idx with
  | zero => cases search
  | succ tries induction =>
      obtain ⟨first, later⟩ := full
      rw [lookupSearch] at search
      split at search
      · next finds =>
          obtain rfl := Option.some.inj search
          exact ⟨first, finds⟩
      · next other =>
          split at search
          · cases search
          · next bound =>
              exact induction (later (Bool.eq_false_iff.mpr other) bound) search

/-- Whatever keys have been inserted, one that has not is answered for as absent
if and only if there is more than one slot and its lookup waits for none. -/
theorem absent_key_iff (small : EMS_MEM_BLOCKSZ * 2 ^ level < 2 ^ 63)
    (mapped : array.isMapped = true) (nonempty : 1 ≤ array.nElem)
    (initially : InitialMap array level start)
    (run : Run (Inserts array) start calls final)
    (same : SameContent key k.value) (absent : ¬ IsInserted calls k) :
    AnswersAbsent array stack key final ↔
      1 < array.nElem ∧ LookupFull array key final.buf := by
  have positive : 0 < array.nElem := by omega
  obtain ⟨table, owner, keys, known⟩ :=
    InsertedKeys.run small mapped positive initially run
  rw [answersAbsent_iff mapped, and_comm]
  apply and_congr_left
  intro full
  have starts : ∃ first, keyStart key = some first := by
    rw [keyStart, same.1]
    cases k <;> exact ⟨_, rfl⟩
  obtain ⟨first, started⟩ := starts
  simp only [keyIndex, started, if_true]
  cases search : lookupSearch array key final.buf MAX_OPEN_HASH_STEPS first with
  | none =>
      rw [Option.getD_none]
      constructor
      · intro negative
        by_contra few
        obtain one : array.nElem = 1 := by omega
        rw [one] at negative
        exact absurd negative (by decide)
      · intro large
        rw [neg_one_tmod large]
        decide
  | some slot =>
      rw [Option.getD_some]
      obtain ⟨slotFull, finds⟩ := (full first started).found search
      have remainder := lookupSearch_tmod search
      have negative : slot < 0 := by
        by_contra inside
        obtain ⟨i, rfl⟩ := Int.eq_ofNat_of_zero_le (Int.not_lt.mp inside)
        have below := Int.tmod_lt_of_pos (i : Int) positive
        rw [remainder] at below
        exact absent (known i k (keys.finds same below slotFull finds))
      rw [remainder]
      refine iff_of_true negative ?_
      by_contra few
      have one : array.nElem = 1 := by omega
      rw [one, Int.tmod_one] at remainder
      omega

end Absent

/-! ## The keys 5 and 6 -/

section FiveAndSix

local instance mapRuntime : CRuntime := ieeeRuntime

def insertsFive : Insertion := ⟨.writeXF, scalar .integer 5, scalar .integer 7⟩

theorem insertsFive_valid : insertsFive.Valid where
  key :=
    ⟨.integer 5, rfl, fun isText => absurd isText (by decide), fun _ => rfl⟩
  sized := ⟨by decide, fun isText => absurd isText (by decide)⟩
  value :=
    ⟨⟨by decide, fun isText => absurd isText (by decide)⟩,
      fun boolean => nomatch boolean⟩

theorem insertsFive_orderly {array : EmsArray} {before : Ledger}
    {result : Except EMSError Unit} :
    insertsFive.Orderly array before result where
  granted := fun wrong => nomatch wrong
  idle := fun wrong => nomatch wrong

theorem six_absent {result : Except EMSError Unit} :
    ¬ IsInserted ([] ++ [(insertsFive, result)]) (.integer 6) := by
  rw [IsInserted.snoc]
  rintro (⟨_, wrong, -⟩ | ⟨same, -⟩)
  · cases wrong
  · have five : (5 : Int) = 6 := same.2.2 (.inr (.inl rfl))
    exact absurd five (by decide)

theorem freshLedger_map {n : Int} : InitialMap ⟨n, true⟩ 0 freshLedger := by
  refine ⟨fun _ _ => ⟨rfl, rfl⟩, storeAfter [],
    InitialStore.holds ⟨?_, rfl, rfl, rfl, rfl⟩, ?_⟩
  · exact fun _ _ _ => rfl
  · exact ⟨fun _ boolean => nomatch boolean⟩

/-- With two slots the key 6 is absent when the key 5 has been inserted. -/
theorem absent_key_two : ∃ final,
    AnswersAbsent ⟨2, true⟩ ⟨.full, .undefined, 0⟩
      (scalar .integer 6) final := by
  obtain ⟨pair, last, returned, checked⟩ := heapSolo.exists_returns (do
      let written ← insertsFive.mode.code ⟨2, true⟩ insertsFive.key
        insertsFive.value 1
      let idx ← EMSkey2index 1 ⟨2, true⟩ (scalar .integer 6) true
      return (written, idx)) freshLedger (fun played => played.1.1.isOk)
        (by decide +kernel)
  obtain ⟨written, final, inserting, continued⟩ :=
    Solo.returns_bind_iff.mp returned
  obtain ⟨idx, after, looking, -⟩ := Solo.returns_bind_iff.mp continued
  have run : Run (Inserts ⟨2, true⟩) freshLedger
      ([] ++ [(insertsFive, written)]) final :=
    Run.nil.snoc (.call 1 insertsFive_valid insertsFive_orderly inserting)
  have full := (EMSkey2index_returns_iff.mp looking).1
  have same : SameContent (scalar .integer 6) (MapKey.integer 6).value :=
    ⟨rfl, fun isText => absurd isText (by decide), fun _ => rfl⟩
  exact ⟨final, (absent_key_iff (by decide) rfl (by decide)
    freshLedger_map run same
    six_absent).mpr ⟨by decide, full⟩⟩

/-- With one slot a read of the key 6 returns what has been written with the key
5. -/
theorem not_absent_key :
    ¬ ∀ (array : EmsArray) (level : Nat) (start final : Ledger)
    (calls : List (Insertion × Except EMSError Unit)) (key : EMSvalueType)
    (k : MapKey)
    (stack : Tag), EMS_MEM_BLOCKSZ * 2 ^ level < 2 ^ 63 →
      array.isMapped = true →
    1 ≤ array.nElem → InitialMap array level start →
      Run (Inserts array) start calls final →
    SameContent key k.value → ¬ IsInserted calls k →
      AnswersAbsent array stack key final := by
  intro always
  obtain ⟨pair, last, returned, checked⟩ := heapSolo.exists_returns (do
      let written ← insertsFive.mode.code ⟨1, true⟩ insertsFive.key
        insertsFive.value 1
      let read ← EMSread 1 ⟨1, true⟩ ⟨.full, .undefined, 0⟩ (scalar .integer 6)
      return (written, read)) freshLedger
    (fun played => played.1.2.toOption.any fun value => value.type = .integer)
      (by decide +kernel)
  obtain ⟨written, final, inserting, continued⟩ :=
    Solo.returns_bind_iff.mp returned
  obtain ⟨read, after, reading, ended⟩ := Solo.returns_bind_iff.mp continued
  obtain ⟨rfl, rfl⟩ := Solo.returns_ret_iff.mp ended
  have run : Run (Inserts ⟨1, true⟩) freshLedger
      ([] ++ [(insertsFive, written)]) final :=
    Run.nil.snoc (.call 1 insertsFive_valid insertsFive_orderly inserting)
  have same : SameContent (scalar .integer 6) (MapKey.integer 6).value :=
    ⟨rfl, fun isText => absurd isText (by decide), fun _ => rfl⟩
  have answers :=
    always ⟨1, true⟩ 0 freshLedger final _ (scalar .integer 6) (.integer 6)
    ⟨.full, .undefined, 0⟩ (by decide) rfl (by decide) freshLedger_map run
      same six_absent
  obtain ⟨value, undefined, reading'⟩ := answers.read 0
  obtain ⟨rfl, -⟩ := reading'.unique reading
  have integer : value.type = .integer := by
    simpa [Except.toOption] using checked
  exact nomatch undefined.symm.trans integer

end FiveAndSix

end EMS
