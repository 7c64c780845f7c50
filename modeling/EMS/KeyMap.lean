import EMS.MapKeys

/-!
# The key map is a finite map

One process writes the elements of a mapped array by their keys.  The slots of
the map are a table with open addressing: each key that has been written keeps
its slot, and the element of the slot holds what was written last.
-/

namespace EMS

open SharedProgram Interleaving OpenAddressing

/-! ## The map in memory -/

/-- The slots are bound as in the table. -/
def SlotsHold (array : EmsArray) (table : Table MapKey)
    (blocks : Nat → List Block)
    (buf : EmsBuf) : Prop :=
  ∀ i : Nat, (i : Int) < array.nElem →
    (buf.tag (EMSmapCell array.nElem i)).type = (slotValue (table i)).type ∧
      WordHolds (buf.word (EMSmapCell array.nElem i)) buf.heap
        (slotValue (table i)) (blocks i)

/-- The search for a key in the map. -/
abbrev mapSearch (array : EmsArray) (table : Table MapKey)
    (k : MapKey) : Search :=
  search array.nElem.toNat table k MAX_OPEN_HASH_STEPS k.startSlot

/-- The map and the elements hold what they should, and the live blocks are
exactly theirs.  Nothing is said about who waits for what. -/
structure MapHeld (array : EmsArray) (level : Nat) (table : Table MapKey)
    (store : Store)
    (ledger : Ledger) : Prop where
  sound : Sound array.nElem.toNat MAX_OPEN_HASH_STEPS MapKey.startSlot table
  holds : ∃ blocks : Nat → List Block, SlotsHold array table blocks ledger.buf ∧
    StoreHolds array level
      (∑ i ∈ Finset.range array.nElem.toNat, (blocks i : Multiset Block))
      store ledger

/-- Between calls no slot is busy, and the elements of keys are full. -/
structure MapHolds (array : EmsArray) (level : Nat) (table : Table MapKey)
    (store : Store)
    (ledger : Ledger) :
    Prop extends MapHeld array level table store ledger where
  slots : ∀ i : Nat, (i : Int) < array.nElem →
    (ledger.buf.tag (EMSmapCell array.nElem i)).fe = .full
  elements : ∀ i : Nat, (i : Int) < array.nElem → table i ≠ none →
    (ledger.buf.tag (EMSdataCell i)).fe = .full

theorem released_slot {buf : EmsBuf} {cell : Cell}
    (full : (buf.tag cell).fe = .full) :
    (buf.setTag cell { buf.tag cell with fe := .busy }).setTag cell
      { (buf.setTag cell { buf.tag cell with fe := .busy }).tag cell with fe :=
        .full } = buf := by
  have same : (⟨.full, (buf.tag cell).type, (buf.tag cell).rw⟩ : Tag) =
      buf.tag cell := by
    rw [← full]
  simp [EmsBuf.setTag, same]

section Probing

variable {array : EmsArray} {table : Table MapKey} {blocks : Nat → List Block}
  {buf : EmsBuf}
  {key : EMSvalueType} {k : MapKey} {patience : Nat} {spins : Prop}

theorem tmod_slot (positive : 0 < array.nElem) (pos : Nat) :
    (pos : Int).tmod array.nElem = ((pos % array.nElem.toNat : Nat) : Int) := by
  rw [Int.natCast_mod, Int.toNat_of_nonneg positive.le,
    Int.tmod_eq_emod_of_nonneg]
  exact Int.natCast_nonneg pos

theorem slot_lt (positive : 0 < array.nElem) (pos : Nat) :
    ((pos % array.nElem.toNat : Nat) : Int) < array.nElem := by
  have below : pos % array.nElem.toNat < array.nElem.toNat :=
    Nat.mod_lt _ (by omega)
  omega

/-- The index that a search stands for. -/
def foundIndex : Search → Int
  | .found slot => slot
  | _ => -1

private theorem foundIndex_pos (positive : 0 < array.nElem)
    (above : 0 < (foundIndex (mapSearch array table k)).tmod array.nElem) :
    ∃ slot, mapSearch array table k = .found slot ∧
      (foundIndex (mapSearch array table k)).tmod array.nElem = slot := by
  have absent : ¬ 0 < (-1 : Int).tmod array.nElem := by
    rw [Int.neg_tmod, not_lt, Left.neg_nonpos_iff]
    exact Int.tmod_nonneg _ (by decide)
  cases result : mapSearch array table k with
  | found slot =>
      have below : slot < array.nElem.toNat :=
        search_lt (by omega) (.inl result)
      refine ⟨slot, rfl, ?_⟩
      rw [foundIndex, tmod_slot positive, Nat.mod_eq_of_lt below]
  | free slot =>
      rw [result] at above
      exact absurd above absent
  | exhausted =>
      rw [result] at above
      exact absurd above absent

variable [CRuntime]

theorem lookupProbe_yields (positive : 0 < array.nElem) (names : key.Names k)
    (held : SlotsHold array table blocks buf)
    (full : ∀ i : Nat, (i : Int) < array.nElem →
      (buf.tag (EMSmapCell array.nElem i)).fe = .full)
    (patient : patience = 0 → spins) {steps pos : Nat} :
    (quietSolo spins).Yields (lookupProbe patience array key steps pos) buf
      (foundIndex (search array.nElem.toNat table k steps pos)) buf := by
  induction steps generalizing pos with
  | zero => exact ⟨rfl, rfl⟩
  | succ steps induction =>
      have below := slot_lt positive pos
      obtain ⟨type, word⟩ := held _ below
      have isFull := full _ below
      have looked : (quietSolo spins).Yields
          (lookupMatches array key
            { buf.tag (EMSmapCell array.nElem (pos % array.nElem.toNat : Nat))
              with fe := .busy }
            (pos % array.nElem.toNat : Nat))
          (buf.setTag (EMSmapCell array.nElem (pos % array.nElem.toNat : Nat))
            { buf.tag (EMSmapCell array.nElem (pos % array.nElem.toNat : Nat))
              with fe := .busy })
          (decide (table (pos % array.nElem.toNat) = some k)) _ :=
        lookupMatches_yields names type word trivial fun _ _ _ _ => trivial
      simp only [lookupProbe, tmod_slot positive]
      apply (EMStransitionFEtag_yields isFull patient trivial fun _ _ =>
        trivial).bind
      apply looked.bind
      apply (storeFE_yields trivial fun _ => trivial).bind
      rw [released_slot isFull]
      cases bound : table (pos % array.nElem.toNat) with
      | none =>
          rw [bound] at type
          simp only [type, search_of_free bound, slotValue, scalar, foundIndex]
          exact ⟨rfl, rfl⟩
      | some other =>
          have notFree : (buf.tag (EMSmapCell array.nElem
              (pos % array.nElem.toNat : Nat))).type ≠ .undefined := by
            rw [type, bound]
            exact other.value_type_ne
          simp only [search_of_bound bound, Option.some.injEq, if_neg notFree]
          by_cases same : other = k
          · simp only [same, decide_true, if_true]
            exact ⟨rfl, rfl⟩
          · simp only [same, decide_false, if_false, Bool.false_eq_true]
            rw [← search_succ_mod]
            exact induction

theorem EMSkey2index_yields (positive : 0 < array.nElem) (names : key.Names k)
    (held : SlotsHold array table blocks buf)
    (full : ∀ i : Nat, (i : Int) < array.nElem →
      (buf.tag (EMSmapCell array.nElem i)).fe = .full)
    (patient : patience = 0 → spins) :
    (quietSolo spins).Yields (EMSkey2index patience array key true) buf
      ((foundIndex (mapSearch array table k)).tmod array.nElem) buf := by
  simp only [EMSkey2index, names.keyStart, if_true]
  apply (lookupProbe_yields positive names held full patient).bind
  exact ⟨rfl, rfl⟩

end Probing

/-! ## Inserting a key -/

section Inserting

variable {array : EmsArray} {level : Nat} {table : Table MapKey} {store : Store}
  {ledger after : Ledger} {key : EMSvalueType} {k : MapKey} {patience : Nat}

/-- The key is placed in the slot, whose type has been stored before. -/
theorem insertKey_places (names : key.Names k)
    (ordered : ledger.Ordered level) {i : Int} :
    ledgerSolo.Ends (PlacedOk level (EMSmapCell array.nElem i) k.value
        { ledger with
          buf := ledger.buf.setTag (EMSmapCell array.nElem i)
            { ledger.buf.tag (EMSmapCell array.nElem i) with type :=
              k.value.type } })
      (insertKey patience array key i) ledger := by
  obtain ⟨⟨keyType, keyText, keyWord⟩, sized, -⟩ := names
  rw [keyType] at keyText keyWord
  unfold insertKey storeType
  simp only [bind_assoc]
  apply loadTag_ends
  apply storeTag_ends
  have ordered' : Ledger.Ordered level
      { ledger with
        buf := ledger.buf.setTag (EMSmapCell array.nElem i)
          { ledger.buf.tag (EMSmapCell array.nElem i) with type :=
              k.value.type } } :=
    ordered.congr rfl rfl rfl
  rw [keyType]
  cases k with
  | boolean value =>
      apply store_places ordered'
      have passed := keyWord (.inl rfl)
      rw [wordHolds_word (.inl rfl), passed]
      cases value <;> simp [MapKey.value, scalar]
  | integer value =>
      apply store_places ordered'
      have passed := keyWord (.inr (.inl rfl))
      exact (wordHolds_word (.inr (.inl rfl))).mpr ⟨passed, rfl⟩
  | string text =>
      have passed := keyText (.inl rfl)
      obtain ⟨room, addressable⟩ := sized.text (keyType ▸ .inl rfl)
      rw [passed] at room ⊢
      apply alloc_places ordered' (.inl rfl)
      constructor
      · constructor <;> omega
      · omega

/-- A value is placed in an entry that is no element. -/
theorem StoreHolds.placed {kept : Multiset Block} {cell : Cell}
    {value : EMSvalueType}
    {blocks : List Block} (holds : StoreHolds array level kept store ledger)
    (control : ∀ i : Nat, (i : Int) < array.nElem → EMSdataCell i ≠ cell)
    (places : Placed level cell value blocks ledger after) :
    StoreHolds array level (kept + blocks) store after := by
  obtain ⟨-, sound, own, elements, live⟩ := holds
  refine ⟨places.ordered, places.misfreed.trans sound, own, ?_, ?_⟩
  · intro i below
    obtain ⟨type, word⟩ := elements i below
    refine ⟨by rw [places.tag]; exact type, ?_⟩
    rw [places.word _ (control i below)]
    apply word.same
    intro block member
    exact places.heap block
      (mem_blocks (Finset.mem_range.mpr (by omega)) member live)
  · rw [places.live, ← Multiset.coe_add, live,
      add_comm (blocks : Multiset Block), add_right_comm]

theorem StoreHolds.kept_live {kept : Multiset Block}
    (holds : StoreHolds array level kept store ledger) {block : Block}
    (member : block ∈ kept) :
    block ∈ ledger.live := by
  obtain ⟨-, -, blocks, -, live⟩ := holds
  have inLive : block ∈ (ledger.live : Multiset Block) := by
    rw [live]
    exact Multiset.mem_add.mpr (.inl member)
  exact inLive

/-- A key is bound to the slot where its search has ended. -/
theorem MapHeld.insert (positive : 0 < array.nElem)
    (held : MapHeld array level table store ledger) {slot : Nat}
    (free : mapSearch array table k = .free slot) {tag : Tag}
    (type : tag.type = k.value.type)
    {placed : List Block}
    (places : Placed level (EMSmapCell array.nElem slot) k.value placed
      { ledger with buf :=
        ledger.buf.setTag (EMSmapCell array.nElem slot) tag } after) :
    MapHeld array level (Function.update table slot (some k)) store after := by
  obtain ⟨sound, blocks, slots, holds⟩ := held
  have isFree := search_free free
  have below : slot < array.nElem.toNat := search_lt (by omega) (.inr free)
  have inside : (slot : Int) < array.nElem := by omega
  -- the slot has had no block
  have noBlock : blocks slot = [] := by
    have word := (slots slot inside).2
    rw [isFree] at word
    exact word
  have typed := holds.setTag (data_ne_map (Int.natCast_nonneg slot)) tag
  refine ⟨sound.insert free, Function.update blocks slot placed, ?_, ?_⟩
  · intro i inRange
    by_cases same : i = slot
    · subst same
      simp only [Function.update_self, slotValue, places.tag]
      exact ⟨by simpa using type, places.holds⟩
    · have other : EMSmapCell array.nElem i ≠ EMSmapCell array.nElem slot := by
        simpa using same
      obtain ⟨sameType, word⟩ := slots i inRange
      rw [Function.update_of_ne same, Function.update_of_ne same, places.tag,
        places.word _ other]
      refine ⟨by simpa [same] using sameType, ?_⟩
      apply word.same
      intro block member
      apply places.heap
      apply typed.kept_live
      exact Multiset.mem_sum.mpr ⟨i, Finset.mem_range.mpr (by omega), member⟩
  · have total : ∑ i ∈ Finset.range array.nElem.toNat,
        (Function.update blocks slot placed i : Multiset Block) =
        ∑ i ∈ Finset.range array.nElem.toNat,
            (blocks i : Multiset Block) + placed := by
      rw [blocks_update inside, blocks_split inside, noBlock, Multiset.coe_nil,
        zero_add, add_comm]
    rw [total]
    exact typed.placed (data_ne_map (Int.natCast_nonneg slot)) places

/-- What `EMSwriteIndexMap` returns and leaves behind.  A slot that was free is
left busy. -/
def Indexed (array : EmsArray) (level : Nat) (table : Table MapKey)
    (store : Store) (k : MapKey)
    (ledger : Ledger) (result : Search) (idx : Int) (after : Ledger) : Prop :=
  match result with
  | .found slot => idx = slot ∧ after = ledger
  | .free slot => idx = slot ∧
      MapHeld array level (Function.update table slot (some k)) store after ∧
      ∀ cell, cell ≠ EMSmapCell array.nElem slot → after.buf.tag cell =
        ledger.buf.tag cell
  | .exhausted => idx = -1 ∧ after = ledger

section Probes

variable [CRuntime]

private theorem slotMatches_alone {α : Type} {post : α → Ledger → Prop}
    {rest : Bool → EmsProg α}
    {mapTags : Tag} {i : Int} (binding : Option MapKey) (blocks : List Block)
    (names : key.Names k) (type : mapTags.type = (slotValue binding).type)
    (word : WordHolds (ledger.buf.word (EMSmapCell array.nElem i))
      ledger.buf.heap
      (slotValue binding) blocks)
    (ends : ledgerSolo.Ends post (rest (decide (binding = some k))) ledger) :
    ledgerSolo.Ends post
      (if mapTags.type = key.type then writeMatches array key mapTags i >>= rest
      else pure false >>= rest) ledger := by
  by_cases same : mapTags.type = key.type
  · rw [if_pos same]
    exact Yields.account
      (writeMatches_yields names type same word trivial fun _ _ _ _ =>
        trivial) ends
  · rw [if_neg same]
    rw [names.other_type type same] at ends
    exact ends

/-- The probe loop ends where the search does, if it started earlier. -/
theorem writeProbe_alone (positive : 0 < array.nElem) (names : key.Names k)
    (mapHeld : MapHeld array level table store ledger)
    (full : ∀ i : Nat, (i : Int) < array.nElem →
      (ledger.buf.tag (EMSmapCell array.nElem i)).fe = .full) {steps pos : Nat}
    (onWay : ∀ slot, search array.nElem.toNat table k steps pos = .free slot →
      mapSearch array table k = .free slot) :
    ledgerSolo.Ends (Indexed array level table store k ledger
        (search array.nElem.toNat table k steps pos))
      (writeProbe patience array key steps pos) ledger := by
  obtain ⟨blocks, held, stored⟩ := mapHeld.holds
  induction steps generalizing pos with
  | zero => exact ⟨rfl, rfl⟩
  | succ steps induction =>
      have below := slot_lt positive pos
      obtain ⟨type, word⟩ := held _ below
      have isFull := full _ below
      simp only [writeProbe, tmod_slot positive]
      apply Yields.account
        (EMStransitionFEtag_yields isFull (fun _ => trivial) trivial
        fun _ _ => trivial)
      cases bound : table (pos % array.nElem.toNat) with
      | none =>
          rw [bound] at type
          have free : search array.nElem.toNat table k (steps + 1) pos =
              .free (pos % array.nElem.toNat) := search_of_free bound
          simp only [type, slotValue, scalar, if_true, free]
          have ordered : Ledger.Ordered level { ledger with
              buf :=
                ledger.buf.setTag (EMSmapCell array.nElem
                  (pos % array.nElem.toNat : Nat))
                ⟨.busy, .undefined, (ledger.buf.tag (EMSmapCell array.nElem
                  (pos % array.nElem.toNat : Nat))).rw⟩ } :=
            stored.ordered.congr rfl rfl rfl
          apply Solo.Ends.bind
          apply (insertKey_places names ordered).mono
          rintro _ placed ⟨rfl, _, places⟩
          simp only [EmsBuf.setTag_setTag, EmsBuf.setTag_tag,
            Function.update_self] at places
          refine ⟨rfl, mapHeld.insert positive (onWay _ free) rfl places, ?_⟩
          intro cell other
          rw [places.tag]
          exact Function.update_of_ne other _ _
      | some other =>
          have notFree : (ledger.buf.tag (EMSmapCell array.nElem
              (pos % array.nElem.toNat : Nat))).type ≠ .undefined := by
            rw [type, bound]
            exact other.value_type_ne
          simp only [if_neg notFree]
          refine slotMatches_alone (table _) (blocks _) names type word ?_
          simp only [search_of_bound bound, bound, Option.some.injEq]
          by_cases same : other = k
          · subst same
            simp only [decide_true, if_true]
            have released := @storeFE_yields (fun _ _ => True) Access.Quiet True
              (ledger.buf.setTag
                (EMSmapCell array.nElem (pos % array.nElem.toNat : Nat))
                { ledger.buf.tag (EMSmapCell array.nElem
                    (pos % array.nElem.toNat : Nat)) with
                  fe := .busy }) (EMSmapCell array.nElem
                    (pos % array.nElem.toNat : Nat)) .full
              trivial fun _ => trivial
            rw [released_slot isFull] at released
            rw [bound] at type
            split
            case h_5 noBoolean noInteger _ noString =>
              cases other with
              | boolean => exact absurd type noBoolean
              | integer => exact absurd type noInteger
              | string => exact absurd type noString
            all_goals
              apply Yields.account released
              exact ⟨rfl, rfl⟩
          · simp only [same, decide_false, if_false, Bool.false_eq_true]
            apply Yields.account (storeFE_yields trivial fun _ => trivial)
            rw [released_slot isFull, ← search_succ_mod]
            apply induction
            intro slot free
            apply onWay
            rw [search_of_bound bound, if_neg same]
            rwa [← search_succ_mod]

theorem EMSwriteIndexMap_held (mapped : array.isMapped = true)
    (positive : 0 < array.nElem)
    (names : key.Names k) (mapHeld : MapHeld array level table store ledger)
    (full : ∀ i : Nat, (i : Int) < array.nElem →
      (ledger.buf.tag (EMSmapCell array.nElem i)).fe = .full) :
    ledgerSolo.Ends (Indexed array level table store k ledger
      (mapSearch array table k))
      (EMSwriteIndexMap patience array key) ledger := by
  obtain ⟨blocks, held, -⟩ := mapHeld.holds
  have start : EMSkey2index patience array key false =
      .ret ((k.startSlot % array.nElem.toNat : Nat) : Int) := by
    simp [EMSkey2index, names.keyStart, tmod_slot positive]
  simp only [EMSwriteIndexMap, mapped, start, Prog.ret_bind, if_true]
  apply Yields.account
    (EMSkey2index_yields positive names held full fun _ => trivial)
  split
  case isTrue above =>
    obtain ⟨slot, found, index⟩ := foundIndex_pos positive above
    rw [found]
    rw [found] at index
    exact ⟨index, rfl⟩
  case isFalse =>
    have probed :=
      @writeProbe_alone array level table store ledger key k patience _
        positive names
      mapHeld full MAX_OPEN_HASH_STEPS (k.startSlot % array.nElem.toNat)
    rw [search_mod] at probed
    exact probed fun _ free => free

private theorem EMSwriteIndexMap_alone (mapped : array.isMapped = true)
    (positive : 0 < array.nElem)
    (names : key.Names k) (holds : MapHolds array level table store ledger) :
    ledgerSolo.Ends (Indexed array level table store k ledger
      (mapSearch array table k))
      (EMSwriteIndexMap patience array key) ledger :=
  EMSwriteIndexMap_held mapped positive names holds.toMapHeld holds.slots

end Probes

/-! ## Writing -/

variable {value : EMSvalueType}

/-- What a write leaves behind, whose key had the slot or was bound to it. -/
theorem Wrote.mapHolds {slot : Nat} {blocks : Nat → List Block}
    {res : Except EMSError Unit}
    (wrote : Wrote array level
      (∑ i ∈ Finset.range array.nElem.toNat, (blocks i : Multiset Block))
      store slot value (some .full) ledger res after)
    (sound : Sound array.nElem.toNat MAX_OPEN_HASH_STEPS MapKey.startSlot table)
    (held : SlotsHold array table blocks ledger.buf)
    (below : (slot : Int) < array.nElem) (mapped : array.isMapped = true)
    (slots : ∀ i : Nat, (i : Int) < array.nElem → i ≠ slot →
      (ledger.buf.tag (EMSmapCell array.nElem i)).fe = .full)
    (elements : ∀ i : Nat, (i : Int) < array.nElem → i ≠ slot → table i ≠ none →
      (ledger.buf.tag (EMSdataCell i)).fe = .full) :
    MapHolds array level table (Function.update store slot value) after := by
  obtain ⟨-, stored, ⟨word, tag, heap⟩, final⟩ := wrote
  have inMap : ∀ i : Nat, EMSmapCell array.nElem i ≠ EMSdataCell slot :=
    fun i =>
    (data_ne_map (Int.natCast_nonneg i) slot below).symm
  refine ⟨⟨sound, blocks, ?_, stored⟩, ?_, ?_⟩
  · intro i inside
    obtain ⟨type, wordHolds⟩ := held i inside
    rw [tag _ (inMap i), word _ (inMap i)]
    refine ⟨?_, ?_⟩
    · rw [← type]
      by_cases same : i = slot
      · subst same
        simp [releasedMap, mapped]
      · simp [releasedMap, mapped, same]
    · apply wordHolds.same
      intro block member
      apply heap
      exact Multiset.mem_sum.mpr ⟨i, Finset.mem_range.mpr (by omega), member⟩
  · intro i inside
    rw [tag _ (inMap i)]
    by_cases same : i = slot
    · subst same
      simp [releasedMap, mapped]
    · simpa [releasedMap, mapped, same] using slots i inside same
  · intro i inside bound
    by_cases same : i = slot
    · subst same
      exact final .full rfl
    · have other : EMSdataCell i ≠ EMSdataCell slot := by simpa using same
      have apart : EMSdataCell i ≠ EMSmapCell array.nElem slot :=
        data_ne_map (Int.natCast_nonneg slot) i inside
      rw [tag _ other]
      simpa [releasedMap, mapped, apart] using elements i inside same bound

/-- What `EMSwriteXF` does to the table and the values: it fails and changes
nothing, or the key has a slot and the value is in its element. -/
def Written (array : EmsArray) (level : Nat) (table : Table MapKey)
    (store : Store) (k : MapKey)
    (value : EMSvalueType) (ledger : Ledger) (res : Except EMSError Unit)
    (after : Ledger) :
    Prop :=
  (∃ error, res = .error error ∧ after = ledger) ∨
    res = .ok () ∧ ∃ slot table', (table' = table ∨
        table slot = none ∧ table' = Function.update table slot (some k)) ∧
      table' slot = some k ∧
        MapHolds array level table' (Function.update store slot value) after

theorem EMSwriteXF_alone [CRuntime]
    (small : EMS_MEM_BLOCKSZ * 2 ^ level < 2 ^ 63)
    (mapped : array.isMapped = true) (positive : 0 < array.nElem)
    (names : key.Names k)
    (sized : value.Sized) (holds : MapHolds array level table store ledger) :
    ledgerSolo.Ends (Written array level table store k value ledger)
      (EMSwriteXF patience array key value) ledger := by
  have writes : ∀ {held : Ledger} {table' : Table MapKey} {slot : Nat},
      slot < array.nElem.toNat →
      (table' = table ∨ table slot = none ∧
        table' = Function.update table slot (some k)) →
      table' slot = some k → MapHeld array level table' store held →
      (∀ cell, cell ≠ EMSmapCell array.nElem slot → held.buf.tag cell =
        ledger.buf.tag cell) →
      ledgerSolo.Ends (Written array level table store k value ledger)
        (writeLoop patience array value none (some .full) patience slot)
            held := by
    intro held table' slot below table'_eq bound heldAfter tags
    have inside : (slot : Int) < array.nElem := by omega
    obtain ⟨sound, blocks, slotsHold, stored⟩ := heldAfter
    have waits : (none : Option FE) ≠ none →
        (held.buf.tag (EMSdataCell slot)).fe = .busy :=
      fun some => absurd rfl some
    apply (writeLoop_alone small sized stored inside waits).mono
    rintro _ after wrote
    refine .inr ⟨wrote.ok, slot, table', table'_eq, bound, ?_⟩
    apply wrote.mapHolds sound slotsHold inside mapped
    · intro i inRange other
      rw [tags _ (by simpa using other)]
      exact holds.slots i inRange
    · intro i inRange other boundHere
      rw [tags _ (data_ne_map (Int.natCast_nonneg slot) i inRange)]
      apply holds.elements i inRange
      rcases table'_eq with rfl | ⟨-, rfl⟩
      · exact boundHere
      · rwa [Function.update_of_ne other] at boundHere
  simp only [EMSwriteXF, EMSwriteUsingTags, Prog.pure_eq]
  apply Solo.Ends.bind
  apply (EMSwriteIndexMap_alone mapped positive names holds).mono
  intro idx held indexed
  cases result : mapSearch array table k with
  | found slot =>
      rw [result] at indexed
      obtain ⟨rfl, rfl⟩ := indexed
      rw [if_neg (by omega)]
      exact writes (search_lt (by omega) (.inl result)) (.inl rfl)
        (search_found result)
        holds.toMapHeld fun _ _ => rfl
  | free slot =>
      rw [result] at indexed
      obtain ⟨rfl, heldAfter, tags⟩ := indexed
      rw [if_neg (by omega)]
      exact writes (search_lt (by omega) (.inr result))
        (.inr ⟨search_free result, rfl⟩) (by simp)
        heldAfter tags
  | exhausted =>
      rw [result] at indexed
      obtain ⟨rfl, rfl⟩ := indexed
      exact .inl ⟨_, rfl, rfl⟩

end Inserting

/-! ## Observing the map -/

/-- However patient, the program leaves the memory alone and returns what it
should, and if it is patient enough it returns. -/
def Responds {α : Type} (prog : Nat → EmsProg α) (ledger : Ledger)
    (post : α → Prop) : Prop :=
  (∀ patience res after, ledgerSolo.Returns (prog patience) ledger res after →
    post res ∧ after = ledger) ∧
  ∃ enough, ∀ patience ≥ enough, ∃ res,
    ledgerSolo.Returns (prog patience) ledger res ledger

theorem Responds.of_ends {α : Type} {prog : Nat → EmsProg α} {ledger : Ledger}
    {post : α → Prop}
    (enough : Nat)
    (ends : ∀ patience (spins : Prop), (patience < enough → spins) →
      (quietSolo spins).Ends (fun res after => after = ledger.buf ∧ post res)
        (prog patience)
        ledger.buf) :
    Responds prog ledger post := by
  constructor
  · intro patience res after returns
    have calm : ledgerSolo.Ends (fun res after => post res ∧ after = ledger)
        (prog patience)
        ledger := by
      apply Ends.account
      apply (ends patience True fun _ => trivial).mono
      rintro res _ ⟨rfl, holds⟩
      exact ⟨holds, rfl⟩
    exact calm.returns returns
  · refine ⟨enough, fun patience patient => ?_⟩
    obtain ⟨res, _, returns, rfl, -⟩ := Ends.returning (not_false)
      (ends patience False fun short => absurd short (Nat.not_lt.mpr patient))
    exact ⟨res, returns⟩

/-- What is returned for the key of a slot.  A string is returned by the
address at which it stands. -/
def KeyReads (heap : Int → UInt8) (res : EMSvalueType) (k : MapKey) : Prop :=
  res.type = k.value.type ∧
    (k.value.type.IsText → HeapHolds heap res.value k.value.text.bytes) ∧
    (k.value.type.IsWord → res.value = k.value.value)

section Observing

variable {array : EmsArray} {level : Nat} {table : Table MapKey} {store : Store}
  {ledger : Ledger} {key : EMSvalueType} {k : MapKey} {patience slot : Nat}
    {spins : Prop}

private theorem finishedRead_full {buf : EmsBuf} {i : Int}
    (mapped : array.isMapped = true)
    (element : (buf.tag (EMSdataCell i)).fe = .full)
    (slot : (buf.tag (EMSmapCell array.nElem i)).fe = .full) :
    finishedRead array i (some .full)
      { buf.tag (EMSdataCell i) with fe := .busy }
      (acquiredRead i (some .full) buf) = buf := by
  have sameElement :
      (⟨.full, (buf.tag (EMSdataCell i)).type,
        (buf.tag (EMSdataCell i)).rw⟩ : Tag) =
      buf.tag (EMSdataCell i) := by
    rw [← element]
  have sameSlot : (⟨.full, (buf.tag (EMSmapCell array.nElem i)).type,
      (buf.tag (EMSmapCell array.nElem i)).rw⟩ : Tag) =
          buf.tag (EMSmapCell array.nElem i) := by
    rw [← slot]
  simp only [finishedRead, acquiredRead, EmsBuf.setTag_setTag, sameElement,
    EmsBuf.setTag_self,
    releasedMap, mapped, if_true, sameSlot]

theorem MapHolds.search (holds : MapHolds array level table store ledger)
    (bound : table slot = some k) : mapSearch array table k = .found slot :=
  holds.sound slot k bound

variable [CRuntime]

theorem EMSkey2index_bound (positive : 0 < array.nElem) (names : key.Names k)
    (holds : MapHolds array level table store ledger)
    (bound : table slot = some k)
    (patient : patience = 0 → spins) :
    (quietSolo spins).Yields
    (EMSkey2index patience array key true) ledger.buf slot ledger.buf := by
  obtain ⟨blocks, held, -⟩ := holds.holds
  have below : slot < array.nElem.toNat := holds.sound.lt (by omega) bound
  have looked := EMSkey2index_yields positive names held holds.slots patient
  rwa [holds.search bound, foundIndex, tmod_slot positive,
    Nat.mod_eq_of_lt below] at looked

private theorem EMSreadFF_bound (mapped : array.isMapped = true)
    (positive : 0 < array.nElem)
    (names : key.Names k) (holds : MapHolds array level table store ledger)
    (valid : StoreValid store) (bound : table slot = some k) {stack : Tag}
    (patient : patience ≤ (store slot).text.bytes.length → spins) :
    (quietSolo spins).Ends (fun res after => after = ledger.buf ∧
        ∃ value, res = .ok value ∧ Reads ledger.buf.heap value (store slot))
      (EMSreadFF patience array stack key) ledger.buf := by
  have below : slot < array.nElem.toNat := holds.sound.lt (by omega) bound
  have inside : (slot : Int) < array.nElem := by omega
  have element := holds.elements slot inside (by simp [bound])
  obtain ⟨blocks, held, stored⟩ := holds.holds
  obtain ⟨own, ⟨type, word⟩, -⟩ := stored.element inside
  have present : ¬ (True ∧ (slot : Int) < 0) := by omega
  have inRange : ¬ ((slot : Int) < 0 ∨ array.nElem ≤ slot) := by omega
  simp only [EMSreadFF, EMSreadUsingTags, mapped]
  apply (EMSkey2index_bound positive names holds bound fun short =>
    patient (by omega)).bind
  simp only [if_neg present, if_neg inRange]
  apply (readLoop_ends word type (valid.boolean slot) (by decide) ?_ ?_).mono
  · rintro res _ ⟨rfl, value, rfl, reads⟩
    exact ⟨finishedRead_full mapped element (holds.slots slot inside),
      value, rfl, reads⟩
  · intro _ fe same
    rw [element]
    exact Option.some.inj same
  · intro short
    apply patient
    omega

omit [CRuntime] in
theorem EMSindex2key_slot (mapped : array.isMapped = true)
    (holds : MapHolds array level table store ledger) {i : Nat}
    (inside : (i : Int) < array.nElem) :
    (quietSolo spins).Ends (fun res after => after = ledger.buf ∧
        match table i with
        | none => res = .ok (scalar .undefined 0)
        | some k => ∃ value, res = .ok value ∧ KeyReads ledger.buf.heap value k)
      (EMSindex2key array i) ledger.buf := by
  obtain ⟨blocks, held, -⟩ := holds.holds
  obtain ⟨type, word⟩ := held i inside
  have inRange : ¬ ((i : Int) < 0 ∨ array.nElem ≤ i) := by omega
  simp only [EMSindex2key, mapped, not_true, if_false, if_neg inRange]
  apply Solo.Ends.perform
  refine fun _ => ⟨trivial, ?_⟩
  simp only [Access.perform]
  cases bound : table i with
  | none =>
      rw [bound] at type
      simp only [type, slotValue, scalar]
      exact ⟨rfl, rfl⟩
  | some k =>
      rw [bound] at type word
      cases k with
      | boolean value =>
          obtain ⟨stored, -⟩ := (wordHolds_word (.inl rfl)).mp word
          simp only [type, slotValue, MapKey.value, scalar]
          refine fun _ =>
            ⟨trivial, rfl, _, rfl, rfl, fun text => ?_, fun _ => stored⟩
          exact absurd text (by simp [EMSType.IsText, MapKey.value, scalar])
      | integer value =>
          obtain ⟨stored, -⟩ := (wordHolds_word (.inr (.inl rfl))).mp word
          simp only [type, slotValue, MapKey.value, scalar]
          refine fun _ =>
            ⟨trivial, rfl, _, rfl, rfl, fun text => ?_, fun _ => stored⟩
          exact absurd text (by simp [EMSType.IsText, MapKey.value, scalar])
      | string text =>
          obtain ⟨block, -, address, -, string⟩ :=
            (wordHolds_text (.inl rfl)).mp word
          simp only [type, slotValue, MapKey.value]
          refine fun _ =>
            ⟨trivial, rfl, _, rfl, rfl, fun _ => ?_, fun isWord => ?_⟩
          · simp only [Access.perform, address]
            exact string
          · exact absurd isWord (by simp [EMSType.IsWord, MapKey.value])

end Observing

/-! ## Sequences of writes -/

/-- A write of the element of a key. -/
structure MapWrite where
  key : EMSvalueType
  value : EMSvalueType

def MapWrite.code [CRuntime] (array : EmsArray) (write : MapWrite)
    (patience : Nat) :
    EmsProg (Except EMSError Unit) :=
  EMSwriteXF patience array write.key write.value

/-- The key is one that the map holds, and the value is well formed. -/
structure MapWrite.Valid (write : MapWrite) : Prop where
  key : ∃ k, write.key.Names k
  value : write.value.WellFormed

/-- A write that returns, with nothing refused by the allocator. -/
abbrev MapCall [CRuntime] (array : EmsArray) :
    Ledger → MapWrite × Except EMSError Unit → Ledger → Prop :=
  ledgerSolo.Call (MapWrite.code array) fun write _ => write.Valid

/-- What was written last with the key, if a write with it has succeeded. -/
def mapAfter (writes : List (MapWrite × Except EMSError Unit)) (k : MapKey) :
    Option EMSvalueType :=
  writes.foldl (fun last write =>
    if SameContent write.1.key k.value ∧ write.2.isOk then some write.1.value
      else last) none

/-- No slot is bound, and the elements hold anything. -/
structure InitialMap (array : EmsArray) (level : Nat)
    (ledger : Ledger) : Prop where
  slots : ∀ i : Nat, (i : Int) < array.nElem →
    (ledger.buf.tag (EMSmapCell array.nElem i)).fe = .full ∧
      (ledger.buf.tag (EMSmapCell array.nElem i)).type = .undefined
  elements : ∃ store, StoreHolds array level 0 store ledger ∧ StoreValid store

/-- The keys that have been written are bound, and their elements hold what was
written last. -/
structure MapInvariant (array : EmsArray) (level : Nat)
    (writes : List (MapWrite × Except EMSError Unit)) (table : Table MapKey)
    (store : Store)
    (ledger : Ledger) : Prop where
  holds : MapHolds array level table store ledger
  valid : StoreValid store
  agrees : ∀ k value, mapAfter writes k = some value ↔
    ∃ slot : Nat, table slot = some k ∧ store slot = value

section Writes

variable {array : EmsArray} {level : Nat} {table : Table MapKey} {store : Store}
  {ledger : Ledger} {writes : List (MapWrite × Except EMSError Unit)}

theorem InitialMap.invariant (initially : InitialMap array level ledger) :
    ∃ store, MapInvariant array level [] (fun _ => none) store ledger := by
  obtain ⟨slots, store, stored, valid⟩ := initially
  refine ⟨store, ⟨⟨sound_free, fun _ => [], ?_, by simpa using stored⟩, ?_, ?_⟩,
    valid, ?_⟩
  · exact fun i inside => ⟨(slots i inside).2, rfl⟩
  · exact fun i inside => (slots i inside).1
  · exact fun _ _ bound => absurd rfl bound
  · simp [mapAfter]

theorem mapAfter_snoc {write : MapWrite} {res : Except EMSError Unit}
    {k : MapKey} :
    mapAfter (writes ++ [(write, res)]) k =
      if SameContent write.key k.value ∧ res.isOk then some write.value
        else mapAfter writes k := by
  simp [mapAfter]

variable [CRuntime]

/-- A write keeps the slots of all keys. -/
theorem MapInvariant.step (small : EMS_MEM_BLOCKSZ * 2 ^ level < 2 ^ 63)
    (mapped : array.isMapped = true) (positive : 0 < array.nElem)
    (invariant : MapInvariant array level writes table store ledger)
    {write : MapWrite}
    {res : Except EMSError Unit} {after : Ledger}
    (call : MapCall array ledger (write, res) after) :
    ∃ table' store', Extends table table' ∧
      MapInvariant array level (writes ++ [(write, res)]) table'
        store' after := by
  cases call with
  | mk patience allowed returns =>
      obtain ⟨⟨k, names⟩, wellFormed⟩ := allowed
      have written :=
        (EMSwriteXF_alone small mapped positive names wellFormed.toSized
        invariant.holds).returns returns
      rcases written with ⟨error, rfl, rfl⟩ |
        ⟨rfl, slot, table', grows, bound, holds⟩
      · refine ⟨table, store, fun _ _ bound => bound, invariant.holds,
          invariant.valid, ?_⟩
        intro k' value
        rw [mapAfter_snoc, if_neg (by simp [Except.isOk, Except.toBool])]
        exact invariant.agrees k' value
      · have valid : StoreValid (Function.update store slot write.value) := by
          constructor
          intro i
          by_cases same : i = slot
          · subst same
            simpa using wellFormed.boolean
          · simpa [same] using invariant.valid.boolean i
        have extended : Extends table table' := by
          rcases grows with rfl | ⟨free, rfl⟩
          · exact fun _ _ bound => bound
          · exact extends_insert free
        refine ⟨table', _, extended, holds, valid, ?_⟩
        intro k' value
        rw [mapAfter_snoc]
        by_cases same : k' = k
        · subst same
          rw [if_pos ⟨names.same, rfl⟩]
          constructor
          · intro last
            exact ⟨slot, bound, by simpa using Option.some.inj last⟩
          · rintro ⟨slot', bound', stored⟩
            obtain rfl := holds.sound.unique bound bound'
            exact congrArg some (by simpa using stored)
        · have different : ¬ (SameContent write.key k'.value ∧
              (Except.ok () : Except EMSError
              Unit).isOk = true) := fun both => same (both.1.key_eq names.same)
          rw [if_neg different, invariant.agrees k' value]
          apply exists_congr
          intro slot'
          by_cases sameSlot : slot' = slot
          · subst sameSlot
            have notHere : table' slot' ≠ some k' := by
              rw [bound]
              exact fun equal => same (Option.some.inj equal).symm
            exact iff_of_false (fun here => notHere (extended _ _ here.1))
              fun here => notHere here.1
          · have sameKey : table' slot' = table slot' := by
              rcases grows with rfl | ⟨-, rfl⟩
              · rfl
              · exact Function.update_of_ne sameSlot _ _
            simp [sameKey, sameSlot]

theorem MapInvariant.run (small : EMS_MEM_BLOCKSZ * 2 ^ level < 2 ^ 63)
    (mapped : array.isMapped = true) (positive : 0 < array.nElem)
    (invariant : MapInvariant array level writes table store ledger)
    {later : List (MapWrite × Except EMSError Unit)} {final : Ledger}
    (run : Run (MapCall array) ledger later final) :
    ∃ table' store', Extends table table' ∧
      MapInvariant array level (writes ++ later) table' store' final := by
  induction run with
  | nil =>
      exact ⟨table, store, fun _ _ bound => bound, by simpa using invariant⟩
  | snoc _ call induction =>
      obtain ⟨table', store', extended, between⟩ := induction
      obtain ⟨table'', store'', extended', after⟩ :=
        between.step small mapped positive call
      refine ⟨table'', store'',
        fun slot k bound => extended' slot k (extended slot k bound), ?_⟩
      rwa [← List.append_assoc]

omit [CRuntime] in
theorem MapHolds.table_eq {table' : Table MapKey} {store' : Store}
    (positive : 0 < array.nElem)
    (holds : MapHolds array level table store ledger)
    (holds' : MapHolds array level table' store' ledger) : table = table' := by
  have inRange : ∀ i : Nat, (i : Int) < array.nElem → table i = table' i := by
    intro i inside
    obtain ⟨blocks, held, -⟩ := holds.holds
    obtain ⟨blocks', held', -⟩ := holds'.holds
    obtain ⟨type, word⟩ := held i inside
    obtain ⟨type', word'⟩ := held' i inside
    exact binding_unique (type.symm.trans type') word word'
  have outside : ∀ {table : Table MapKey},
      Sound array.nElem.toNat MAX_OPEN_HASH_STEPS MapKey.startSlot table →
      ∀ i : Nat, ¬ (i : Int) < array.nElem → table i = none := by
    intro table sound i above
    by_contra bound
    obtain ⟨k, bound⟩ := Option.ne_none_iff_exists'.mp bound
    have below : i < array.nElem.toNat := sound.lt (by omega) bound
    omega
  funext i
  by_cases inside : (i : Int) < array.nElem
  · exact inRange i inside
  · rw [outside holds.sound i inside, outside holds'.sound i inside]

end Writes

/-! ## The map refines a finite map -/

/-- A map of keys to values is what the code answers by, with the keys in the
slots. -/
structure KeyMapAnswers [CRuntime] (array : EmsArray) (stack : Tag)
    (slot : MapKey → Nat)
    (map : MapKey → Option EMSvalueType) (ledger : Ledger) : Prop where
  key2index : ∀ key k value, key.Names k → map k = some value →
    Responds (fun patience => EMSkey2index patience array key array.isMapped)
      ledger
      fun idx => idx = slot k
  readFF : ∀ key k value, key.Names k → map k = some value →
    Responds (fun patience => EMSreadFF patience array stack key) ledger
      fun res => ∃ current, res = .ok current ∧
        Reads ledger.buf.heap current value
  index2key : ∀ k value, map k = some value →
    Responds (fun _ => EMSindex2key array (slot k)) ledger
      fun res => ∃ current, res = .ok current ∧
        KeyReads ledger.buf.heap current k
  unused : ∀ i : Nat, (i : Int) < array.nElem →
    (∀ k value, map k = some value → slot k ≠ i) →
    Responds (fun _ => EMSindex2key array i) ledger fun res =>
      res = .ok (scalar .undefined 0)
  inside : ∀ k value, map k = some value → (slot k : Int) < array.nElem
  distinct : ∀ k k' value value', map k = some value → map k' = some value' →
    slot k = slot k' →
    k = k'
  failed : ∀ write error after,
    MapCall array ledger (write, .error error) after → after = ledger

variable {array : EmsArray} {level : Nat} {start final : Ledger}
  {writes : List (MapWrite × Except EMSError Unit)}

theorem MapInvariant.answers [CRuntime]
    (small : EMS_MEM_BLOCKSZ * 2 ^ level < 2 ^ 63)
    (mapped : array.isMapped = true) (positive : 0 < array.nElem)
    {table : Table MapKey}
    {store : Store} {ledger : Ledger} {stack : Tag} {slot : MapKey → Nat}
    (invariant : MapInvariant array level writes table store ledger)
    (slots : ∀ i k, table i = some k → slot k = i) :
    KeyMapAnswers array stack slot (mapAfter writes) ledger := by
  obtain ⟨holds, valid, agrees⟩ := invariant
  have found : ∀ {k value}, mapAfter writes k = some value →
      table (slot k) = some k ∧ store (slot k) = value := by
    intro k value last
    obtain ⟨i, bound, stored⟩ := (agrees k value).mp last
    rw [slots i k bound]
    exact ⟨bound, stored⟩
  have inside : ∀ {k value}, mapAfter writes k = some value →
      (slot k : Int) < array.nElem := by
    intro k value last
    have below : slot k < array.nElem.toNat :=
      holds.sound.lt (by omega) (found last).1
    omega
  constructor
  · intro key k value names last
    apply Responds.of_ends 1
    intro patience spins patient
    rw [mapped]
    apply (EMSkey2index_bound positive names holds (found last).1 ?_).mono
    · rintro _ _ ⟨rfl, rfl⟩
      exact ⟨rfl, rfl⟩
    · intro none
      apply patient
      omega
  · intro key k value names last
    obtain ⟨bound, rfl⟩ := found last
    apply Responds.of_ends ((store (slot k)).text.bytes.length + 1)
    intro patience spins patient
    apply EMSreadFF_bound mapped positive names holds valid bound
    intro short
    apply patient
    omega
  · intro k value last
    apply Responds.of_ends 0
    intro patience spins _
    have reads :=
      @EMSindex2key_slot array level table store ledger spins mapped holds _
        (inside last)
    simp only [(found last).1] at reads
    exact reads
  · intro i inRange noKey
    apply Responds.of_ends 0
    intro patience spins _
    have free : table i = none := by
      by_contra bound
      obtain ⟨k, bound⟩ := Option.ne_none_iff_exists'.mp bound
      have last := (agrees k (store i)).mpr ⟨i, bound, rfl⟩
      exact noKey k _ last (slots i k bound)
    have reads :=
      @EMSindex2key_slot array level table store ledger spins mapped
        holds _ inRange
    simp only [free] at reads
    exact reads
  · exact fun k value => inside
  · intro k k' value value' last last' same
    have bound := (found last).1
    rw [same, (found last').1] at bound
    exact (Option.some.inj bound).symm
  · intro write error after call
    cases call with
    | mk patience allowed returns =>
        obtain ⟨⟨k, names⟩, wellFormed⟩ := allowed
        rcases (EMSwriteXF_alone small mapped positive names wellFormed.toSized
          holds).returns
          returns with ⟨_, -, same⟩ | ⟨ok, -⟩
        · exact same
        · cases ok

/-- In every sequence of writes the keys have slots that they keep: after any
number of the writes the code answers by what has been written last, and a
write that fails changes nothing. -/
theorem key_map_refines [CRuntime]
    (small : EMS_MEM_BLOCKSZ * 2 ^ level < 2 ^ 63)
    (mapped : array.isMapped = true) (nonempty : 1 ≤ array.nElem)
    (initially : InitialMap array level start)
    (run : Run (MapCall array) start writes final) :
    ∃ slot : MapKey → Nat, ∀ earlier later middle, writes = earlier ++ later →
      Run (MapCall array) start earlier middle →
        Run (MapCall array) middle later final →
      ∀ stack, KeyMapAnswers array stack slot (mapAfter earlier) middle := by
  have positive : 0 < array.nElem := by omega
  obtain ⟨store, first⟩ := initially.invariant
  obtain ⟨lastTable, _, -, last⟩ := first.run small mapped positive run
  have placed : ∀ k, ∃ slot, ∀ i, lastTable i = some k → slot = i := by
    intro k
    by_cases bound : ∃ i, lastTable i = some k
    · obtain ⟨i, bound⟩ := bound
      exact ⟨i, fun j bound' => last.holds.sound.unique bound bound'⟩
    · exact ⟨0, fun j bound' => absurd ⟨j, bound'⟩ bound⟩
  choose slot slots using placed
  refine ⟨slot, fun earlier later middle same before after stack => ?_⟩
  obtain ⟨table, _, -, between⟩ := first.run small mapped positive before
  obtain ⟨table', _, extended, final⟩ := between.run small mapped positive after
  have sameTable : table' = lastTable :=
    final.holds.table_eq positive last.holds
  subst sameTable
  exact between.answers small mapped positive fun i k bound =>
    slots k i (extended i k bound)

/-- The key 5 is written. -/
theorem key_map_refines_written :
    let _ := ieeeRuntime
    ∃ final slot, ∀ stack, KeyMapAnswers ⟨2, true⟩ stack slot
      (mapAfter [(⟨scalar .integer 5, scalar .integer 7⟩, .ok ())]) final := by
  intro _
  have initially : InitialMap ⟨2, true⟩ 0 freshLedger := by
    refine ⟨fun _ _ => ⟨rfl, rfl⟩, storeAfter [],
      InitialStore.holds ⟨?_, rfl, rfl, rfl, rfl⟩, ?_⟩
    · exact fun _ _ _ => rfl
    · exact ⟨fun _ boolean => nomatch boolean⟩
  have names : (scalar .integer 5).Names (.integer 5) :=
    ⟨by decide, ⟨by decide, fun text => absurd text (by decide)⟩, by decide⟩
  have valid : MapWrite.Valid ⟨scalar .integer 5, scalar .integer 7⟩ :=
    ⟨⟨_, names⟩, ⟨by decide, fun text => absurd text (by decide)⟩,
      fun boolean => nomatch boolean⟩
  obtain ⟨res, final, returns, checked⟩ := ledgerSolo.exists_returns
    (MapWrite.code ⟨2, true⟩ ⟨scalar .integer 5, scalar .integer 7⟩ 1)
      freshLedger
    (fun played => played.1.isOk) (by decide +kernel)
  cases res with
  | error => cases checked
  | ok =>
      have run : Run (MapCall ⟨2, true⟩) freshLedger _ final :=
        Run.nil.snoc (.mk 1 valid returns)
      obtain ⟨slot, answers⟩ :=
        key_map_refines (by decide) rfl (by decide) initially run
      exact ⟨final, slot, answers _ [] final (List.append_nil _).symm run .nil⟩

end EMS
