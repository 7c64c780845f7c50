import EMS.ElementStore
import EMS.OpenAddressing

/-!
# Keys of mapped arrays

The keys that a slot of the map may be bound to, where the search for a key
starts, and how the code compares a key with what a slot holds.
-/

namespace EMS

open SharedProgram OpenAddressing

/-- A key that is not a floating point number. -/
inductive MapKey where
  | boolean (value : Bool)
  | integer (value : Int)
  | string (text : CString)
  deriving DecidableEq

namespace MapKey

/-- The key as a slot holds it. -/
def value : MapKey → EMSvalueType
  | boolean value => scalar .boolean (if value then 1 else 0)
  | integer value => scalar .integer value
  | string text => ⟨.string, 0, text, text.bytes.length⟩

def start : MapKey → Int
  | boolean value => if value then 1 else 0
  | integer value => llabs value
  | string text => EMShashString text

/-- Where the search for the key starts, before it is reduced to a slot. -/
def startSlot (k : MapKey) : Nat := k.start.toNat

theorem value_type_ne (k : MapKey) : k.value.type ≠ .undefined := by
  cases k <;> simp [value, scalar]

theorem cases_type {k other : MapKey} (same : other.value.type = k.value.type) :
    (∃ value value', other = boolean value ∧ k = boolean value') ∨
      (∃ value value', other = integer value ∧ k = integer value') ∨
      ∃ text text', other = string text ∧ k = string text' := by
  cases other <;> cases k <;> simp_all [value, scalar]

end MapKey

/-- What a slot holds that is bound to the key or free. -/
def slotValue : Option MapKey → EMSvalueType
  | none => scalar .undefined 0
  | some k => k.value

private theorem slotValue_undefined {binding : Option MapKey} :
    (slotValue binding).type = .undefined ↔ binding = none := by
  cases binding with
  | none => exact iff_of_true rfl rfl
  | some k => exact iff_of_false k.value_type_ne (by simp)

/-- The argument names the key, and the search for it starts in the table. -/
structure EMSvalueType.Names (key : EMSvalueType) (k : MapKey) : Prop where
  same : SameContent key k.value
  sized : key.Sized
  start : 0 ≤ k.start

section Keys

variable {key : EMSvalueType} {k k' : MapKey}

/-- An argument names one key at most. -/
theorem SameContent.key_eq (same : SameContent key k.value)
    (same' : SameContent key k'.value) :
    k = k' := by
  obtain ⟨type, text, word⟩ := same
  obtain ⟨type', text', word'⟩ := same'
  rw [type] at text word
  rw [type'] at text' word'
  rcases MapKey.cases_type (type.symm.trans type') with
    ⟨value, value', rfl, rfl⟩ | ⟨value, value', rfl, rfl⟩ |
      ⟨text₁, text₂, rfl, rfl⟩
  · have equal := (word (.inl rfl)).symm.trans (word' (.inl rfl))
    cases value <;> cases value' <;> simp_all [MapKey.value, scalar]
  · exact congrArg _ ((word (.inr (.inl rfl))).symm.trans
      (word' (.inr (.inl rfl))))
  · exact congrArg _ ((text (.inl rfl)).symm.trans (text' (.inl rfl)))

theorem EMSvalueType.Names.keyStart (names : key.Names k) :
    keyStart key = some (k.startSlot : Int) := by
  obtain ⟨⟨type, text, word⟩, -, inside⟩ := names
  have slot : (k.startSlot : Int) = k.start := Int.toNat_of_nonneg inside
  rw [slot]
  rw [type] at text word
  cases k with
  | boolean value =>
      have same := word (.inl rfl)
      cases value <;> simp_all [EMS.keyStart, MapKey.value,
        MapKey.start, scalar]
  | integer value =>
      have same := word (.inr (.inl rfl))
      simp_all [EMS.keyStart, MapKey.value, MapKey.start, scalar]
  | string value =>
      have same := text (.inl rfl)
      simp_all [EMS.keyStart, MapKey.value, MapKey.start]

end Keys

/-! ## Slots -/

/-- A slot is bound to one key. -/
theorem binding_unique {word : Int} {heap : Int → UInt8}
    {binding binding' : Option MapKey}
    {blocks blocks' : List Block}
    (type : (slotValue binding).type = (slotValue binding').type)
    (holds : WordHolds word heap (slotValue binding) blocks)
    (holds' : WordHolds word heap (slotValue binding') blocks') :
    binding = binding' := by
  cases binding with
  | none =>
      have free : (slotValue binding').type = .undefined := type.symm
      exact (slotValue_undefined.mp free).symm
  | some k =>
      cases binding' with
      | none => exact absurd type k.value_type_ne
      | some k' =>
          simp only [slotValue] at holds holds' type
          rcases MapKey.cases_type type with
            ⟨value, value', rfl, rfl⟩ | ⟨value, value', rfl, rfl⟩ |
              ⟨text, text', rfl, rfl⟩
          · have stored := ((wordHolds_word (.inl rfl)).mp holds).1
            have stored' := ((wordHolds_word (.inl rfl)).mp holds').1
            have same := stored.symm.trans stored'
            cases value <;> cases value' <;> simp_all [MapKey.value, scalar]
          · have stored := ((wordHolds_word (.inr (.inl rfl))).mp holds).1
            have stored' := ((wordHolds_word (.inr (.inl rfl))).mp holds').1
            exact congrArg (some ∘ MapKey.integer) (stored.symm.trans stored')
          · obtain ⟨block, -, address, -, string⟩ :=
              (wordHolds_text (.inl rfl)).mp holds
            obtain ⟨block', -, address', -, string'⟩ :=
              (wordHolds_text (.inl rfl)).mp holds'
            rw [← address] at string
            rw [← address'] at string'
            exact congrArg (some ∘ MapKey.string) (string.unique string')

/-! ## Comparisons -/

section Comparing

variable [CRuntime] {given : Access → EmsBuf → Prop} {allows : Access → Prop}
  {spins : Prop}
  {array : EmsArray} {buf : EmsBuf} {key : EMSvalueType} {k : MapKey}
    {binding : Option MapKey}
  {blocks : List Block} {mapTags : Tag} {i : Int}

omit [CRuntime] in
theorem EMSvalueType.Names.other_type (names : key.Names k)
    (type : mapTags.type = (slotValue binding).type)
    (different : mapTags.type ≠ key.type) :
    decide (binding = some k) = false := by
  rw [decide_eq_false_iff_not]
  rintro rfl
  exact different (type.trans names.same.1.symm)

/-- `EMSkey2index` compares a key with a slot that it has found full. -/
theorem lookupMatches_yields (names : key.Names k)
    (type : mapTags.type = (slotValue binding).type)
    (word : WordHolds (buf.word (EMSmapCell array.nElem i)) buf.heap
      (slotValue binding) blocks)
    (mayLoad : allows (.load (EMSmapCell array.nElem i)))
    (mayLoadByte : (slotValue binding).type.IsText → ∀ a,
      buf.word (EMSmapCell array.nElem i) ≤ a →
      a ≤ buf.word (EMSmapCell array.nElem i) +
        (slotValue binding).text.bytes.length →
      allows (.loadByte a)) :
    (emsSolo given allows spins).Yields (lookupMatches array key mapTags i) buf
      (decide (binding = some k)) buf := by
  have otherType :=
    @EMSvalueType.Names.other_type key k binding mapTags names type
  obtain ⟨⟨keyType, keyText, keyWord⟩, -, -⟩ := names
  rw [keyType] at keyText keyWord
  unfold lookupMatches
  by_cases same : mapTags.type = key.type
  · rw [if_pos same]
    rw [type, keyType] at same
    cases binding with
    | none => exact absurd same.symm k.value_type_ne
    | some other =>
        rcases MapKey.cases_type same with
          ⟨value, value', rfl, rfl⟩ | ⟨value, value', rfl, rfl⟩ |
            ⟨text, text', rfl, rfl⟩
        · obtain ⟨stored, -⟩ := (wordHolds_word (.inl rfl)).mp word
          simp only [keyType, MapKey.value, scalar]
          refine fun _ => ⟨mayLoad, ?_, rfl⟩
          simp only [Access.perform, stored, keyWord (.inl rfl)]
          cases value <;> cases value' <;> rfl
        · obtain ⟨stored, -⟩ := (wordHolds_word (.inr (.inl rfl))).mp word
          simp only [keyType, MapKey.value, scalar]
          refine fun _ => ⟨mayLoad, ?_, rfl⟩
          simp [Access.perform, stored, keyWord (.inr (.inl rfl)), slotValue,
            MapKey.value, scalar,
            eq_comm]
        · obtain ⟨block, -, address, -, string⟩ :=
            (wordHolds_text (.inl rfl)).mp word
          simp only [keyType, MapKey.value]
          refine fun _ => ⟨mayLoad, ?_⟩
          simp only [Access.perform, address, keyText (.inl rfl)]
          apply (equalsHeap_yields string
            (fun a lower upper => mayLoadByte (.inl rfl) a (address ▸ lower)
            (address ▸ upper)) text').mono
          rintro _ _ ⟨rfl, rfl⟩
          simp [slotValue, MapKey.value, eq_comm]
  · rw [if_neg same]
    exact ⟨(otherType same).symm, rfl⟩

/-- `EMSwriteIndexMap` compares a key with a slot of its type. -/
theorem writeMatches_yields (names : key.Names k)
    (type : mapTags.type = (slotValue binding).type)
    (same : mapTags.type = key.type)
    (word : WordHolds (buf.word (EMSmapCell array.nElem i)) buf.heap
      (slotValue binding) blocks)
    (mayLoad : allows (.load (EMSmapCell array.nElem i)))
    (mayLoadByte : (slotValue binding).type.IsText → ∀ a,
      buf.word (EMSmapCell array.nElem i) ≤ a →
      a ≤ buf.word (EMSmapCell array.nElem i) +
        (slotValue binding).text.bytes.length →
      allows (.loadByte a)) :
    (emsSolo given allows spins).Yields (writeMatches array key mapTags i) buf
      (decide (binding = some k)) buf := by
  obtain ⟨⟨keyType, keyText, keyWord⟩, -, -⟩ := names
  rw [keyType] at keyText keyWord
  rw [type, keyType] at same
  unfold writeMatches
  cases binding with
  | none => exact absurd same.symm k.value_type_ne
  | some other =>
      rcases MapKey.cases_type same with
        ⟨value, value', rfl, rfl⟩ | ⟨value, value', rfl, rfl⟩ |
          ⟨text, text', rfl, rfl⟩
      · obtain ⟨stored, -⟩ := (wordHolds_word (.inl rfl)).mp word
        simp only [type, slotValue, MapKey.value, scalar]
        refine fun _ => ⟨mayLoad, ?_, rfl⟩
        simp only [Access.perform, stored, keyWord (.inl rfl)]
        cases value <;> cases value' <;> rfl
      · obtain ⟨stored, -⟩ := (wordHolds_word (.inr (.inl rfl))).mp word
        simp only [type, slotValue, MapKey.value, scalar]
        refine fun _ => ⟨mayLoad, ?_, rfl⟩
        simp [Access.perform, stored, keyWord (.inr (.inl rfl)), slotValue,
          MapKey.value, scalar,
          eq_comm]
      · obtain ⟨block, -, address, -, string⟩ :=
          (wordHolds_text (.inl rfl)).mp word
        simp only [type, slotValue, MapKey.value]
        refine fun _ => ⟨mayLoad, ?_⟩
        simp only [Access.perform, address, keyText (.inl rfl)]
        apply (equalsHeap_yields string
            (fun a lower upper => mayLoadByte (.inl rfl) a (address ▸ lower)
            (address ▸ upper)) text').mono
        rintro _ _ ⟨rfl, rfl⟩
        simp [slotValue, MapKey.value, eq_comm]

end Comparing

end EMS
