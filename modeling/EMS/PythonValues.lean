import EMS.ElementStore

/-!
# Values between Python and the memory

`_new_EMSval` makes a native value of a value of Python, and `_returnData` a
value of Python of what a read returns.  Whatever the memory holds of the types
that are converted comes back as the same value.
-/

namespace EMS

/-- The values of Python that are not converted as JSON.  A float is its
bits. -/
inductive PyValue where
  | none
  | bool (b : Bool)
  | int (n : Int)
  | float (bits : Int)
  | str (text : List Char)
  deriving DecidableEq

/-- `bytes(val, 'utf-8')` -/
def utf8Bytes (text : List Char) : List UInt8 :=
  text.flatMap String.utf8EncodeChar

/-- `decode('utf-8')`, which raises an exception for bytes that are not
valid. -/
def utf8Text (bytes : List UInt8) : Option (List Char) :=
  bytes.toByteArray.utf8Decode?.map Array.toList

/-- The string that starts with the first of the bytes, which ends at the first
zero. -/
def CString.ofBytes (bytes : List UInt8) : CString where
  bytes := bytes.takeWhile (· ≠ 0)
  terminated := terminated_takeWhile bytes

/-- `_new_EMSval`.  `newval` has one byte more than the text. -/
def newEMSval : PyValue → EMSvalueType
  | .str text =>
    ⟨.string, 0, .ofBytes (utf8Bytes text), (utf8Bytes text).length + 1 + 1⟩
  | .int n => scalar .integer (toInt64 n)
  | .float bits => scalar .float bits
  | .bool b => scalar .boolean (if b then 1 else 0)
  | .none => scalar .undefined 0xdeadbeef

/-- `_returnData` -/
def returnData (emsval : EMSvalueType) : Option PyValue :=
  match emsval.type with
  | .string => (utf8Text emsval.text.bytes).map .str
  | .integer => some (.int emsval.value)
  | .float => some (.float emsval.value)
  | .boolean => some (.bool (emsval.value ≠ 0))
  | .undefined => some .none
  | _ => none

/-- A value of one of the types that Python converts without JSON. -/
structure PlainValue (value : EMSvalueType) :
    Prop extends value.WellFormed where
  notJson : value.type ≠ .json
  integer : value.type = .integer → -2 ^ 63 ≤ value.value ∧ value.value < 2 ^ 63
  utf8 : value.type = .string → ∃ text, value.text.bytes = utf8Bytes text

theorem utf8Text_utf8Bytes (text : List Char) :
    utf8Text (utf8Bytes text) = some text := by
  have decoded : (utf8Bytes text).toByteArray.utf8Decode? = some text.toArray :=
    List.utf8Decode?_utf8Encode
  rw [utf8Text, decoded]
  rfl

theorem CString.ofBytes_bytes (text : CString) :
    CString.ofBytes text.bytes = text := by
  have all : text.bytes.takeWhile (· ≠ 0) = text.bytes := by
    rw [List.takeWhile_eq_self_iff]
    intro byte member
    simpa using text.terminated byte member
  obtain ⟨bytes, terminated⟩ := text
  simp only [CString.ofBytes, CString.mk.injEq]
  exact all

theorem toInt64_eq {n : Int} (lower : -2 ^ 63 ≤ n) (upper : n < 2 ^ 63) :
    toInt64 n = n := by
  apply Int.bmod_eq_of_le <;> omega

/-- What `_new_EMSval` makes is of a plain type. -/
theorem PlainValue.scalar {type : EMSType} {word : Int}
    (isWord : type.IsWord ∨ type = .undefined)
    (boolean : type = .boolean → word = 0 ∨ word = 1)
    (integer : type = .integer → -2 ^ 63 ≤ word ∧ word < 2 ^ 63) :
    PlainValue (scalar type word) := by
  have noText : ¬ type.IsText := by
    rcases isWord with isWord | rfl
    · exact fun text => text.not_word isWord
    · decide
  refine ⟨⟨⟨?_, fun text => absurd text noText⟩, boolean⟩, ?_, integer, ?_⟩
  · constructor
    · rintro rfl
      simp [EMSType.IsWord] at isWord
    · rintro rfl
      simp [EMSType.IsWord] at isWord
  · rintro rfl
    exact noText (.inr rfl)
  · rintro rfl
    exact absurd (.inl rfl) noText

theorem SameContent.scalar {type : EMSType} {word : Int} {value : EMSvalueType}
    (sameType : value.type = type) (noText : ¬ type.IsText)
    (same : type.IsWord → word = value.value) :
    SameContent (scalar type word) value :=
  ⟨sameType.symm, fun text => absurd text noText, same⟩

/-- A value of one of the types comes back as the same value. -/
theorem newEMSval_returnData {value : EMSvalueType} (plain : PlainValue value)
    (short : value.type.IsText → value.text.bytes.length + 34 < 2 ^ 64) :
    ∃ val, returnData value = some val ∧ SameContent (newEMSval val) value ∧
      PlainValue (newEMSval val) := by
  cases type : value.type with
  | invalid => exact absurd type plain.isValue.1
  | unassigned => exact absurd type plain.isValue.2
  | json => exact absurd type plain.notJson
  | boolean =>
      have either := plain.boolean type
      refine ⟨.bool (value.value ≠
        0), by simp [returnData, type], .scalar type (by decide) ?_,
        .scalar (.inl (.inl rfl)) ?_ ?_⟩
      · intro _
        rcases either with zero | one
        · simp [zero]
        · simp [one]
      · intro _
        split
        · exact .inr rfl
        · exact .inl rfl
      · intro wrong
        cases wrong
  | integer =>
      obtain ⟨lower, upper⟩ := plain.integer type
      have word := toInt64_eq lower upper
      refine
        ⟨.int
          value.value, by simp [returnData, type], .scalar type (by decide) fun _ => word,
        .scalar (.inl (.inr (.inl rfl))) ?_ ?_⟩
      · intro wrong
        cases wrong
      · intro _
        rw [word]
        exact ⟨lower, upper⟩
  | float =>
      refine
        ⟨.float
          value.value, by simp [returnData, type], .scalar type (by decide) fun _ => rfl,
        .scalar (.inl (.inr (.inr rfl))) ?_ ?_⟩
      · intro wrong
        cases wrong
      · intro wrong
        cases wrong
  | undefined =>
      refine
        ⟨.none, by simp [returnData, type], .scalar type (by decide) fun isWord => ?_,
        .scalar (.inr rfl) ?_ ?_⟩
      · exact absurd isWord (by decide)
      · intro wrong
        cases wrong
      · intro wrong
        cases wrong
  | string =>
      obtain ⟨text, bytes⟩ := plain.utf8 type
      have decoded : utf8Text value.text.bytes = some text := by
        rw [bytes, utf8Text_utf8Bytes]
      have same : CString.ofBytes (utf8Bytes text) = value.text := by
        rw [← bytes, CString.ofBytes_bytes]
      refine
        ⟨.str
          text, by simp [returnData, type, decoded], ⟨type.symm, fun _ => same, ?_⟩, ?_⟩
      · intro isWord
        exact absurd isWord (EMSType.IsText.not_word (.inl rfl))
      · refine ⟨⟨⟨⟨?_, ?_⟩, fun _ => ?_⟩, ?_⟩, ?_, ?_, fun _ => ?_⟩
        · simp [newEMSval]
        · simp [newEMSval]
        · have bounded := short (.inl type)
          rw [bytes] at bounded
          simp only [newEMSval, same, bytes]
          omega
        · intro wrong
          cases wrong
        · simp [newEMSval]
        · intro wrong
          cases wrong
        · exact ⟨text, by simp [newEMSval, same, bytes]⟩

end EMS
