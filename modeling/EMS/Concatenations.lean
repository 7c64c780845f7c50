import EMS.DoubleFormat
import EMS.IntegerLimits
import EMS.RefusedStrings

/-!
# Texts that are composed by fetch-and-add

A branch of `EMSfaa` that makes a string requests memory first, by a formula of
its own, and then lets `sprintf` write there.  What is requested for a number is
40 bytes, and more is written for a double with many digits.
-/

namespace EMS

open SharedProgram Doubles

/-! ## Lengths of texts -/

/-- A character that is a byte of a text. -/
def IsByte (character : Char) : Prop :=
  0 < character.toNat ∧ character.toNat < 256

theorem textOf_length {characters : List Char}
    (bytes : ∀ character ∈ characters, IsByte character) :
    (textOf characters).bytes.length = characters.length := by
  have whole : (characters.map fun character =>
      UInt8.ofNat character.toNat).takeWhile (· ≠ 0) =
      characters.map fun character => UInt8.ofNat character.toNat := by
    rw [List.takeWhile_eq_self_iff]
    intro byte member
    obtain ⟨character, inText, rfl⟩ := List.mem_map.mp member
    obtain ⟨positive, below⟩ := bytes character inText
    rw [decide_eq_true_eq]
    intro zero
    have isZero := congrArg UInt8.toNat zero
    rw [UInt8.toNat_ofNat', Nat.mod_eq_of_lt below] at isZero
    exact positive.ne' isZero
  change List.length (List.takeWhile _ _) = _
  rw [whole, List.length_map]

instance (character : Char) : Decidable (IsByte character) :=
  inferInstanceAs (Decidable (_ ∧ _))

theorem isByte_of_isDigit {character : Char}
    (digit : character.isDigit = true) :
    IsByte character := by
  simp only [Char.isDigit, Bool.and_eq_true, decide_eq_true_eq] at digit
  obtain ⟨low, high⟩ := digit
  have low' : 48 ≤ character.toNat := low
  have high' : character.toNat ≤ 57 := high
  exact ⟨by omega, by omega⟩

theorem isByte_toDigits {n : Nat} : ∀ character ∈ Nat.toDigits 10 n,
    IsByte character :=
  fun _ member =>
    isByte_of_isDigit (Nat.isDigit_of_mem_toDigits (by decide)
      (by decide) member)

private theorem isByte_sixDigits {n : Nat} : ∀ character ∈ sixDigits n,
    IsByte character := by
  intro character member
  obtain ⟨place, -, rfl⟩ := List.mem_map.mp member
  apply isByte_of_isDigit
  rw [Nat.isDigit_digitChar, decide_eq_true_eq]
  exact Nat.mod_lt _ (by decide)

theorem isByte_append {first second : List Char}
    (left : ∀ character ∈ first, IsByte character)
    (right : ∀ character ∈ second, IsByte character) :
    ∀ character ∈ first ++ second, IsByte character :=
  List.forall_mem_append.mpr ⟨left, right⟩

theorem isByte_formatMillionths {n : Nat} :
    ∀ character ∈ formatMillionths n, IsByte character := by
  apply isByte_append isByte_toDigits
  rw [List.forall_mem_cons]
  exact ⟨by decide, isByte_sixDigits⟩

theorem isByte_formatSign {sign : Float.Model.UnpackedFloat.Sign} :
    ∀ character ∈ formatSign sign, IsByte character := by
  cases sign with
  | positive => exact nofun
  | negative =>
      rw [formatSign, List.forall_mem_singleton]
      decide

private theorem isByte_formatLf {x : Float} : ∀ character ∈ formatLf x,
    IsByte character := by
  rw [formatLf]
  split
  · simp [IsByte]
  · exact isByte_append isByte_formatSign (by simp [IsByte])
  · exact isByte_append isByte_formatSign isByte_formatMillionths
  · exact isByte_append isByte_formatSign isByte_formatMillionths

theorem formatInt_length {k : Int} (range : InInt64 k) :
    (formatInt k).bytes.length ≤ 20 := by
  rw [InInt64] at range
  have digits : ∀ n : Nat, n ≤ 2 ^ 63 → (Nat.toDigits 10 n).length ≤ 19 := by
    intro n small
    rw [Nat.length_toDigits_le_iff (by decide) (by decide)]
    omega
  rw [formatInt, Int.toString_eq_repr, Int.repr_eq_if]
  split
  · next nonneg =>
      rw [Nat.toList_repr, textOf_length isByte_toDigits]
      have few := digits k.toNat (by omega)
      omega
  · next negative =>
      have few := digits (-k).toNat (by omega)
      have sign : IsByte '-' := by decide
      rw [String.toList_append, Nat.toList_repr, textOf_length,
        List.length_append]
      · have one : "-".toList.length = 1 := rfl
        omega
      · exact isByte_append (by simpa using sign) isByte_toDigits

/-! ## What a branch requests and writes -/

section Concatenation

variable [CRuntime] {patience : Nat} {idx : Int} {type : EMSType}
  {value : EMSvalueType}
  {ledger after : Ledger}

/-- The bytes that the branch of the two types requests, and the text that it
composes from the word or the text in the element. -/
def concatenation (type : EMSType) (word : Int) (old : CString)
    (value : EMSvalueType) :
    Option (Nat × CString) :=
  match type, value.type with
  | .boolean, .string => some (value.length + 1 + 5,
      (textOf (if word ≠ 0 then "true" else "false").toList).append value.text)
  | .integer, .string => some (value.length + 1 + MAX_NUMBER2STR_LEN,
      (formatInt word).append value.text)
  | .float, .string => some (value.length + 1 + MAX_NUMBER2STR_LEN,
      (CRuntime.format word).append value.text)
  | .undefined, .string =>
      some (value.length + 1 + 3, (textOf "NaN".toList).append value.text)
  | .string, _ => (faaSuffix old.bytes.length value).map fun suffix =>
      (suffix.1, old.append suffix.2)
  | _, _ => none

/-- The text has been written where the heap has served the request, and the
element has got its address. -/
def Composed (idx : Int) (len : Nat) (text : CString)
    (ledger after : Ledger) : Prop :=
  ∃ address mem, emsMem_alloc ledger.buf.mem len = .ok (address, mem) ∧
    0 ≤ address ∧
    after.buf.word (EMSdataCell idx) = address ∧
    after.buf.heap = writeText ledger.buf.heap address text.bytes

omit [CRuntime] in
private theorem storeText_composed {len : Nat} {compose : EmsProg CString}
    {text : CString}
    (composes : ∀ mem address, heapSolo.Returns compose
      (ledger.allocated len address mem) text
      (ledger.allocated len address mem))
    (returned : heapSolo.Returns (storeText patience idx len compose) ledger
      (.ok ()) after) :
    Composed idx len text ledger after := by
  obtain ⟨address, between, requested, continued⟩ :=
    Solo.returns_bind_iff.mp returned
  obtain ⟨mem, answer, rfl⟩ := emsMutexMem_alloc_returns requested
  split at continued
  · cases (Solo.returns_ret_iff.mp continued).1
  · next positive =>
      have placing := (composes mem address).bind_iff.mp continued
      have copied := copyToHeap_returns placing
      rw [store_returns] at copied
      obtain ⟨-, rfl⟩ := Solo.returns_ret_iff.mp copied
      exact ⟨address, mem, answer, by omega, by simp, by simp⟩

omit [CRuntime] in
theorem stored_composed {len : Nat} {compose : EmsProg CString}
    {text : CString} {α : Type}
    {result : EMSType} {f : EMSType → α} {sum : α}
    (composes : ∀ mem address, heapSolo.Returns compose
      (ledger.allocated len address mem) text
      (ledger.allocated len address mem))
    (returned : heapSolo.Returns (do
      let sum ← (do
        let stored ← storeText patience idx len compose
        return stored.map fun _ => result : EmsProg (Except EMSError EMSType))
      return sum.map f) ledger (.ok sum) after) :
        Composed idx len text ledger after := by
  obtain ⟨summed, between, storing, ended⟩ := Solo.returns_bind_iff.mp returned
  obtain ⟨isSum, rfl⟩ := Solo.returns_ret_iff.mp ended
  obtain ⟨stored, written, writing, ended⟩ := Solo.returns_bind_iff.mp storing
  obtain ⟨rfl, rfl⟩ := Solo.returns_ret_iff.mp ended
  cases stored with
  | error error => cases isSum
  | ok _ => exact storeText_composed composes writing

/-- An appended text is written elsewhere, and the old one given back. -/
private theorem faaString_composed {len : Nat} {old suffix : CString}
    {sum : CString × EMSType}
    (isOld : HeapHolds ledger.buf.heap
      (ledger.buf.word (EMSdataCell idx)) old.bytes)
    (suffixed : faaSuffix old.bytes.length value = some (len, suffix))
    (returned : heapSolo.Returns (faaString patience idx value) ledger
      (.ok sum) after) :
    Composed idx len (old.append suffix) ledger after := by
  rw [faaString, load_returns] at returned
  obtain ⟨length, between, measured, continued⟩ :=
    Solo.returns_bind_iff.mp returned
  obtain ⟨rfl, text, holds, rfl⟩ := heapStrlen_returns measured
  obtain rfl := holds.unique isOld
  obtain ⟨copy, between, copied, ended⟩ :=
    Solo.returns_bind_iff.mp (guarded_returns continued)
  obtain ⟨rfl, -⟩ := copyFromHeap_returns copied
  simp only [suffixed] at ended
  obtain ⟨address, allocated, requested, storing⟩ :=
    Solo.returns_bind_iff.mp ended
  obtain ⟨mem, answer, rfl⟩ := emsMutexMem_alloc_returns requested
  split at storing
  · cases (Solo.returns_ret_iff.mp storing).1
  · next positive =>
      obtain ⟨again, composed, copied, placing⟩ :=
        Solo.returns_bind_iff.mp storing
      obtain ⟨rfl, holds'⟩ := copyFromHeap_returns copied
      obtain rfl := holds'.unique holds
      obtain ⟨_, -, freed⟩ :=
        emsMutexMem_free_returns (copyToHeap_returns placing)
      rw [store_returns] at freed
      obtain ⟨-, rfl⟩ := Solo.returns_ret_iff.mp freed
      exact ⟨address, mem, answer, by omega, by simp, by simp⟩

/-- A branch that composes a text has requested the bytes and written the
text. -/
theorem faaElement_composed {len : Nat} {text old : CString}
    {sum : EMSvalueType × EMSType}
    (isOld : type = .string →
      HeapHolds ledger.buf.heap (ledger.buf.word (EMSdataCell idx)) old.bytes)
    (isText : concatenation type (ledger.buf.word (EMSdataCell idx)) old value =
      some (len, text))
    (returned : heapSolo.Returns (faaElement patience idx type value) ledger
      (.ok sum) after) :
    Composed idx len text ledger after := by
  cases type with
  | boolean =>
      cases isString : value.type with
      | string =>
          simp only [concatenation, isString] at isText
          obtain ⟨rfl, rfl⟩ := Prod.mk.inj (Option.some.inj isText)
          simp only [faaElement, faaBoolean, isString, load_returns] at returned
          exact stored_composed (fun mem address => by
            rw [load_returns]; exact .ret) returned
      | _ => simp [concatenation, isString] at isText
  | integer =>
      cases isString : value.type with
      | string =>
          simp only [concatenation, isString] at isText
          obtain ⟨rfl, rfl⟩ := Prod.mk.inj (Option.some.inj isText)
          simp only [faaElement, faaInteger, isString, load_returns] at returned
          exact stored_composed (fun mem address => by
            rw [load_returns]; exact .ret) returned
      | _ => simp [concatenation, isString] at isText
  | float =>
      cases isString : value.type with
      | string =>
          simp only [concatenation, isString] at isText
          obtain ⟨rfl, rfl⟩ := Prod.mk.inj (Option.some.inj isText)
          simp only [faaElement, faaFloat, isString, load_returns] at returned
          exact stored_composed (fun mem address => by
            rw [load_returns]; exact .ret) returned
      | _ => simp [concatenation, isString] at isText
  | undefined =>
      cases isString : value.type with
      | string =>
          simp only [concatenation, isString] at isText
          obtain ⟨rfl, rfl⟩ := Prod.mk.inj (Option.some.inj isText)
          simp only [faaElement, faaUndefined, isString] at returned
          exact stored_composed (fun mem address => .ret) returned
      | _ => simp [concatenation, isString] at isText
  | string =>
      simp only [concatenation] at isText
      obtain ⟨⟨len, suffix⟩, suffixed, isPair⟩ :=
        Option.map_eq_some_iff.mp isText
      obtain ⟨rfl, rfl⟩ := Prod.mk.inj isPair
      simp only [faaElement] at returned
      obtain ⟨summed, between, appending, ended⟩ :=
        Solo.returns_bind_iff.mp returned
      obtain ⟨isSum, rfl⟩ := Solo.returns_ret_iff.mp ended
      cases summed with
      | error error => cases isSum
      | ok pair => exact faaString_composed (isOld rfl) suffixed appending
  | json | invalid | unassigned => simp [concatenation] at isText

end Concatenation

/-! ## What fits -/

/-- The doubles of the machine, with the format of its library. -/
@[reducible] def printfRuntime : CRuntime :=
  { ieeeRuntime with format := fun word => textOf (formatLf (toDouble word)) }

section Fits

local instance libraryRuntime : CRuntime := printfRuntime

/-- Integers have 64 bits, doubles are finite, and a string is not longer than
its value says. -/
structure Printable (type : EMSType) (word : Int)
    (value : EMSvalueType) : Prop where
  integer : type = .integer → InInt64 word
  addedInteger : value.type = .integer → InInt64 value.value
  double : type = .float → ∃ q, HasValue (toDouble word) q
  addedDouble : value.type = .float → ∃ q, HasValue (toDouble value.value) q
  text : value.type = .string → value.text.bytes.length ≤ value.length

/-- A double that is printed has at most 33 digits before the point, the sign
being one of them, and as many more as the string is shorter than its value
says. -/
def FewDigits (type : EMSType) (word : Int) (value : EMSvalueType) : Prop :=
  match type, value.type with
  | .float, .string => ∀ q, HasValue (toDouble word) q →
      HasDigits q (33 + (value.length - value.text.bytes.length))
  | .string, .float => ∀ q, HasValue (toDouble value.value) q → HasDigits q 33
  | _, _ => True

theorem format_length_le_iff {word : Int} {q : ℚ}
    (isValue : HasValue (toDouble word) q) {k : Nat}
    (large : 17 ≤ k) : (CRuntime.format word).bytes.length ≤ k + 7 ↔
      HasDigits q k := by
  change (textOf (formatLf (toDouble word))).bytes.length ≤ k + 7 ↔ _
  rw [textOf_length isByte_formatLf, formatLf_length_le_iff isValue large]

theorem append_length {first second : CString} :
    (first.append second).bytes.length =
      first.bytes.length + second.bytes.length :=
  List.length_append

theorem boolean_length {word : Int} :
    (textOf (if word ≠ 0 then "true" else "false").toList).bytes.length ≤
      5 := by
  split <;> decide

/-- The text of a branch fits in what the branch has requested, unless it prints
a double with too many digits. -/
theorem concatenation_fits {type : EMSType} {word : Int} {old text : CString}
    {value : EMSvalueType} {len : Nat} (printable : Printable type word value)
    (isText : concatenation type word old value = some (len, text)) :
    text.bytes.length + 1 ≤ len ↔ FewDigits type word value := by
  cases type with
  | boolean =>
      cases isString : value.type with
      | string =>
          have short := printable.text isString
          simp only [concatenation, isString] at isText
          obtain ⟨rfl, rfl⟩ := Prod.mk.inj (Option.some.inj isText)
          have few := @boolean_length word
          simp only [append_length, FewDigits]
          exact iff_of_true (by omega) trivial
      | _ => simp [concatenation, isString] at isText
  | integer =>
      cases isString : value.type with
      | string =>
          have short := printable.text isString
          simp only [concatenation, isString] at isText
          obtain ⟨rfl, rfl⟩ := Prod.mk.inj (Option.some.inj isText)
          have few := formatInt_length (printable.integer rfl)
          have most : MAX_NUMBER2STR_LEN = 40 := rfl
          simp only [append_length, FewDigits]
          exact iff_of_true (by omega) trivial
      | _ => simp [concatenation, isString] at isText
  | undefined =>
      cases isString : value.type with
      | string =>
          have short := printable.text isString
          simp only [concatenation, isString] at isText
          obtain ⟨rfl, rfl⟩ := Prod.mk.inj (Option.some.inj isText)
          have few : (textOf "NaN".toList).bytes.length = 3 := by decide
          simp only [append_length, FewDigits]
          exact iff_of_true (by omega) trivial
      | _ => simp [concatenation, isString] at isText
  | float =>
      cases isString : value.type with
      | string =>
          have short := printable.text isString
          simp only [concatenation, isString] at isText
          obtain ⟨rfl, rfl⟩ := Prod.mk.inj (Option.some.inj isText)
          obtain ⟨q, isValue⟩ := printable.double rfl
          have most : MAX_NUMBER2STR_LEN = 40 := rfl
          simp only [append_length, FewDigits, isString]
          rw [isValue.forall_iff, ← format_length_le_iff isValue (by omega)]
          omega
      | _ => simp [concatenation, isString] at isText
  | string =>
      simp only [concatenation] at isText
      obtain ⟨⟨len, suffix⟩, suffixed, isPair⟩ :=
        Option.map_eq_some_iff.mp isText
      obtain ⟨rfl, rfl⟩ := Prod.mk.inj isPair
      have most : MAX_NUMBER2STR_LEN = 40 := rfl
      cases isType : value.type with
      | integer =>
          simp only [faaSuffix, isType] at suffixed
          obtain ⟨rfl, rfl⟩ := Prod.mk.inj (Option.some.inj suffixed)
          have few := formatInt_length (printable.addedInteger isType)
          simp only [append_length, FewDigits, isType]
          exact iff_of_true (by omega) trivial
      | float =>
          simp only [faaSuffix, isType] at suffixed
          obtain ⟨rfl, rfl⟩ := Prod.mk.inj (Option.some.inj suffixed)
          obtain ⟨q, isValue⟩ := printable.addedDouble isType
          simp only [append_length, FewDigits, isType]
          rw [isValue.forall_iff, ← format_length_le_iff isValue (by omega)]
          omega
      | string =>
          simp only [faaSuffix, isType] at suffixed
          obtain ⟨rfl, rfl⟩ := Prod.mk.inj (Option.some.inj suffixed)
          have short := printable.text isType
          simp only [append_length, FewDigits, isType]
          exact iff_of_true (by omega) trivial
      | boolean =>
          simp only [faaSuffix, isType] at suffixed
          obtain ⟨rfl, rfl⟩ := Prod.mk.inj (Option.some.inj suffixed)
          have few := @boolean_length value.value
          simp only [append_length, FewDigits, isType]
          exact iff_of_true (by omega) trivial
      | undefined =>
          simp only [faaSuffix, isType] at suffixed
          obtain ⟨rfl, rfl⟩ := Prod.mk.inj (Option.some.inj suffixed)
          have few : (textOf "undefined".toList).bytes.length = 9 := by decide
          simp only [append_length, FewDigits, isType]
          exact iff_of_true (by omega) trivial
      | _ => simp [faaSuffix, isType] at suffixed
  | json | invalid | unassigned => simp [concatenation] at isText

/-- The branches of `EMSfaa` request the bytes and write the text that are
stated, and the text fits unless a double with too many digits is printed. -/
theorem EMSfaa_text_fits {type : EMSType} {word : Int} {old text : CString}
    {value : EMSvalueType} {len : Nat} (printable : Printable type word value)
    (isText : concatenation type word old value = some (len, text)) :
    (∀ patience idx (ledger after : Ledger) sum,
      ledger.buf.word (EMSdataCell idx) = word →
      (type = .string → HeapHolds ledger.buf.heap word old.bytes) →
      heapSolo.Returns (faaElement patience idx type value) ledger
        (.ok sum) after →
      Composed idx len text ledger after) ∧
    (text.bytes.length + 1 ≤ len ↔ FewDigits type word value) := by
  constructor
  · rintro patience idx ledger after sum rfl isOld returned
    exact faaElement_composed isOld isText returned
  · exact concatenation_fits printable isText

/-- An integer is appended to a string. -/
theorem EMSfaa_text_fits_integer :
    (CString.append .empty (formatInt (-5))).bytes.length + 1 ≤ 41 := by
  have printable : Printable .string 0 (scalar .integer (-5)) :=
    ⟨nofun, fun _ => by decide, nofun, nofun, nofun⟩
  have isText : concatenation .string 0 .empty (scalar .integer (-5)) =
      some (41, CString.append .empty (formatInt (-5))) := rfl
  exact (EMSfaa_text_fits printable isText).2.mpr trivial

/-- The double 2 ^ 120 has 37 digits before the point. -/
theorem not_EMSfaa_text_fits :
    ¬ ∀ (type : EMSType) (word : Int) (old text : CString)
    (value : EMSvalueType) (len : Nat), Printable type word value →
    concatenation type word old value = some (len, text) →
      text.bytes.length + 1 ≤ len := by
  intro always
  have unpacked : (toDouble 0x4770000000000000).toModel.unpack =
      .finite .positive (2 ^ 52) 68 (by decide) := rfl
  have isValue := hasValue_finite unpacked
  have printable : Printable .float 0x4770000000000000
      ⟨.string, 0, .empty, 0⟩ :=
    ⟨nofun, nofun, fun _ => ⟨_, isValue⟩, nofun, fun _ => le_rfl⟩
  have isText : concatenation .float 0x4770000000000000 .empty
      ⟨.string, 0, .empty, 0⟩ =
      some (41, (CRuntime.format 0x4770000000000000).append .empty) := rfl
  have fits :=
    (concatenation_fits printable isText).mp
      (always _ _ _ _ _ _ printable isText)
  have few := (fits _ isValue).2
  norm_num [Float.Model.UnpackedFloat.Sign.apply] at few

end Fits

end EMS
