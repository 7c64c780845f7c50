import EMS.NumberStorage
import EMS.PythonValues

/-!
# Values that two languages exchange

Processes of JavaScript and of Python work on the elements of the same array.
Each binding converts the values of its language to those of the memory and
back, and there are values that one of them stores differently from the other,
or does not give back.  The file says what a value of one language is in the
other, and that an element is read as what was last written to it, whichever
language has written it and whichever reads it.
-/

namespace EMS

open SharedProgram Interleaving Doubles

/-! ## Values of both languages -/

inductive Language where
  | javaScript
  | python
  deriving DecidableEq

/-- What a program of one of the languages passes to its binding, or gets from
it. -/
inductive AppValue where
  | js (value : JsValue)
  | py (value : PyValue)

/-- The values that a process of any language can make sense of. -/
inductive SharedValue where
  | none
  | bool (b : Bool)
  | int (k : Int)
  | double (x : Float)
  | text (chars : List Char)

/-- Two doubles with the same value, or neither of them a number. -/
def SameDouble (x y : Float) : Prop := x.toModel.unpack = y.toModel.unpack

namespace AppValue

def language : AppValue → Language
  | .js _ => .javaScript
  | .py _ => .python

/-- What the value is in terms of both languages.  JavaScript does not tell
integers from other numbers. -/
def Means : AppValue → SharedValue → Prop
  | .js .undefined, .none => True
  | .js (.boolean b), .bool c => b = c
  | .js (.number x), .int k => IsInt x k
  | .js (.number x), .double y => SameDouble x y
  | .js (.string utf8), .text chars => utf8 = utf8Bytes chars
  | .py .none, .none => True
  | .py (.bool b), .bool c => b = c
  | .py (.int n), .int k => n = k
  | .py (.float bits), .double y => SameDouble (toDouble bits) y
  | .py (.str text), .text chars => text = chars
  | _, _ => False

/-- What the binding makes of the value.  It makes nothing of an object. -/
def native : AppValue → EMSvalueType
  | .js value => (NAPI_OBJ_2_EMS_OBJ value false).getD (scalar .undefined 0)
  | .py value => newEMSval value

/-- A value that is stored as what it means.  A number of JavaScript that is an
integer is stored as one, and a string ends at its first zero. -/
structure StoredAs (value : AppValue) (meaning : SharedValue) : Prop where
  means : value.Means meaning
  integer : ∀ k, meaning = .int k → -2 ^ 63 ≤ k ∧ k < 2 ^ 63
  fraction : ∀ x y, value = .js (.number x) → meaning = .double y →
    isInteger x = false
  noZero : ∀ chars, meaning = .text chars → 0 ∉ utf8Bytes chars

end AppValue

/-- What a process of the language gets when it reads the value.  JavaScript
gets 32 bits of an integer. -/
def SharedValue.FitsIn (language : Language) (meaning : SharedValue) : Prop :=
  ∀ k, meaning = .int k → language = .javaScript → -2 ^ 31 ≤ k ∧ k < 2 ^ 31

/-- What the binding of the language makes of a value in memory. -/
def Language.returned (value : EMSvalueType) : Language → Option AppValue
  | .javaScript => (ems2napiReturnValue value).map .js
  | .python => (returnData value).map .py

/-- The value in memory is one of both languages. -/
def EMSvalueType.IsShared (value : EMSvalueType) : SharedValue → Prop
  | .none => value.type = .undefined
  | .bool b => value.type = .boolean ∧ decide (value.value ≠ 0) = b
  | .int k => value.type = .integer ∧ value.value = k
  | .double x => value.type = .float ∧ SameDouble (toDouble value.value) x
  | .text chars => value.type = .string ∧ value.text.bytes = utf8Bytes chars

/-! ## The conversions -/

theorem takeWhile_noZero {bytes : List UInt8} (noZero : 0 ∉ bytes) :
    bytes.takeWhile (· ≠ 0) = bytes := by
  rw [List.takeWhile_eq_self_iff]
  intro byte member
  simp only [decide_eq_true_eq]
  rintro rfl
  exact noZero member

private theorem sameDouble_ofDouble {x y : Float} (same : SameDouble x y) :
    SameDouble (toDouble (ofDouble x)) y :=
  (toDouble_ofDouble x).trans same

/-- What a binding makes of a value is what the value means. -/
theorem AppValue.StoredAs.isShared {value : AppValue} {meaning : SharedValue}
    (stored : value.StoredAs meaning) : value.native.IsShared meaning := by
  obtain ⟨means, integer, fraction, noZero⟩ := stored
  cases value with
  | js value =>
      cases value with
      | undefined =>
          cases meaning <;> first | exact means.elim | rfl
      | boolean b =>
          cases meaning with
          | bool c =>
              obtain rfl : b = c := means
              cases b <;> exact ⟨rfl, rfl⟩
          | _ => exact means.elim
      | number x =>
          cases meaning with
          | int k =>
              obtain ⟨lower, upper⟩ := integer k rfl
              have isInt : IsInt x k := means
              rw [native, integer_2_ems isInt lower upper]
              exact ⟨rfl, rfl⟩
          | double y =>
              have same : SameDouble (toDouble (ofDouble x)) y :=
                sameDouble_ofDouble means
              have asDouble : native (.js (.number x)) =
                  scalar .float (ofDouble x) := by
                simp [native, number_2_ems, fraction x y rfl rfl]
              rw [asDouble]
              generalize ofDouble x = word at same ⊢
              exact ⟨rfl, same⟩
          | _ => exact means.elim
      | string utf8 =>
          cases meaning with
          | text chars =>
              obtain rfl : utf8 = utf8Bytes chars := means
              exact ⟨rfl, takeWhile_noZero (noZero chars rfl)⟩
          | _ => exact means.elim
      | object data => cases meaning <;> exact means.elim
  | py value =>
      cases value with
      | none =>
          cases meaning <;> first | exact means.elim | rfl
      | bool b =>
          cases meaning with
          | bool c =>
              obtain rfl : b = c := means
              cases b <;> exact ⟨rfl, rfl⟩
          | _ => exact means.elim
      | int n =>
          cases meaning with
          | int k =>
              obtain rfl : n = k := means
              obtain ⟨lower, upper⟩ := integer n rfl
              have word : (native (.py (.int n))).value = toInt64 n := rfl
              refine ⟨rfl, ?_⟩
              rw [word, toInt64_eq lower upper]
          | _ => exact means.elim
      | float bits =>
          cases meaning with
          | double y => exact ⟨rfl, means⟩
          | _ => exact means.elim
      | str text =>
          cases meaning with
          | text chars =>
              obtain rfl : text = chars := means
              exact ⟨rfl, takeWhile_noZero (noZero text rfl)⟩
          | _ => exact means.elim

theorem EMSvalueType.IsShared.congr {first second : EMSvalueType}
    {meaning : SharedValue}
    (same : SameContent first second) (shared : second.IsShared meaning) :
    first.IsShared meaning := by
  obtain ⟨type, text, word⟩ := same
  cases meaning with
  | none => exact type.trans shared
  | bool b =>
      have isBool := type.trans shared.1
      exact ⟨isBool, by rw [word (.inl isBool)]; exact shared.2⟩
  | int k =>
      have isInt := type.trans shared.1
      exact ⟨isInt, (word (.inr (.inl isInt))).trans shared.2⟩
  | double x =>
      have isFloat := type.trans shared.1
      exact ⟨isFloat, by rw [word (.inr (.inr isFloat))]; exact shared.2⟩
  | text chars =>
      have isString := type.trans shared.1
      exact ⟨isString, by rw [text (.inl isString)]; exact shared.2⟩

/-- Each language gets what the value is, if it fits. -/
theorem EMSvalueType.IsShared.returned {value : EMSvalueType}
    {meaning : SharedValue}
    (shared : value.IsShared meaning) {language : Language}
    (fits : meaning.FitsIn language) :
    ∃ result, language.returned value = some result ∧
      result.language = language ∧
      result.Means meaning := by
  cases language with
  | javaScript =>
      cases meaning with
      | none =>
          have type : value.type = .undefined := shared
          exact
            ⟨.js
              .undefined, by simp [Language.returned, ems2napiReturnValue, type], rfl, trivial⟩
      | bool b =>
          exact ⟨.js (.boolean (value.value ≠ 0)),
            by simp [Language.returned, ems2napiReturnValue, shared.1], rfl, shared.2⟩
      | int k =>
          obtain ⟨type, word⟩ := shared
          obtain ⟨lower, upper⟩ := fits k rfl rfl
          refine ⟨.js (.number (Float.ofInt (toInt32 value.value))),
            by simp [Language.returned, ems2napiReturnValue, type], rfl, ?_⟩
          rw [word, toInt32_eq lower upper]
          exact isInt_ofInt (representable_of_le (by omega))
      | double x =>
          exact ⟨.js (.number (toDouble value.value)),
            by simp [Language.returned, ems2napiReturnValue, shared.1], rfl, shared.2⟩
      | text chars =>
          exact ⟨.js (.string value.text.bytes),
            by simp [Language.returned, ems2napiReturnValue, shared.1], rfl, shared.2⟩
  | python =>
      cases meaning with
      | none =>
          have type : value.type = .undefined := shared
          exact ⟨.py
            .none, by simp [Language.returned, returnData, type], rfl, trivial⟩
      | bool b =>
          exact ⟨.py (.bool (value.value ≠ 0)),
            by simp [Language.returned, returnData, shared.1], rfl, shared.2⟩
      | int k =>
          exact ⟨.py (.int value.value),
            by simp [Language.returned, returnData, shared.1], rfl, shared.2⟩
      | double x =>
          exact ⟨.py (.float value.value),
            by simp [Language.returned, returnData, shared.1], rfl, shared.2⟩
      | text chars =>
          obtain ⟨type, bytes⟩ := shared
          refine ⟨.py (.str chars), ?_, rfl, rfl⟩
          simp [Language.returned, returnData, type, bytes, utf8Text_utf8Bytes]

/-! ## Calls -/

inductive Writing where
  | write
  | writeEF
  | writeXF
  | writeXE

/-- The states between which a write changes the tag. -/
def Writing.initialFE : Writing → Option FE
  | .writeEF => some .empty
  | .write | .writeXF | .writeXE => none

def Writing.finalFE : Writing → Option FE
  | .write => none
  | .writeEF | .writeXF => some .full
  | .writeXE => some .empty

section Calls

variable [CRuntime] (patience : Nat) (array : EmsArray)

/-- A call of the binding for JavaScript that writes. -/
def NodeJSwriteWith
    (write : EMSvalueType → EMSvalueType → EmsProg (Except EMSError Unit))
    (key value : JsValue) (stringIsJSON : Bool) : EmsProg (Option JsValue) :=
  match NAPI_OBJ_2_EMS_OBJ key false, NAPI_OBJ_2_EMS_OBJ value stringIsJSON with
  | some key, some value => do
      let returnValue ← write key value
      return some (.boolean returnValue.isOk)
  | _, _ => pure none

def NodeJSwrite (key value : JsValue) (stringIsJSON : Bool) :
    EmsProg (Option JsValue) :=
  NodeJSwriteWith (EMSwrite patience array) key value stringIsJSON

def NodeJSwriteEF (key value : JsValue) (stringIsJSON : Bool) :
    EmsProg (Option JsValue) :=
  NodeJSwriteWith (EMSwriteEF patience array) key value stringIsJSON

def NodeJSwriteXE (key value : JsValue) (stringIsJSON : Bool) :
    EmsProg (Option JsValue) :=
  NodeJSwriteWith (EMSwriteXE patience array) key value stringIsJSON

def Writing.javaScript (key value : JsValue) (stringIsJSON : Bool) :
    Writing → EmsProg (Option JsValue)
  | .write => NodeJSwrite patience array key value stringIsJSON
  | .writeEF => NodeJSwriteEF patience array key value stringIsJSON
  | .writeXF => NodeJSwriteXF patience array key value stringIsJSON
  | .writeXE => NodeJSwriteXE patience array key value stringIsJSON

theorem Writing.javaScript_eq (kind : Writing) {key value : JsValue}
    {stringIsJSON : Bool} :
    kind.javaScript patience array key value stringIsJSON = NodeJSwriteWith
      (fun key value =>
        EMSwriteUsingTags patience array key value kind.initialFE kind.finalFE)
      key value stringIsJSON := by
  cases kind <;> rfl

/-! ### Methods of the Python class -/

namespace PythonArray

/-- `_idx`, of what is not a list. -/
def idx (indexes : PyValue) : PyValue :=
  match indexes with
  | .int n => .int n
  | _ => if array.isMapped then indexes else .int (-1)

/-- A method that writes.  It does not look at whether the native call has
failed. -/
def writeWith (write : EMSvalueType → EMSvalueType → EmsProg
    (Except EMSError Unit))
    (indexes value : PyValue) : EmsProg Unit := do
  let _ ← write (newEMSval (idx array indexes)) (newEMSval value)
  return ()

def write (indexes value : PyValue) : EmsProg Unit :=
  writeWith array (EMSwrite patience array) indexes value

def writeEF (indexes value : PyValue) : EmsProg Unit :=
  writeWith array (EMSwriteEF patience array) indexes value

def writeXF (indexes value : PyValue) : EmsProg Unit :=
  writeWith array (EMSwriteXF patience array) indexes value

def writeXE (indexes value : PyValue) : EmsProg Unit :=
  writeWith array (EMSwriteXE patience array) indexes value

/-- A method that reads.  When the native call fails, the value that it was to
fill in is of no type that holds a value. -/
def readWith (read : EMSvalueType → EmsProg (Except EMSError EMSvalueType))
    (indexes : PyValue) : EmsProg (Option PyValue) := do
  let val ← read (newEMSval (idx array indexes))
  match val with
  | .error _ => return some .none
  | .ok val => do
      let val ← textInHeap patience val
      return returnData val

def read (stack : Tag) (indexes : PyValue) : EmsProg (Option PyValue) :=
  readWith patience array (EMSread patience array stack) indexes

def readFE (stack : Tag) (indexes : PyValue) : EmsProg (Option PyValue) :=
  readWith patience array (EMSreadFE patience array stack) indexes

def readFF (stack : Tag) (indexes : PyValue) : EmsProg (Option PyValue) :=
  readWith patience array (EMSreadFF patience array stack) indexes

def readRW (stack : Tag) (indexes : PyValue) : EmsProg (Option PyValue) :=
  readWith patience array (EMSreadRW patience array stack) indexes

end PythonArray

def Writing.python (indexes value : PyValue) : Writing → EmsProg Unit
  | .write => PythonArray.write patience array indexes value
  | .writeEF => PythonArray.writeEF patience array indexes value
  | .writeXF => PythonArray.writeXF patience array indexes value
  | .writeXE => PythonArray.writeXE patience array indexes value

theorem Writing.python_eq (kind : Writing) {indexes value : PyValue} :
    kind.python patience array indexes value = PythonArray.writeWith array
      (fun key value =>
        EMSwriteUsingTags patience array key value kind.initialFE kind.finalFE)
      indexes value := by
  cases kind <;> rfl

def Reading.python (stack : Tag) (indexes : PyValue) :
    Reading → EmsProg (Option PyValue)
  | .read => PythonArray.read patience array stack indexes
  | .readFE => PythonArray.readFE patience array stack indexes
  | .readFF => PythonArray.readFF patience array stack indexes
  | .readRW => PythonArray.readRW patience array stack indexes

theorem Reading.python_eq (kind : Reading) {stack : Tag} {indexes : PyValue} :
    kind.python patience array stack indexes =
      PythonArray.readWith patience array
      (fun key =>
        EMSreadUsingTags patience array stack key kind.initialFE kind.finalFE)
      indexes := by
  cases kind <;> rfl

end Calls

/-! ## The specification -/

/-- What processes of both languages do with the elements. -/
inductive ExchangeOp where
  | write (kind : Writing) (idx : Int) (value : AppValue)
  | read (language : Language) (kind : Reading) (idx : Int)

namespace ExchangeOp

def code [CRuntime] (array : EmsArray) (stack : Tag) (op : ExchangeOp)
    (patience : Nat) :
    EmsProg (Option AppValue) :=
  match op with
  | write kind idx (.js value) =>
      Option.map .js <$> kind.javaScript patience array
        (.number (Float.ofInt idx)) value false
  | write kind idx (.py value) =>
      (fun _ => none) <$> kind.python patience array (.int idx) value
  | read .javaScript kind idx =>
      Option.map .js <$> kind.code patience array stack
        (.number (Float.ofInt idx))
  | read .python kind idx =>
      Option.map .py <$> kind.python patience array stack (.int idx)

def idx : ExchangeOp → Int
  | write _ idx _ | read _ _ idx => idx

/-- The index is in range.  An object of JavaScript is passed as JSON, and a
read lock stays with who has it: both are left out here. -/
structure Valid (array : EmsArray) (op : ExchangeOp) : Prop where
  inside : 0 ≤ op.idx
  below : op.idx < array.nElem
  noObject : ∀ kind idx data, op ≠ .write kind idx (.js (.object data))
  short : ∀ kind idx value, op = .write kind idx value →
    value.native.length + 32 < 2 ^ 64
  noLock : ∀ language idx, op ≠ .read language .readRW idx

/-- The values that were written last. -/
def effect (values : Int → AppValue) : ExchangeOp → Int → AppValue
  | write _ idx value => Function.update values idx value
  | read _ _ _ => values

/-- A read gives what the value that was written last means. -/
def Answers (values : Int → AppValue) (op : ExchangeOp)
    (res : Option AppValue) : Prop :=
  match op with
  | write _ _ (.js _) => res = some (.js (.boolean true))
  | write _ _ (.py _) => res = none
  | read language _ idx => ∀ meaning, (values idx).StoredAs meaning →
        meaning.FitsIn language →
      ∃ result, res = some result ∧ result.language = language ∧
        result.Means meaning

end ExchangeOp

/-- What was written last after a sequence of calls.  The elements are undefined
at first. -/
def valuesAfter (calls : List (ExchangeOp × Option AppValue)) :
    Int → AppValue :=
  calls.foldl (fun values call => call.1.effect values) fun _ => .py .none

/-- The values in memory. -/
def nativeStore (values : Int → AppValue) : Store := fun i => (values i).native

/-! ## Calls one after the other -/

section Alone

theorem length_takeWhile_le (bytes : List UInt8) :
    (bytes.takeWhile (· ≠ 0)).length ≤ bytes.length :=
  (List.takeWhile_sublist _).length_le

theorem wellFormed_scalar {type : EMSType} {word : Int} (isValue : IsValue type)
    (noText : ¬ type.IsText) (boolean : type = .boolean → word = 0 ∨ word = 1) :
    (scalar type word).WellFormed :=
  ⟨⟨isValue, fun text => absurd text noText⟩, boolean⟩

theorem wellFormed_boolean (b : Bool) :
    (scalar .boolean (if b then 1 else 0)).WellFormed := by
  apply wellFormed_scalar
  · decide
  · decide
  · cases b <;> simp

theorem wellFormed_number {type : EMSType} (isNumber : type.IsNumber)
    (word : Int) :
    (scalar type word).WellFormed := by
  rcases isNumber with rfl | rfl <;>
    exact wellFormed_scalar (by decide) (by decide) (by simp)

theorem wellFormed_undefined (word : Int) :
    (scalar .undefined word).WellFormed :=
  wellFormed_scalar (by decide) (by decide) (by simp)

theorem wellFormed_string {text : CString} {length : Nat}
    (fits : text.bytes.length ≤ length)
    (short : length + 32 < 2 ^ 64) :
    (⟨.string, 0, text, length⟩ : EMSvalueType).WellFormed :=
  ⟨⟨by constructor <;> simp, fun _ => ⟨fits, short⟩⟩, by simp⟩

theorem AppValue.native_wellFormed {value : AppValue}
    (short : value.native.length + 32 < 2 ^ 64) : value.native.WellFormed := by
  cases value with
  | js value =>
      cases value with
      | boolean b => exact wellFormed_boolean b
      | number x =>
          simp only [native, number_2_ems, Option.getD_some]
          split
          · exact wellFormed_number (.inl rfl) _
          · exact wellFormed_number (.inr rfl) _
      | string utf8 =>
          exact wellFormed_string
            ((length_takeWhile_le utf8).trans (Nat.le_succ _)) short
      | undefined | object data => exact wellFormed_undefined _
  | py value =>
      cases value with
      | none => exact wellFormed_undefined _
      | bool b => exact wellFormed_boolean b
      | int n => exact wellFormed_number (.inl rfl) _
      | float bits => exact wellFormed_number (.inr rfl) _
      | str text =>
          refine wellFormed_string ((length_takeWhile_le _).trans ?_) short
          exact (Nat.le_succ _).trans (Nat.le_succ _)

/-- What holds between calls. -/
abbrev ExchangeInvariant (array : EmsArray) (level : Nat)
    (values : Int → AppValue)
    (ledger : Ledger) : Prop :=
  StoreInvariant array level (nativeStore values) ledger

theorem nativeStore_update (values : Int → AppValue) (i : Int)
    (value : AppValue) :
    nativeStore (Function.update values i value) =
      Function.update (nativeStore values) i value.native := by
  funext j
  by_cases same : j = i
  · subst same
    simp [nativeStore]
  · simp [nativeStore, same]

variable {array : EmsArray} {level : Nat} {values : Int → AppValue}
  {ledger : Ledger}
  {patience : Nat} {idx : Nat}

theorem returned_of_stored {value : EMSvalueType}
    {language : Language} {i : Int}
    (same : SameContent value (values i).native) {meaning : SharedValue}
    (stored : (values i).StoredAs meaning) (fits : meaning.FitsIn language) :
    ∃ result, language.returned value = some result ∧
      result.language = language ∧
      result.Means meaning :=
  (stored.isShared.congr same).returned fits

theorem index_2_ems (below : (idx : Int) < array.nElem)
    (exact : array.nElem ≤ 2 ^ 53) :
    NAPI_OBJ_2_EMS_OBJ (.number (Float.ofInt idx)) false =
      some (scalar .integer idx) :=
  integer_2_ems (isInt_ofInt (representable_of_le (by omega))) (by omega)
    (by omega) false

theorem newEMSval_index (below : (idx : Int) < array.nElem)
    (exact : array.nElem ≤ 2 ^ 53) :
    newEMSval (PythonArray.idx array (.int idx)) = scalar .integer idx := by
  rw [PythonArray.idx, newEMSval, toInt64_eq (by omega) (by omega)]

private theorem value_2_ems {value : JsValue}
    (noObject : ∀ data, value ≠ .object data) :
    NAPI_OBJ_2_EMS_OBJ value false = some (AppValue.js value).native := by
  cases value with
  | object data => exact absurd rfl (noObject data)
  | undefined | boolean b | number x | string utf8 => rfl

private theorem textInHeap_ends {value stored : EMSvalueType}
    (reads : Reads ledger.buf.heap value stored) :
    ledgerSolo.Ends (fun copied after => SameContent copied stored ∧
      after = ledger)
      (textInHeap patience value) ledger := by
  obtain ⟨type, text, word⟩ := reads
  rw [← type] at text word
  have sameWord : ¬ value.type.IsText → SameContent value stored :=
    fun noText =>
    ⟨type, fun isText => absurd isText noText, word⟩
  cases kind : value.type with
  | string | json =>
      have isText : value.type.IsText := by simp [kind, EMSType.IsText]
      obtain ⟨-, string⟩ := text isText
      simp only [textInHeap, kind]
      apply Yields.account
        (copyFromHeap_yields string (fun _ _ _ => trivial) fun _ => trivial)
      refine ⟨⟨kind.symm.trans type, fun _ => rfl, fun isWord => ?_⟩, rfl⟩
      simp [EMSType.IsWord] at isWord
  | boolean | integer | float | undefined | invalid | unassigned =>
      simp only [textInHeap, kind]
      exact ⟨sameWord (by simp [kind, EMSType.IsText]), rfl⟩

theorem InitialStore.exchange (initially : InitialStore array level ledger) :
    ExchangeInvariant array level (valuesAfter []) ledger := by
  obtain ⟨undefined, mutex, heap, live, sound⟩ := initially
  refine ⟨⟨⟨mutex, .unused, ?_⟩, sound, fun _ => [], ?_, ?_⟩,
    ⟨fun i boolean => ?_⟩⟩
  · rw [heap, live]
    exact HeapShape.fresh level
  · intro i below
    exact ⟨undefined i (Int.natCast_nonneg i) below, rfl⟩
  · simp [live]
  · cases boolean

variable [CRuntime]

private theorem nativeWrite_ends (small : EMS_MEM_BLOCKSZ * 2 ^ level < 2 ^ 63)
    (unmapped : array.isMapped = false)
    (invariant : ExchangeInvariant array level values ledger)
    (below : (idx : Int) < array.nElem) {value : AppValue}
    (short : value.native.length + 32 < 2 ^ 64)
    {initialFE finalFE : Option FE} :
    ledgerSolo.Ends (fun res after => res = .ok () ∧
        ExchangeInvariant array level (Function.update values idx value) after)
      (EMSwriteUsingTags patience array
        (scalar .integer idx) value.native initialFE finalFE)
      ledger := by
  have wellFormed := AppValue.native_wellFormed short
  apply (EMSwriteUsingTags_alone small unmapped wellFormed.toSized
    invariant.holds below).mono
  intro res after wrote
  refine ⟨wrote.ok, ?_, ?_⟩
  · rw [nativeStore_update]
    exact wrote.holds
  · rw [nativeStore_update]
    constructor
    intro i
    by_cases same : i = idx
    · subst same
      simpa using wellFormed.boolean
    · simpa [same] using invariant.valid.boolean i

theorem nativeRead_ends {β : Type} {convert : EMSvalueType → β}
    {rest : Except EMSError EMSvalueType → EmsProg β}
    (unmapped : array.isMapped = false)
    (invariant : ExchangeInvariant array level values ledger)
    (below : (idx : Int) < array.nElem) {stack : Tag} {kind : Reading}
    (noLock : kind ≠ .readRW)
    (converts : ∀ value, rest (.ok value) =
      textInHeap patience value >>= fun value => pure (convert value)) :
    ledgerSolo.Ends (fun res after =>
      (∃ value, SameContent value (values idx).native ∧
        res = convert value) ∧ ExchangeInvariant array level values after)
      (EMSreadUsingTags patience array stack
        (scalar .integer idx) kind.initialFE kind.finalFE >>=
        rest) ledger := by
  have noLock' : kind.initialFE ≠ some .rwLock := by
    cases kind with
    | readRW => exact absurd rfl noLock
    | read | readFE | readFF => decide
  apply Solo.Ends.bind
  apply (EMSreadUsingTags_alone unmapped invariant.holds invariant.valid below
    noLock').mono
  rintro _ after ⟨⟨value, rfl, reads⟩, holds⟩
  rw [converts]
  apply Solo.Ends.bind
  apply (textInHeap_ends reads).mono
  rintro copied _ ⟨same, rfl⟩
  exact ⟨⟨copied, same, rfl⟩, holds, invariant.valid⟩

/-- A call answers by the values that were written last, and writes its own. -/
theorem ExchangeOp.alone (small : EMS_MEM_BLOCKSZ * 2 ^ level < 2 ^ 63)
    (unmapped : array.isMapped = false) (exact : array.nElem ≤ 2 ^ 53)
    (invariant : ExchangeInvariant array level values ledger) {op : ExchangeOp}
    (allowed : op.Valid array) {stack : Tag} :
    ledgerSolo.Ends (fun res after => op.Answers values res ∧
        ExchangeInvariant array level (op.effect values) after)
      (op.code array stack patience) ledger := by
  obtain ⟨inside, below, noObject, short, noLock⟩ := allowed
  obtain ⟨idx, named⟩ := Int.eq_ofNat_of_zero_le inside
  rw [named] at below
  cases op with
  | write kind i value =>
      obtain rfl : i = idx := named
      have writes :=
        @nativeWrite_ends array level values ledger patience idx _
          small unmapped
        invariant below value (short kind idx value rfl) kind.initialFE
          kind.finalFE
      cases value with
      | js value =>
          have isObject : ∀ data, value ≠ .object data := by
            rintro data rfl
            exact noObject kind idx data rfl
          have converted := value_2_ems isObject
          simp only [code, Writing.javaScript_eq, NodeJSwriteWith,
            index_2_ems below exact,
            converted, map_eq_pure_bind]
          apply Solo.Ends.bind
          apply Solo.Ends.bind
          apply writes.mono
          rintro _ after ⟨rfl, stored⟩
          exact ⟨rfl, stored⟩
      | py value =>
          simp only [code, Writing.python_eq, PythonArray.writeWith,
            newEMSval_index below exact,
            map_eq_pure_bind]
          apply Solo.Ends.bind
          apply Solo.Ends.bind
          apply writes.mono
          rintro _ after ⟨-, stored⟩
          exact ⟨rfl, stored⟩
  | read language kind i =>
      obtain rfl : i = idx := named
      have noLock' : kind ≠ .readRW := by
        rintro rfl
        exact noLock language idx rfl
      cases language with
      | javaScript =>
          simp only [code, Reading.code_eq, NodeJSreadWith,
            index_2_ems below exact,
            map_eq_pure_bind]
          apply Solo.Ends.bind
          apply (nativeRead_ends unmapped invariant below noLock'
            fun _ => rfl).mono
          rintro _ after ⟨⟨value, same, rfl⟩, stored⟩
          exact ⟨fun _ => returned_of_stored same, stored⟩
      | python =>
          simp only [code, Reading.python_eq, PythonArray.readWith,
            newEMSval_index below exact,
            map_eq_pure_bind]
          apply Solo.Ends.bind
          apply (nativeRead_ends unmapped invariant below noLock'
            fun _ => rfl).mono
          rintro _ after ⟨⟨value, same, rfl⟩, stored⟩
          exact ⟨fun _ => returned_of_stored same, stored⟩

/-! ## Every sequence of calls -/

/-- Processes of both languages call the operations one after the other. -/
abbrev ExchangeCall (array : EmsArray) (stack : Tag) :
    Ledger → ExchangeOp × Option AppValue → Ledger → Prop :=
  ledgerSolo.Call (ExchangeOp.code array stack) fun op _ => op.Valid array

private theorem exchange_invariant
    (small : EMS_MEM_BLOCKSZ * 2 ^ level < 2 ^ 63)
    (unmapped : array.isMapped = false) (exact : array.nElem ≤ 2 ^ 53)
    {stack : Tag}
    {start : Ledger} (initially : InitialStore array level start)
    {calls : List (ExchangeOp × Option AppValue)}
    (run : Run (ExchangeCall array stack) start calls ledger) :
    ExchangeInvariant array level (valuesAfter calls) ledger := by
  induction run with
  | nil => exact initially.exchange
  | @snoc calls before after call _ made induction =>
      have last : valuesAfter (calls ++ [call]) =
          call.1.effect (valuesAfter calls) := by
        simp [valuesAfter]
      rw [last]
      cases made with
      | mk patience allowed returns =>
          exact ((ExchangeOp.alone small unmapped
            exact induction allowed).returns returns).2

/-- Whatever processes of both languages have written, one after the other, the
next read of an element gives what was written last to it, if the language that
reads has the value.  No call fails an assertion, and the heap holds the strings
of the elements and nothing else. -/
theorem languages_exchange_values (small : EMS_MEM_BLOCKSZ * 2 ^ level < 2 ^ 63)
    (unmapped : array.isMapped = false) (exact : array.nElem ≤ 2 ^ 53)
    {stack : Tag}
    {start : Ledger} (initially : InitialStore array level start)
    {calls : List (ExchangeOp × Option AppValue)}
    (run : Run (ExchangeCall array stack) start calls ledger) :
    (∀ op res after, ExchangeCall array stack ledger (op, res) after →
      op.Answers (valuesAfter calls) res) ∧
    (∀ (op : ExchangeOp) (patience : Nat), op.Valid array →
      ¬ ledgerSolo.Aborts (op.code array stack patience) ledger) ∧
    StoreHolds array level 0 (nativeStore (valuesAfter calls)) ledger := by
  have invariant := exchange_invariant small unmapped exact initially run
  refine ⟨?_, ?_, invariant.holds⟩
  · intro op res after call
    cases call with
    | mk patience allowed returns =>
        exact ((ExchangeOp.alone small unmapped exact invariant allowed).returns
          returns).1
  · intro op patience allowed
    exact (ExchangeOp.alone small unmapped exact invariant allowed).not_aborts

end Alone

/-! ## A string from Python to JavaScript -/

/-- Python writes a string. -/
def pythonGreets : ExchangeOp := .write .writeXF 0 (.py (.str ['h', 'i']))

/-- JavaScript reads it. -/
def javaScriptListens : ExchangeOp := .read .javaScript .readFF 0

/-- What was read is a string of so many bytes. -/
def isString (bytes : List UInt8) : Option AppValue → Bool
  | some (.js (.string utf8)) => utf8 == bytes
  | _ => false

private theorem pythonGreets_valid : pythonGreets.Valid ⟨1, false⟩ where
  inside := by decide
  below := by decide
  noObject := by simp [pythonGreets]
  short := by
    rintro kind idx value ⟨⟩
    decide
  noLock := by simp [pythonGreets]

private theorem javaScriptListens_valid :
    javaScriptListens.Valid ⟨1, false⟩ where
  inside := by decide
  below := by decide
  noObject := by simp [javaScriptListens]
  short := by simp [javaScriptListens]
  noLock := by simp [javaScriptListens]

theorem languages_exchange_values_greeting :
    letI := ieeeRuntime
    ∃ calls ledger res after,
      Run (ExchangeCall ⟨1, false⟩ ⟨.full, .undefined, 0⟩) freshLedger
        calls ledger ∧
      ExchangeCall ⟨1, false⟩ ⟨.full, .undefined, 0⟩ ledger
        (javaScriptListens, res) after ∧
      isString [104, 105] res = true ∧
          javaScriptListens.Answers (valuesAfter calls) res := by
  let _ : CRuntime := ieeeRuntime
  obtain ⟨res, after, returned, checked⟩ := ledgerSolo.exists_returns
    (pythonGreets.code ⟨1, false⟩ ⟨.full, .undefined, 0⟩ 5 >>= fun _ =>
      javaScriptListens.code ⟨1, false⟩ ⟨.full, .undefined, 0⟩ 5) freshLedger
    (fun ended => isString [104, 105] ended.1) (by decide +kernel)
  obtain ⟨done, between, wrote, read⟩ := Solo.returns_bind_iff.mp returned
  have initially : InitialStore ⟨1, false⟩ 0 freshLedger :=
    ⟨fun _ _ _ => rfl, rfl, rfl, rfl, rfl⟩
  have call : ExchangeCall ⟨1, false⟩ ⟨.full, .undefined, 0⟩ freshLedger
      (pythonGreets, done) between := .mk 5 pythonGreets_valid wrote
  have listened : ExchangeCall ⟨1, false⟩ ⟨.full, .undefined, 0⟩ between
      (javaScriptListens, res) after := .mk 5 javaScriptListens_valid read
  refine ⟨_, between, res, after, Run.nil.snoc call, listened, checked, ?_⟩
  exact (languages_exchange_values (by decide) rfl (by decide) initially
    (Run.nil.snoc call)).1 javaScriptListens res after listened

end EMS
