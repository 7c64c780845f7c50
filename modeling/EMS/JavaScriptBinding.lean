import EMS.IntegerDoubles
import EMS.LockOrder
import EMS.RmwCalls

/-!
# The binding for JavaScript

How `nodejs.cc` converts values between JavaScript and EMS, and its calls that
write, read, add to and swap an element.  A number of JavaScript is stored as
an integer if it is one, and otherwise as a double.
-/

namespace EMS

open SharedProgram Doubles

/-! ## Values -/

/-- The values of JavaScript that the binding takes and returns.  A string is
given by its bytes in UTF-8, an object by those of its field `data`. -/
inductive JsValue where
  | undefined
  | boolean (b : Bool)
  | number (x : Float)
  | string (utf8 : List UInt8)
  | object (data : List UInt8)

/-- The operator `===`.  The binding makes a new object for every call. -/
def JsValue.strictEquals : JsValue → JsValue → Bool
  | .undefined, .undefined => true
  | .boolean a, .boolean b => a == b
  | .number x, .number y => x == y
  | .string a, .string b => a == b
  | _, _ => false

/-- Numbers that a program cannot tell apart, the sign of zero aside. -/
def SameNumber (x y : Float) : Prop :=
  (x == y) = true ∨ x.isNaN = true ∧ y.isNaN = true

/-- What `std::string` holds up to its first zero. -/
def cText (utf8 : List UInt8) : CString where
  bytes := utf8.takeWhile (· ≠ 0)
  terminated := terminated_takeWhile utf8

/-- Determine the EMS type of a Napi argument. -/
def NapiObjToEMStype (arg : JsValue) (stringIsJSON : Bool) : EMSType :=
  match arg with
  | .number x => if isInteger x then .integer else .float
  | .string _ => if stringIsJSON then .json else .string
  | .boolean _ => .boolean
  | .undefined => .undefined
  | .object _ => .invalid

/-- Convert a Napi object to an EMS object.  For an object a type error is
thrown. -/
def NAPI_OBJ_2_EMS_OBJ (napiValue : JsValue) (stringIsJSON : Bool) :
    Option EMSvalueType :=
  let type := NapiObjToEMStype napiValue stringIsJSON
  match napiValue with
  | .boolean b => some (scalar type (if b then 1 else 0))
  | .number x =>
      some (scalar type (if isInteger x then x.toModel.toInt64.toInt
        else ofDouble x))
  | .string utf8 => some ⟨type, 0, cText utf8, utf8.length + 1⟩
  | .undefined => some (scalar type 0xbeeff00d)
  | .object _ => none

/-- Convert an EMS object into a Napi object.  Only 32 bits of an integer are
kept.  A type error is thrown for what has none of the types of values. -/
def ems2napiReturnValue (emsValue : EMSvalueType) : Option JsValue :=
  match emsValue.type with
  | .boolean => some (.boolean (emsValue.value ≠ 0))
  | .integer => some (.number (Float.ofInt (toInt32 emsValue.value)))
  | .float => some (.number (toDouble emsValue.value))
  | .json => some (.object emsValue.text.bytes)
  | .string => some (.string emsValue.text.bytes)
  | .undefined => some .undefined
  | _ => none

/-! ## Calls -/

section Calls

variable [CRuntime] (patience : Nat) (array : EmsArray)

/-- The string whose address in the heap a read has returned. -/
def textInHeap (value : EMSvalueType) : EmsProg EMSvalueType :=
  match value.type with
  | .json | .string => do
      let text ← copyFromHeap patience value.value
      return { value with text := text }
  | _ => pure value

def NodeJSreadFF (stack : Tag) (key : JsValue) : EmsProg (Option JsValue) :=
  match NAPI_OBJ_2_EMS_OBJ key false with
  | none => pure none
  | some key => do
      let read ← EMSreadFF patience array stack key
      match read with
      | .error _ => pure none
      | .ok value => do
          let value ← textInHeap patience value
          return ems2napiReturnValue value

def NodeJSwriteXF (key value : JsValue) (stringIsJSON : Bool) :
    EmsProg (Option JsValue) :=
  match NAPI_OBJ_2_EMS_OBJ key false, NAPI_OBJ_2_EMS_OBJ value stringIsJSON with
  | some key, some value => do
      let returnValue ← EMSwriteXF patience array key value
      return some (.boolean returnValue.isOk)
  | _, _ => pure none

def NodeJSfaa (key value : JsValue) (stringIsJSON : Bool) :
    EmsProg (Option JsValue) :=
  match NAPI_OBJ_2_EMS_OBJ key false, NAPI_OBJ_2_EMS_OBJ value stringIsJSON with
  | some key, some value => do
      let returnValue ← EMSfaa patience array key value
      match returnValue with
      | .error _ => pure none
      | .ok value => pure (ems2napiReturnValue value)
  | _, _ => pure none

def NodeJScas (key oldVal newVal : JsValue) : EmsProg (Option JsValue) :=
  match NAPI_OBJ_2_EMS_OBJ key false, NAPI_OBJ_2_EMS_OBJ oldVal false,
    NAPI_OBJ_2_EMS_OBJ newVal false with
  | some key, some oldVal, some newVal => do
      let returnValue ← EMScas patience array key oldVal newVal
      match returnValue with
      | .error _ => pure none
      | .ok value => pure (ems2napiReturnValue value)
  | _, _, _ => pure none

end Calls

/-! ## Numbers -/

def EMSType.IsNumber (type : EMSType) : Prop := type = .integer ∨ type = .float

theorem number_2_ems (x : Float) (stringIsJSON : Bool) :
    NAPI_OBJ_2_EMS_OBJ (.number x) stringIsJSON =
      some (if isInteger x then scalar .integer x.toModel.toInt64.toInt
        else scalar .float (ofDouble x)) := by
  simp only [NAPI_OBJ_2_EMS_OBJ, NapiObjToEMStype]
  split <;> rfl

theorem integer_2_napi (k : Int) :
    ems2napiReturnValue (scalar .integer k) =
      some (.number (Float.ofInt (toInt32 k))) :=
  rfl

theorem float_2_napi (word : Int) :
    ems2napiReturnValue (scalar .float word) = some (.number (toDouble word)) :=
  rfl

private theorem isInt_ofInt64 {x : Float} {k : Int} (integer : IsInt x k)
    (low : -2 ^ 63 ≤ k)
    (high : k < 2 ^ 63) : IsInt (Float.ofInt x.toModel.toInt64.toInt) k := by
  rw [integer.toInt64 low high]
  exact isInt_ofInt integer.representable

theorem isInteger_of_isInt {x : Float} {k : Int} (integer : IsInt x k)
    (low : -2 ^ 63 ≤ k)
    (high : k < 2 ^ 63) : isInteger x = true :=
  ((isInt_ofInt64 integer low high).beq integer).mpr rfl

theorem integer_2_ems {x : Float} {k : Int} (integer : IsInt x k)
    (low : -2 ^ 63 ≤ k)
    (high : k < 2 ^ 63) (stringIsJSON : Bool) :
    NAPI_OBJ_2_EMS_OBJ (.number x) stringIsJSON = some (scalar .integer k) := by
  rw [number_2_ems, if_pos (isInteger_of_isInt integer low high),
    integer.toInt64 low high]

theorem number_of_2_ems {value : JsValue} {emsValue : EMSvalueType}
    {stringIsJSON : Bool}
    (converted : NAPI_OBJ_2_EMS_OBJ value stringIsJSON = some emsValue)
    (number : emsValue.type.IsNumber) : ∃ x, value = .number x := by
  cases value with
  | number x => exact ⟨x, rfl⟩
  | undefined =>
      cases converted
      exact absurd number (by simp [EMSType.IsNumber, NapiObjToEMStype, scalar])
  | boolean b =>
      cases converted
      exact absurd number (by simp [EMSType.IsNumber, NapiObjToEMStype, scalar])
  | string utf8 =>
      cases converted
      cases stringIsJSON <;>
        exact absurd number (by simp [EMSType.IsNumber, NapiObjToEMStype])
  | object data => cases converted

theorem isInt_of_2_ems {x : Float} {k : Int} {stringIsJSON : Bool}
    (representable : Representable k)
    (converted : NAPI_OBJ_2_EMS_OBJ (.number x) stringIsJSON =
      some (scalar .integer k)) :
    IsInt x k := by
  rw [number_2_ems] at converted
  split at converted
  · next whole =>
      have same : x.toModel.toInt64.toInt = k := by
        simpa [scalar] using converted
      rw [isInteger, same] at whole
      exact (isInt_ofInt representable).of_beq whole
  · simp [scalar] at converted

/-- A double comes back from the word that it is stored as. -/
theorem toDouble_ofDouble (x : Float) :
    (toDouble (ofDouble x)).toModel.unpack = x.toModel.unpack := by
  have word : UInt64.ofNat (ofDouble x % 2 ^ 64).toNat = x.toBits := by
    have bound := x.toBits.toNat_lt
    have same : (ofDouble x % 2 ^ 64).toNat = x.toBits.toNat := by
      have kept := Int.bmod_emod (x := (x.toBits.toNat : Int)) (m := 2 ^ 64)
      rw [ofDouble, toInt64]
      omega
    rw [same, UInt64.ofNat_toNat]
  have model : (toDouble (ofDouble x)).toModel =
      Float.Model.pack x.toModel.unpack := by
    rw [toDouble, word]
    rfl
  rw [model, unpack_repack]

end EMS
