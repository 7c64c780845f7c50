import Mathlib.Algebra.Group.Nat.Defs
import Mathlib.Data.List.Basic

/-!
# Numbers and strings of JavaScript

The comparison function of `EMStmStart` adds keys of any type to numbers and
subtracts the sums.  In JavaScript an addition with a string, or with an array,
joins texts, and a subtraction turns texts back into numbers.  The conversions
below are those of the language; a number is a double.
-/

namespace EMS

/-- A string of JavaScript. -/
abbrev JsString := List Char

/-! ## From numbers to strings -/

/-- The exact value of a positive finite double, as a fraction. -/
def exactFraction (mantissa : Nat) (exponent : Int) : Nat × Nat :=
  (mantissa * 2 ^ exponent.toNat, 2 ^ (-exponent).toNat)

/-- The place of the decimal point: `10 ^ (n - 1) ≤ x < 10 ^ n`. -/
def decimalPoint (numerator denominator : Nat) : Int :=
  if denominator ≤ numerator then
    ((Nat.toDigits 10 (numerator / denominator)).length : Int)
  else
    match (List.range 330).find? fun zeros =>
        denominator ≤ numerator * 10 ^ (zeros + 1) with
    | some zeros => -(zeros : Int)
    | none => -330

/-- `s × 10 ^ e` as a double. -/
def scientific (s : Nat) (e : Int) : Float :=
  Float.ofScientific s (decide (e < 0)) e.natAbs

/-- The `k` digits that come closest among those that stand for the number. -/
def digitsOfLength (x : Float) (numerator denominator : Nat)
    (n : Int) (k : Nat) :
    Option Nat :=
  let e := n - k
  let scaledNumerator := numerator * 10 ^ (-e).toNat
  let scaledDenominator := denominator * 10 ^ e.toNat
  let below := scaledNumerator / scaledDenominator
  let candidates :=
    if 2 * (scaledNumerator % scaledDenominator) ≤ scaledDenominator then
      [below, below + 1]
    else [below + 1, below]
  candidates.find? fun s => decide (10 ^ (k - 1) ≤ s) && scientific s e == x

/-- The fewest digits that stand for the number, and the place of the decimal
point. -/
def shortestDigits (x : Float) (numerator denominator : Nat) :
    Nat × Nat × Int :=
  let n := decimalPoint numerator denominator
  match (List.range 17).findSome? fun k =>
      (digitsOfLength x numerator denominator n (k + 1)).map fun s =>
          (k + 1, s) with
  | some (k, s) => if s = 10 ^ k then (1, 1, n + 1) else (k, s, n)
  | none => (1, 0, 1)

def zeros (count : Int) : JsString :=
  List.replicate count.toNat '0'

/-- The digits laid out around the decimal point, or with an exponent. -/
def layoutDigits (k s : Nat) (n : Int) : JsString :=
  let digits := Nat.toDigits 10 s
  if k ≤ n ∧ n ≤ 21 then digits ++ zeros (n - k)
  else if 0 < n ∧ n ≤ 21 then digits.take n.toNat ++ '.' :: digits.drop n.toNat
  else if -6 < n ∧ n ≤ 0 then '0' :: '.' :: zeros (-n) ++ digits
  else
    let exponent :=
      (if 0 < n then '+' else '-') :: Nat.toDigits 10 (n - 1).natAbs
    let fraction := if k = 1 then [] else '.' :: digits.drop 1
    digits.take 1 ++ fraction ++ 'e' :: exponent

/-- `Number::toString`. -/
def numberToString (x : Float) : JsString :=
  match x.toModel.unpack with
  | .notANumber => "NaN".toList
  | .zero _ => ['0']
  | .infinity .positive => "Infinity".toList
  | .infinity .negative => "-Infinity".toList
  | .finite sign mantissa exponent _ =>
      let (numerator, denominator) := exactFraction mantissa exponent
      let magnitude := match sign with
        | .positive => x
        | .negative => -x
      let (k, s, n) := shortestDigits magnitude numerator denominator
      match sign with
      | .positive => layoutDigits k s n
      | .negative => '-' :: layoutDigits k s n

/-! ## From strings to numbers -/

/-- White space and line terminators. -/
def isStrWhiteSpace (c : Char) : Bool :=
  c.toNat ∈ [0x09, 0x0A, 0x0B, 0x0C, 0x0D, 0x20, 0xA0, 0x1680, 0x2028, 0x2029,
    0x202F, 0x205F,
    0x3000, 0xFEFF] || (0x2000 ≤ c.toNat && c.toNat ≤ 0x200A)

def trim (text : JsString) : JsString :=
  ((text.dropWhile isStrWhiteSpace).reverse.dropWhile isStrWhiteSpace).reverse

def NaN : Float :=
  Float.ofModel (.pack .notANumber)

def Infinity : Float :=
  Float.ofModel (.pack (.infinity .positive))

/-- The value of a digit, letters included. -/
def digitValue (c : Char) : Nat :=
  if '0' ≤ c ∧ c ≤ '9' then c.toNat - '0'.toNat
  else if 'a' ≤ c ∧ c ≤ 'z' then c.toNat - 'a'.toNat + 10
  else if 'A' ≤ c ∧ c ≤ 'Z' then c.toNat - 'A'.toNat + 10
  else 36

def digitsValue (base : Nat) (digits : JsString) : Nat :=
  digits.foldl (fun value c => value * base + digitValue c) 0

/-- A literal with a prefix for its base. -/
def parseNonDecimal (base : Nat) (digits : JsString) : Float :=
  if digits ≠ [] ∧ digits.all (fun c => digitValue c < base) then
    Float.ofNat (digitsValue base digits)
  else NaN

/-- The exponent of a decimal literal. -/
def parseExponent (text : JsString) : Option Int :=
  let number (digits : JsString) : Option Nat :=
    if digits ≠ [] ∧ digits.all Char.isDigit then
      some (digitsValue 10 digits) else none
  match text with
  | [] => some 0
  | c :: rest =>
      if c = 'e' ∨ c = 'E' then
        match rest with
        | '+' :: digits => (number digits).map Int.ofNat
        | '-' :: digits => (number digits).map fun n => -Int.ofNat n
        | digits => (number digits).map Int.ofNat
      else none

/-- `StrUnsignedDecimalLiteral`. -/
def parseUnsignedDecimal (text : JsString) : Float :=
  if text = "Infinity".toList then Infinity
  else
    let whole := text.takeWhile Char.isDigit
    let rest := text.dropWhile Char.isDigit
    let (fraction, rest) := match rest with
      | '.' :: rest =>
          (rest.takeWhile Char.isDigit, rest.dropWhile Char.isDigit)
      | rest => ([], rest)
    if whole = [] ∧ fraction = [] then NaN
    else
      match parseExponent rest with
      | some exponent =>
          scientific (digitsValue 10 (whole ++ fraction))
            (exponent - fraction.length)
      | none => NaN

/-- `StringToNumber`. -/
def stringToNumber (text : JsString) : Float :=
  match trim text with
  | [] => 0
  | '0' :: 'x' :: digits | '0' :: 'X' :: digits => parseNonDecimal 16 digits
  | '0' :: 'o' :: digits | '0' :: 'O' :: digits => parseNonDecimal 8 digits
  | '0' :: 'b' :: digits | '0' :: 'B' :: digits => parseNonDecimal 2 digits
  | '+' :: decimal => parseUnsignedDecimal decimal
  | '-' :: decimal => -parseUnsignedDecimal decimal
  | decimal => parseUnsignedDecimal decimal

/-! ## Keys -/

/-- A key or an index as an application gives it. -/
inductive JsKey where
  | number (x : Float)
  | string (text : JsString)
  | boolean (b : Bool)
  | array (indexes : List Float)

/-- What an addition gives: a number or a string. -/
inductive JsPrimitive where
  | number (x : Float)
  | string (text : JsString)

def JsPrimitive.toNumber : JsPrimitive → Float
  | .number x => x
  | .string text => stringToNumber text

/-- `x + key` for a number `x`.  An array is joined into a string first. -/
def addKey (x : Float) : JsKey → JsPrimitive
  | .number y => .number (x + y)
  | .boolean b => .number (x + if b then 1 else 0)
  | .string text => .string (numberToString x ++ text)
  | .array indexes =>
      .string (numberToString x ++ List.intercalate [',']
        (indexes.map numberToString))

example : numberToString (Float.ofNat 3 * Float.ofNat 10000000000000) =
    "30000000000000".toList := by
  decide +kernel

example : stringToNumber "100000000000005".toList =
    Float.ofNat 100000000000005 := by
  decide +kernel

end EMS
