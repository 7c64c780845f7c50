import EMS.FailedElements
import EMS.NumberElements

/-!
# Numbers and how they came about

A number of JavaScript may be stored as an integer or as a double.  Which one
it is depends on how the element has got it: a sum from 2 ^ 30 on is stored as a
double, and remains one until the element is written.  The file follows the
stored number through writes and additions, and shows when a compare-and-swap
recognises what a read of the element has returned.
-/

namespace EMS

open SharedProgram Doubles

section Numbers

local instance machineRuntime : CRuntime := ieeeRuntime

/-! ## The stored number -/

/-- An integral number as an element holds it. -/
inductive NumberCell where
  | integer (k : Int)
  | double (k : Int)

def NumberCell.type : NumberCell → EMSType
  | .integer _ => .integer
  | .double _ => .float

def NumberCell.amount : NumberCell → Int
  | .integer k => k
  | .double k => k

/-- The number is what the word stands for. -/
def NumberCell.StoredAs : NumberCell → Int → Prop
  | .integer k, word => word = k
  | .double k, word => IsInt (toDouble word) k

/-- The element is full and holds the number. -/
structure NumberCell.In (cell : NumberCell) (idx : Int)
    (buf : EmsBuf) : Prop where
  tag : buf.tag (EMSdataCell idx) = ⟨.full, cell.type, 0⟩
  word : cell.StoredAs (buf.word (EMSdataCell idx))

/-- The calls that make a number, with the integers that they are given. -/
inductive NumberOp where
  | writeXF (x : Int)
  | faa (y : Int)

/-- How the element holds its number after a call.  Of an element that has not
been written nothing is known. -/
def NumberOp.next : NumberOp → Option NumberCell → Option NumberCell
  | .writeXF x, _ => some (.integer x)
  | .faa y, some (.integer k) =>
      some (if 2 ^ 30 ≤ k + y then .double (k + y) else .integer (k + y))
  | .faa y, some (.double k) => some (.double (k + y))
  | .faa _, none => none

/-- A call on the element, made through one of its keys, that has returned. -/
inductive NumberCall (array : EmsArray) (idx : Int) :
    Ledger → NumberOp → Ledger → Prop where
  | writeXF {before after : Ledger} {patience : Nat} {jsKey : JsValue}
      {key : EMSvalueType}
      {x : Float} {k : Int} : NAPI_OBJ_2_EMS_OBJ jsKey false = some key →
      (slotSearch array key before.buf).At idx → IsInt x k →
      heapSolo.Returns (NodeJSwriteXF patience array jsKey (.number x) false)
        before
        (some (.boolean true)) after →
      NumberCall array idx before (.writeXF k) after
  | faa {before after : Ledger} {patience : Nat} {jsKey old : JsValue}
      {key : EMSvalueType}
      {y : Float} {k : Int} : NAPI_OBJ_2_EMS_OBJ jsKey false = some key →
      (slotSearch array key before.buf).At idx → IsInt y k →
      heapSolo.Returns (NodeJSfaa patience array jsKey (.number y) false) before
        (some old) after →
      NumberCall array idx before (.faa k) after

/-- The element has got its number by a sequence of calls.  Every number on the
way is of magnitude at most 2 ^ 53.  In between, anything may happen that leaves
the element as it is. -/
inductive Produced (array : EmsArray) (idx : Int) :
    Option NumberCell → Ledger → Prop where
  | start (ledger : Ledger) : Produced array idx none ledger
  | call {cell : Option NumberCell} {before after : Ledger} {op : NumberOp} :
      Produced array idx cell before → NumberCall array idx before op after →
      (∀ next, op.next cell = some next → next.amount.natAbs ≤ 2 ^ 53) →
      Produced array idx (op.next cell) after
  | elsewhere {cell : Option NumberCell} {before after : Ledger} :
      Produced array idx cell before →
      after.buf.tag (EMSdataCell idx) = before.buf.tag (EMSdataCell idx) →
      after.buf.word (EMSdataCell idx) = before.buf.word (EMSdataCell idx) →
      Produced array idx cell after

theorem isInt_stored {x : Float} {k : Int} (integer : IsInt x k) :
    IsInt (toDouble (ofDouble x)) k :=
  isInt_of_unpack (toDouble_ofDouble x) integer

/-! ## What the calls keep -/

section Calls

variable {array : EmsArray} {idx : Int} {before after : Ledger} {patience : Nat}
  {key : EMSvalueType}

private theorem storeValue_integer {k : Int} {result : Except EMSError Unit}
    (returned : heapSolo.Returns
      (storeValue patience idx (scalar .integer k)) before result after) :
    result = .ok () ∧ after = before.setWord (EMSdataCell idx) k := by
  simp only [storeValue, scalar, store_returns] at returned
  exact Solo.returns_ret_iff.mp returned

theorem in_released (positive : 0 < array.nElem) (cell : NumberCell)
    {word : Int}
    (stored : cell.StoredAs word) :
    cell.In idx (((before.setWord (EMSdataCell idx) word).setTag
      (EMSdataCell idx)
      ⟨.full, cell.type, 0⟩).released array idx).buf := by
  constructor
  · rw [Ledger.released_tag positive]
    simp
  · simpa using stored

private theorem EMSwriteXF_integer (positive : 0 < array.nElem)
    (at' : (slotSearch array key before.buf).At idx) {k : Int}
    {result : Except EMSError Unit}
    (ok : result.isOk = true)
    (returned : heapSolo.Returns
      (EMSwriteXF patience array key (scalar .integer k)) before
      result after) : (NumberCell.integer k).In idx after.buf := by
  obtain ⟨slot, between, taken, continued⟩ :=
    EMSwriteUsingTags_returns positive (fun wrong => absurd rfl wrong)
      nofun returned
  split at continued
  · obtain ⟨rfl, -⟩ := continued
    cases ok
  · next inside =>
      obtain rfl := at'.unique (taken.ends (by omega))
      obtain ⟨held, placed, stored, outcome, -, -, storing, ended⟩ := continued
      obtain ⟨rfl, rfl⟩ := storeValue_integer storing
      obtain ⟨-, rfl⟩ := ended
      exact in_released positive (.integer k) rfl

/-- A sum of integers is stored as one, unless it reaches 2 ^ 30.  A sum with a
double is stored as a double. -/
theorem faaElement_number {cell : NumberCell} {y : Int}
    (stored : cell.StoredAs (before.buf.word (EMSdataCell idx)))
    (representable : Representable y)
    (small : (cell.amount + y).natAbs ≤ 2 ^ 53)
    {result : Except EMSError (EMSvalueType × EMSType)}
    (returned : heapSolo.Returns
      (faaElement patience idx cell.type (scalar .integer y)) before
      result after) :
    ∃ sum old word, NumberOp.next (.faa y) (some cell) = some sum ∧
      sum.StoredAs word ∧
      result = .ok (old, sum.type) ∧
        after = before.setWord (EMSdataCell idx) word := by
  have exact : IsInt (Float.ofInt (cell.amount + y)) (cell.amount + y) :=
    isInt_ofInt (representable_of_le small)
  cases cell with
  | integer k =>
      obtain rfl : before.buf.word (EMSdataCell idx) = k := stored
      generalize word : before.buf.word (EMSdataCell idx) = k at *
      have whole : toInt64 (k + y) = k + y := by
        apply Int.bmod_eq_of_le <;>
          simp only [NumberCell.amount] at small <;> omega
      simp only [NumberCell.type, faaElement, faaInteger, scalar, bind_assoc,
        load_returns, word,
        whole] at returned
      split at returned
      · next large =>
          simp only [bind_assoc, store_returns, pure_bind] at returned
          obtain ⟨rfl, rfl⟩ := Solo.returns_ret_iff.mp returned
          refine ⟨.double (k + y), _, ofDouble (Float.ofInt (k + y)), ?_,
            isInt_stored exact, rfl,
            rfl⟩
          rw [NumberOp.next, if_pos large]
      · next below =>
          simp only [bind_assoc, store_returns, pure_bind] at returned
          obtain ⟨rfl, rfl⟩ := Solo.returns_ret_iff.mp returned
          refine ⟨.integer (k + y), _, k + y, ?_, rfl, rfl, rfl⟩
          rw [NumberOp.next, if_neg below]
  | double k =>
      have addend : IsInt (toDouble (ofDouble (Float.ofInt y))) y :=
        isInt_stored (isInt_ofInt representable)
      have sum := IsInt.add stored addend (representable_of_le small)
      simp only [NumberCell.type, faaElement, faaFloat, scalar, bind_assoc,
        load_returns,
        store_returns, pure_bind] at returned
      obtain ⟨rfl, rfl⟩ := Solo.returns_ret_iff.mp returned
      exact ⟨.double (k + y), _, _, rfl, isInt_stored sum, rfl, rfl⟩

private theorem EMSfaa_number (positive : 0 < array.nElem)
    (at' : (slotSearch array key before.buf).At idx)
    {cell : NumberCell} {y : Int}
    (holds : cell.In idx before.buf) (representable : Representable y)
    (small : (cell.amount + y).natAbs ≤ 2 ^ 53) {value : EMSvalueType}
    (returned : heapSolo.Returns
      (EMSfaa patience array key (scalar .integer y)) before
      (.ok value) after) :
    ∃ sum, NumberOp.next (.faa y) (some cell) = some sum ∧
      sum.In idx after.buf := by
  obtain ⟨slot, between, taken, continued⟩ := EMSfaa_returns positive returned
  split at continued
  · cases continued.1
  · next inArray =>
      obtain rfl := at'.unique (taken.ends (by omega))
      have kept : between.buf.tag (EMSdataCell idx) =
          before.buf.tag (EMSdataCell idx) ∧
          between.buf.word (EMSdataCell idx) =
              before.buf.word (EMSdataCell idx) := by
        apply taken.others
        intro slot takes
        rw [SlotSearch.At.unique (.inr takes) at']
        exact data_cell_ne_map positive
      obtain ⟨-, result, summed, adding, ended⟩ := continued
      rw [kept.1, holds.tag] at adding ended
      obtain ⟨sum, old, word, next, stored, rfl, rfl⟩ :=
        faaElement_number (by simpa [kept.2] using holds.word) representable
          small adding
      obtain ⟨-, rfl⟩ := ended
      exact ⟨sum, next, in_released positive sum stored⟩

/-! ## What the sequence keeps -/

private theorem next_faa (cell : NumberCell) (y : Int) :
    ∃ sum, NumberOp.next (.faa y) (some cell) = some sum ∧
      sum.amount = cell.amount + y := by
  cases cell with
  | integer k =>
      refine ⟨_, rfl, ?_⟩
      split <;> rfl
  | double k => exact ⟨_, rfl, rfl⟩

/-- A call makes the next number out of the one that the element holds. -/
theorem NumberCall.keeps {op : NumberOp} {cell : Option NumberCell}
    (positive : 0 < array.nElem)
    (call : NumberCall array idx before op after)
    (holds : ∀ number, cell = some number →
      number.In idx before.buf ∧ number.amount.natAbs ≤ 2 ^ 53)
    (small : ∀ next, op.next cell = some next → next.amount.natAbs ≤ 2 ^ 53) :
    ∀ next, op.next cell = some next → next.In idx after.buf := by
  cases call with
  | @writeXF _ _ jsKey key x k converted at' integer returned =>
      rintro _ ⟨⟩
      have bound := small _ rfl
      simp only [NumberCell.amount] at bound
      simp only [NodeJSwriteXF, converted,
        integer_2_ems integer (by omega) (by omega) false]
        at returned
      obtain ⟨result, between, written, ended⟩ :=
        Solo.returns_bind_iff.mp returned
      obtain ⟨ok, rfl⟩ := Solo.returns_ret_iff.mp ended
      exact EMSwriteXF_integer positive at' (by simpa using ok.symm) written
  | @faa _ _ jsKey old key y k converted at' integer returned =>
      cases cell with
      | none => nofun
      | some number =>
          obtain ⟨here, bound⟩ := holds number rfl
          obtain ⟨sum, isSum, amount⟩ := next_faa number k
          have bound' := small sum isSum
          rw [amount] at bound'
          simp only [NodeJSfaa, converted,
            integer_2_ems integer (by omega) (by omega) false]
            at returned
          obtain ⟨result, between, added, ended⟩ :=
            Solo.returns_bind_iff.mp returned
          cases result with
          | error error => exact nomatch (Solo.returns_ret_iff.mp ended).1
          | ok value =>
              obtain ⟨-, rfl⟩ := Solo.returns_ret_iff.mp ended
              obtain ⟨sum', isSum', stored⟩ :=
                EMSfaa_number positive at' here integer.representable
                  bound' added
              intro next isNext
              obtain rfl := Option.some.inj (isSum'.symm.trans isNext)
              exact stored

/-- However the element has got its number, it holds it as the sequence says. -/
theorem Produced.holds {cell : Option NumberCell} {ledger : Ledger}
    (positive : 0 < array.nElem)
    (produced : Produced array idx cell ledger) :
    ∀ number, cell = some number → number.In idx ledger.buf ∧
      number.amount.natAbs ≤ 2 ^ 53 := by
  induction produced with
  | start => nofun
  | call _ call small induction =>
      intro next isNext
      exact ⟨call.keeps positive induction small next isNext, small next isNext⟩
  | elsewhere _ tag word induction =>
      intro number isNumber
      obtain ⟨holds, bound⟩ := induction number isNumber
      exact ⟨⟨tag.trans holds.tag, word ▸ holds.word⟩, bound⟩

end Calls

/-! ## What JavaScript sees of a number -/

def Int32Range (k : Int) : Prop := -2 ^ 31 ≤ k ∧ k < 2 ^ 31

/-- A number that is read again as it was written. -/
def ReadsBack (w : Float) : Prop :=
  isInteger w = true → Int32Range w.toModel.toInt64.toInt

/-- The number is read as an integer that is stored in the same way. -/
def NumberCell.Recognised : NumberCell → Prop
  | .integer k => Int32Range k
  | .double _ => False

theorem toInt32_range (k : Int) : Int32Range (toInt32 k) := by
  have low := Int.le_bmod (x := k) (m := 2 ^ 32) (by decide)
  have high := Int.bmod_lt (x := k) (m := 2 ^ 32) (by decide)
  rw [Int32Range, toInt32]
  omega

theorem toInt32_eq_iff {k : Int} : toInt32 k = k ↔ Int32Range k := by
  constructor
  · intro same
    rw [← same]
    exact toInt32_range k
  · exact fun range => toInt32_eq range.1 range.2

theorem isInt_toInt32 (k : Int) :
    IsInt (Float.ofInt (toInt32 k)) (toInt32 k) := by
  have range := toInt32_range k
  rw [Int32Range] at range
  exact isInt_ofInt (representable_of_le (by omega))

private theorem sameNumber_of_unpack {x y : Float}
    (same : x.toModel.unpack = y.toModel.unpack) :
    SameNumber x y := by
  have nan : x.isNaN = y.isNaN := congrArg Float.Model.UnpackedFloat.isNaN same
  by_cases number : y.isNaN = true
  · exact .inr ⟨nan.trans number, number⟩
  · left
    have equal := beq_self (x := y) (by simpa using number)
    change (y.toModel.unpack.compare y.toModel.unpack == some .eq) =
      true at equal
    change (x.toModel.unpack.compare y.toModel.unpack == some .eq) = true
    rw [same]
    exact equal

theorem sameNumber_iff {x y : Float} {k : Int} (integer : IsInt x k) :
    SameNumber x y ↔ (x == y) = true := by
  rw [SameNumber, integer.number]
  simp

/-- What a number is stored as, and what is read then. -/
structure ReadsAs (w : Float) (type : EMSType) (word : Int)
    (y : Float) : Prop where
  converted : NAPI_OBJ_2_EMS_OBJ (.number w) false = some (scalar type word)
  number : type.IsNumber
  returned : ems2napiReturnValue (scalar type word) = some (.number y)
  same : SameNumber y w ↔ ReadsBack w
  least : ReadsBack w → type = .integer → word ≠ -2 ^ 63

theorem exists_readsAs (w : Float) : ∃ type word y, ReadsAs w type word y := by
  by_cases whole : isInteger w = true
  · refine ⟨.integer, w.toModel.toInt64.toInt,
      Float.ofInt (toInt32 w.toModel.toInt64.toInt), ?_,
      .inl rfl, integer_2_napi _, ?_, ?_⟩
    · rw [number_2_ems, if_pos whole]
    · have integer := isInt_toInt32 w.toModel.toInt64.toInt
      rw [ReadsBack, imp_iff_right whole, ← toInt32_eq_iff,
        sameNumber_iff integer]
      constructor
      · intro same
        have range := toInt32_range w.toModel.toInt64.toInt
        rw [Int32Range] at range
        exact ((integer.of_beq same).toInt64 (by omega) (by omega)).symm
      · intro kept
        rw [kept]
        exact whole
    · intro reads _
      have range := reads whole
      rw [Int32Range] at range
      omega
  · have same : SameNumber (toDouble (ofDouble w)) w :=
      sameNumber_of_unpack (toDouble_ofDouble w)
    refine ⟨.float, ofDouble w, toDouble (ofDouble w), ?_, .inr rfl,
      float_2_napi _, ?_, fun _ => nofun⟩
    · rw [number_2_ems, if_neg whole]
    · exact iff_of_true same fun wrong => absurd wrong whole

/-- Whether the old value of a compare-and-swap is the number in the element. -/
theorem casEqual_number_iff {cell : NumberCell} {word : Int} {u : JsValue}
    {old : EMSvalueType}
    (stored : cell.StoredAs word) (small : cell.amount.natAbs ≤ 2 ^ 53)
    (converted : NAPI_OBJ_2_EMS_OBJ u false = some old) :
    casEqual old (scalar cell.type word) = true ↔
      ∃ k, cell = .integer k ∧ ∃ x, u = .number x ∧ IsInt x k := by
  constructor
  · intro equal
    have same : old.type = cell.type ∧ word = old.value := by
      cases cell <;> simpa [casEqual, scalar, NumberCell.type] using equal
    have number : old.type.IsNumber := by
      rw [same.1]
      cases cell with
      | integer k => exact .inl rfl
      | double k => exact .inr rfl
    obtain ⟨x, rfl⟩ := number_of_2_ems converted number
    cases cell with
    | integer k =>
        obtain rfl : word = k := stored
        refine ⟨word, rfl, x, rfl, ?_⟩
        rw [number_2_ems] at converted
        split at converted
        · next whole =>
            cases converted
            obtain ⟨-, rfl⟩ := same
            exact (isInt_ofInt (representable_of_le small)).of_beq whole
        · cases converted
          cases same.1
    | double k =>
        rw [number_2_ems] at converted
        split at converted
        · cases converted
          cases same.1
        · next fraction =>
            obtain rfl := Option.some.inj converted
            have isWord : word = ofDouble x := by
              simpa only [scalar] using same.2
            have unpacked : x.toModel.unpack =
                (toDouble word).toModel.unpack := by
              rw [isWord, toDouble_ofDouble]
            have integer := isInt_of_unpack unpacked stored
            simp only [NumberCell.amount] at small
            exact absurd (isInteger_of_isInt integer (by omega) (by omega))
              fraction
  · rintro ⟨k, rfl, x, rfl, integer⟩
    obtain rfl : word = k := stored
    simp only [NumberCell.amount] at small
    rw [integer_2_ems integer (by omega) (by omega)] at converted
    cases converted
    simp [casEqual, scalar, NumberCell.type]

/-! ## Compare and swap -/

section Swaps

variable {array : EmsArray} {idx : Int} {cell : NumberCell}
  {ledger middle : Ledger}
  {patience : Nat} {stack : Tag} {jsKey : JsValue} {key : EMSvalueType}

theorem NumberCell.isNumber (cell : NumberCell) : cell.type.IsNumber := by
  cases cell with
  | integer k => exact .inl rfl
  | double k => exact .inr rfl

/-- A read of the element has found its key, and returns its number. -/
theorem NodeJSreadFF_returned {type : EMSType} (number : type.IsNumber)
    (tag : ledger.buf.tag (EMSdataCell idx) = ⟨.full, type, 0⟩)
    (positive : 0 < array.nElem) (inside : 0 ≤ idx)
    (converted : NAPI_OBJ_2_EMS_OBJ jsKey false = some key)
    (named : keyIndex array key ledger.buf array.isMapped = idx)
    {result : Option JsValue}
    (read : heapSolo.Returns
      (NodeJSreadFF patience array stack jsKey) ledger result middle) :
    patience ≠ 0 ∧ Finds patience array jsKey key idx ledger ∧
      result = ems2napiReturnValue
        (scalar type (ledger.buf.word (EMSdataCell idx))) ∧
      middle = ledger := by
  have inArray := @keyIndex_lt array key _ positive array.isMapped ledger.buf
  rw [named] at inArray
  have native := read
  simp only [NodeJSreadFF, converted] at native
  obtain ⟨value, between, returned, -⟩ := Solo.returns_bind_iff.mp native
  have looped := EMSreadUsingTags_returns returned
  simp only [named, if_neg (show ¬ (array.isMapped = true ∧ idx < 0) by omega),
    if_neg (show ¬ (idx < 0 ∨ array.nElem ≤ idx) by omega)] at looped
  have nonzero : patience ≠ 0 := by
    rintro rfl
    cases looped
  rw [EMSreadFF, EMSreadUsingTags] at returned
  obtain ⟨_, _, looked, -⟩ := Solo.returns_bind_iff.mp returned
  obtain ⟨rfl, rfl⟩ := EMSkey2index_returns looked
  rw [named] at looked
  have finds : Finds patience array jsKey key idx _ :=
    ⟨converted, inside, inArray, looked⟩
  obtain ⟨p, rfl⟩ := Nat.exists_eq_succ_of_ne_zero nonzero
  have again := NodeJSreadFF_number finds number tag stack
  obtain ⟨rfl, rfl⟩ := again.unique read
  exact ⟨nonzero, finds, rfl, rfl⟩

theorem number_returned {word : Int} {v : Float} (stored : cell.StoredAs word)
    (returned : ems2napiReturnValue (scalar cell.type word) =
      some (.number v)) :
    (∃ a, IsInt v a) ∧
    ((∃ k, cell = .integer k ∧ IsInt v k) ↔ cell.Recognised) := by
  cases cell with
  | integer k =>
      obtain rfl : word = k := stored
      obtain rfl := JsValue.number.inj (Option.some.inj returned)
      have kept := isInt_toInt32 word
      refine ⟨⟨_, kept⟩, ?_⟩
      simp only [NumberCell.Recognised, ← toInt32_eq_iff]
      constructor
      · rintro ⟨_, ⟨⟩, integer⟩
        exact kept.unique integer
      · intro same
        exact ⟨word, rfl, (congrArg (IsInt _) same).mp kept⟩
  | double k =>
      obtain rfl := JsValue.number.inj (Option.some.inj returned)
      exact ⟨⟨k, stored⟩, by simp [NumberCell.Recognised]⟩

/-- A compare-and-swap of the number that was read returns that number, and the
new one is read afterwards. -/
def CasSwaps (patience : Nat) (array : EmsArray) (stack : Tag) (jsKey : JsValue)
    (v w : Float)
    (ledger : Ledger) : Prop :=
  ∃ x after y last,
    heapSolo.Returns (NodeJScas patience array jsKey (.number v) (.number w))
      ledger
      (some (.number x)) after ∧ (x == v) = true ∧
    heapSolo.Returns (NodeJSreadFF patience array stack jsKey) after
      (some (.number y)) last ∧
      SameNumber y w

/-- A compare-and-swap of another value leaves the element as it is. -/
def CasKeeps (patience : Nat) (array : EmsArray) (jsKey u : JsValue)
    (w : Float) (idx : Int)
    (ledger : Ledger) : Prop :=
  ∃ result after,
    heapSolo.Returns (NodeJScas patience array jsKey u (.number w)) ledger
      result after ∧
    after.buf.tag (EMSdataCell idx) = ledger.buf.tag (EMSdataCell idx) ∧
    after.buf.word (EMSdataCell idx) = ledger.buf.word (EMSdataCell idx)

private theorem otherNumber_withNumber (holds : cell.In idx ledger.buf)
    {type : EMSType} (word : Int)
    (number : type.IsNumber) :
    OtherNumber idx ledger.buf (ledger.withNumber idx type word).buf := by
  refine ⟨⟨?_, ?_⟩, ⟨?_, ?_⟩, rfl, ?_, ?_⟩
  · rw [holds.tag]
  · rw [holds.tag]
    exact cell.isNumber
  · simp [Ledger.withNumber]
  · simpa [Ledger.withNumber] using number
  · intro other different
    simp [Ledger.withNumber, different]
  · intro other different
    simp [Ledger.withNumber, different]

theorem NumberCell.In.notLeast (holds : cell.In idx ledger.buf)
    (small : cell.amount.natAbs ≤ 2 ^ 53) : NotLeast idx ledger.buf := by
  intro integer
  rw [holds.tag] at integer
  cases cell with
  | integer k =>
      have word : ledger.buf.word (EMSdataCell idx) = k := holds.word
      simp only [NumberCell.amount] at small
      omega
  | double k => cases integer

theorem casSwaps_iff (positive : 0 < array.nElem)
    (holds : cell.In idx ledger.buf)
    (small : cell.amount.natAbs ≤ 2 ^ 53)
    (finds : Finds (patience + 1) array jsKey key idx ledger) {v : Float}
    (returned : ems2napiReturnValue
      (scalar cell.type (ledger.buf.word (EMSdataCell idx))) =
      some (.number v)) (w : Float) :
    CasSwaps (patience + 1) array stack jsKey v w ledger ↔
      (cell.Recognised → ReadsBack w) ∧
        (¬ cell.Recognised → (v == w) = true) := by
  obtain ⟨⟨a, integer⟩, recognised⟩ := number_returned holds.word returned
  have itself := (integer.beq integer).mpr rfl
  obtain ⟨type, word, y, reads⟩ := exists_readsAs w
  obtain ⟨oldType, oldWord, _, ofOld⟩ := exists_readsAs v
  have equal := casEqual_number_iff holds.word small ofOld.converted
  have swap :=
    NodeJScas_number finds cell.isNumber holds.tag ofOld.converted
      reads.converted
    reads.number
  rw [returned] at swap
  by_cases recognises : cell.Recognised
  · have matched : casEqual (scalar oldType oldWord)
        (scalar cell.type (ledger.buf.word (EMSdataCell idx))) = true := by
      obtain ⟨k, isCell, same⟩ := recognised.mpr recognises
      exact equal.mpr ⟨k, isCell, v, rfl, same⟩
    rw [if_pos matched] at swap
    have other := otherNumber_withNumber holds word reads.number
    have plain := holds.notLeast small
    have tag : (ledger.withNumber idx type word).buf.tag (EMSdataCell idx) =
        ⟨.full, type, 0⟩ := by
      simp [Ledger.withNumber]
    have stored : (ledger.withNumber idx type word).buf.word
        (EMSdataCell idx) = word := by
      simp [Ledger.withNumber]
    rw [imp_iff_right recognises,
      iff_true_intro (fun wrong => absurd recognises wrong), and_true]
    constructor
    · rintro ⟨x, after, z, last, swaps, -, again, same⟩
      obtain ⟨-, rfl⟩ := swap.unique swaps
      rcases finds.index other plain with
        named | ⟨keyType, mapped, start, slot, started, search, outside⟩
      · obtain ⟨-, -, isNumber, -⟩ :=
          NodeJSreadFF_returned reads.number tag positive finds.inside
            finds.converted named again
        rw [stored, reads.returned] at isNumber
        cases isNumber
        exact reads.same.mp same
      · cases NodeJSreadFF_lost positive finds.converted keyType mapped started
          search outside again
    · intro readsBack
      have plain' : NotLeast idx (ledger.withNumber idx type word).buf := by
        intro isInteger
        rw [tag] at isInteger
        rw [stored]
        exact reads.least readsBack isInteger
      have read :=
        NodeJSreadFF_number (finds.again other plain plain') reads.number tag
        stack
      rw [stored, reads.returned] at read
      exact ⟨v, _, y, _, swap, itself, read, reads.same.mpr readsBack⟩
  · have unmatched : ¬ casEqual (scalar oldType oldWord)
        (scalar cell.type (ledger.buf.word (EMSdataCell idx))) = true := by
      intro matched
      obtain ⟨k, isCell, x, isNumber, same⟩ := equal.mp matched
      cases isNumber
      exact recognises (recognised.mp ⟨k, isCell, same⟩)
    rw [if_neg unmatched] at swap
    have read := NodeJSreadFF_number finds cell.isNumber holds.tag stack
    rw [returned] at read
    rw [iff_true_intro (fun wrong => absurd wrong recognises), true_and,
      imp_iff_right recognises,
      ← sameNumber_iff integer]
    constructor
    · rintro ⟨x, after, z, last, swaps, -, again, same⟩
      obtain ⟨-, rfl⟩ := swap.unique swaps
      obtain ⟨isNumber, -⟩ := read.unique again
      cases isNumber
      exact same
    · intro same
      exact ⟨v, ledger, v, ledger, swap, itself, read, same⟩

theorem ReadsAs.integer_iff {w y : Float} {type : EMSType} {word k : Int}
    (reads : ReadsAs w type word y) (small : k.natAbs ≤ 2 ^ 53) :
    (type = .integer ∧ word = k) ↔ IsInt w k := by
  constructor
  · rintro ⟨rfl, rfl⟩
    exact isInt_of_2_ems (representable_of_le small) reads.converted
  · intro integer
    have same := reads.converted.symm.trans
      (integer_2_ems integer (by omega) (by omega) false)
    simpa [scalar] using same

theorem casKeeps_iff (holds : cell.In idx ledger.buf)
    (small : cell.amount.natAbs ≤ 2 ^ 53)
    (finds : Finds (patience + 1) array jsKey key idx ledger) {v : Float}
    (returned : ems2napiReturnValue
      (scalar cell.type (ledger.buf.word (EMSdataCell idx))) =
      some (.number v)) {u : JsValue}
        (differs : u.strictEquals (.number v) = false) (w : Float) :
    CasKeeps (patience + 1) array jsKey u w idx ledger ↔
      ∀ k, cell = .integer k → ¬ Int32Range k →
        (∃ x, u = .number x ∧ IsInt x k) → IsInt w k := by
  obtain ⟨type, word, y, reads⟩ := exists_readsAs w
  cases isOld : NAPI_OBJ_2_EMS_OBJ u false with
  | none =>
      refine iff_of_true ⟨none, ledger, ?_, rfl, rfl⟩ ?_
      · simp only [NodeJScas, finds.converted, isOld]
        exact .ret
      · rintro k - - ⟨x, rfl, -⟩
        cases isOld
  | some old =>
      have equal := casEqual_number_iff holds.word small isOld
      have swap :=
        NodeJScas_number finds cell.isNumber holds.tag isOld reads.converted
          reads.number
      by_cases matched : casEqual old
        (scalar cell.type (ledger.buf.word (EMSdataCell idx))) = true
      · rw [if_pos matched] at swap
        obtain ⟨k, rfl, x, rfl, integer⟩ := equal.mp matched
        have stored : ledger.buf.word (EMSdataCell idx) = k := holds.word
        have outside : ¬ Int32Range k := by
          intro range
          obtain ⟨_, ⟨⟩, same⟩ :=
            (number_returned holds.word returned).2.mpr range
          simp only [JsValue.strictEquals,
            (integer.beq same).mpr rfl] at differs
          cases differs
        have kept := reads.integer_iff (k := k) small
        constructor
        · rintro ⟨result, after, swaps, sameTag, sameWord⟩ _ ⟨⟩ - -
          obtain ⟨-, rfl⟩ := swap.unique swaps
          rw [holds.tag] at sameTag
          rw [stored] at sameWord
          apply kept.mp
          simpa [Ledger.withNumber, scalar,
            NumberCell.type] using And.intro sameTag sameWord
        · intro again
          obtain ⟨rfl, rfl⟩ := kept.mpr (again k rfl outside ⟨x, rfl, integer⟩)
          refine ⟨_, _, swap, ?_, ?_⟩
          · rw [holds.tag]
            simp [Ledger.withNumber, scalar, NumberCell.type]
          · rw [stored]
            simp [Ledger.withNumber, scalar]
      · rw [if_neg matched] at swap
        refine iff_of_true ⟨_, ledger, swap, rfl, rfl⟩ ?_
        intro k isCell _ isNumber
        exact absurd (equal.mpr ⟨k, isCell, isNumber⟩) matched

/-- A compare-and-swap of the number that was read swaps for every number that
is read again, if the element holds an integer of 32 bits, and otherwise only
seems to swap when the new number is the old one.  A compare-and-swap of another
value keeps the element, unless the value is the integer of more than 32 bits
that the element holds. -/
theorem cas_numbers (positive : 0 < array.nElem)
    (produced : Produced array idx (some cell) ledger)
    (inside : 0 ≤ idx) (converted : NAPI_OBJ_2_EMS_OBJ jsKey false = some key)
    (named : keyIndex array key ledger.buf array.isMapped = idx) {v : Float}
    (read : heapSolo.Returns (NodeJSreadFF patience array stack jsKey) ledger
      (some (.number v))
      middle) :
    (∀ w, CasSwaps patience array stack jsKey v w middle ↔
      (cell.Recognised → ReadsBack w) ∧ (¬ cell.Recognised → (v == w) = true)) ∧
    ∀ u w, u.strictEquals (.number v) = false →
      (CasKeeps patience array jsKey u w idx middle ↔
        ∀ k, cell = .integer k → ¬ Int32Range k →
          (∃ x, u = .number x ∧ IsInt x k) →
          IsInt w k) := by
  obtain ⟨holds, small⟩ := produced.holds positive cell rfl
  obtain ⟨nonzero, finds, returned, rfl⟩ :=
    NodeJSreadFF_returned cell.isNumber holds.tag positive inside
      converted named read
  obtain ⟨p, rfl⟩ := Nat.exists_eq_succ_of_ne_zero nonzero
  constructor
  · exact casSwaps_iff positive holds small finds returned.symm
  · exact fun u w differs =>
      casKeeps_iff holds small finds returned.symm differs w

end Swaps

/-! ## A sum that is not swapped -/

section Sum

/-- An array of one element. -/
def singleElement : EmsArray := ⟨1, false⟩

def zeroKey : JsValue := .number (Float.ofInt 0)

theorem zeroKey_2_ems :
    NAPI_OBJ_2_EMS_OBJ zeroKey false = some (scalar .integer 0) :=
  integer_2_ems (isInt_ofInt (.inl rfl)) (by decide) (by decide) false

theorem zeroKey_index (buf : EmsBuf) :
    keyIndex singleElement (scalar .integer 0) buf false = 0 ∧
      (slotSearch singleElement (scalar .integer 0) buf).At 0 := by
  have index : ∀ isMapped, isMapped = false →
      keyIndex singleElement (scalar .integer 0) buf isMapped = 0 := by
    rintro _ rfl
    simp [keyIndex, keyStart, scalar, llabs]
  refine ⟨index false rfl, ?_⟩
  rw [slotSearch, index singleElement.isMapped rfl, index false rfl]
  exact .inl rfl

/-- The element is written, one is added, and it is read. -/
def writeAddRead : EmsProg (Option JsValue × Option JsValue × Option JsValue) :=
  do
  let written ← NodeJSwriteXF 1 singleElement zeroKey
    (.number (Float.ofInt (2 ^ 30 - 1))) false
  let old ← NodeJSfaa 1 singleElement zeroKey (.number (Float.ofInt 1)) false
  let sum ← NodeJSreadFF 1 singleElement ⟨.full, .undefined, 0⟩ zeroKey
  return (written, old, sum)

def isNumberSum : Option JsValue × Option JsValue × Option JsValue → Bool
  | (some (.boolean true), some _, some (.number _)) => true
  | _ => false

def untouched : Ledger := ⟨uniformBuf ⟨.full, .undefined, 0⟩ 0, [], false⟩

private theorem writeAddRead_returns :
    ∃ result last, heapSolo.Returns writeAddRead untouched result last ∧
      isNumberSum result = true :=
  heapSolo.exists_returns writeAddRead untouched
    (fun played => isNumberSum played.1)
    (by decide +kernel)

/-- A double that JavaScript takes for an integer. -/
theorem exists_sum : ∃ ledger v middle,
    Produced singleElement 0 (some (.double (2 ^ 30))) ledger ∧
      heapSolo.Returns (NodeJSreadFF 1 singleElement ⟨.full, .undefined, 0⟩
        zeroKey) ledger
        (some (.number v)) middle := by
  obtain ⟨result, last, returned, isSum⟩ := writeAddRead_returns
  obtain ⟨written, first, writing, continued⟩ :=
    Solo.returns_bind_iff.mp returned
  obtain ⟨old, second, adding, continued⟩ := Solo.returns_bind_iff.mp continued
  obtain ⟨sum, third, reading, ended⟩ := Solo.returns_bind_iff.mp continued
  obtain ⟨rfl, rfl⟩ := Solo.returns_ret_iff.mp ended
  unfold isNumberSum at isSum
  split at isSum
  · next o v isResult =>
      cases isResult
      have made : Produced singleElement 0
          (some (.integer (2 ^ 30 - 1))) first := by
        apply Produced.call (.start untouched)
          (.writeXF zeroKey_2_ems (zeroKey_index _).2
          (isInt_ofInt (representable_of_le (by decide))) writing)
        rintro _ ⟨⟩
        decide
      have summed : Produced singleElement 0 (some (.double (2 ^ 30)))
          second := by
        apply Produced.call made (.faa zeroKey_2_ems (zeroKey_index _).2
          (isInt_ofInt (representable_of_le (by decide))) adding)
        rintro _ ⟨⟩
        decide
      exact ⟨second, v, _, summed, reading⟩
  · cases isSum

/-- The sum is read, but a compare-and-swap of it swaps for no other number. -/
theorem cas_numbers_sum : ∃ v ledger, ∀ w,
    CasSwaps 1 singleElement ⟨.full, .undefined, 0⟩ zeroKey v w ledger ↔
      ((NumberCell.double (2 ^ 30)).Recognised → ReadsBack w) ∧
      (¬ (NumberCell.double (2 ^ 30)).Recognised → (v == w) = true) := by
  obtain ⟨ledger, v, middle, produced, read⟩ := exists_sum
  exact ⟨v, middle, (cas_numbers (by decide) produced le_rfl zeroKey_2_ems
    (zeroKey_index _).1
    read).1⟩

/-- The element keeps the sum although its compare-and-swap returns it. -/
theorem not_cas_numbers : ¬ ∀ (array : EmsArray) (idx : Int) (cell : NumberCell)
    (ledger middle : Ledger) (patience : Nat) (stack : Tag) (jsKey : JsValue)
    (key : EMSvalueType)
    (v : Float), 0 < array.nElem → Produced array idx
    (some cell) ledger → 0 ≤ idx →
    NAPI_OBJ_2_EMS_OBJ jsKey false = some key →
    keyIndex array key ledger.buf array.isMapped = idx →
    heapSolo.Returns (NodeJSreadFF patience array stack jsKey) ledger
      (some (.number v)) middle →
    (∀ w, CasSwaps patience array stack jsKey v w middle) ∧
      ∀ u w, u.strictEquals (.number v) = false →
        CasKeeps patience array jsKey u w idx middle := by
  intro always
  obtain ⟨ledger, v, middle, produced, read⟩ := exists_sum
  have index := (zeroKey_index ledger.buf).1
  obtain ⟨holds, small⟩ := produced.holds (by decide) _ rfl
  obtain ⟨-, finds, returned, rfl⟩ :=
    NodeJSreadFF_returned (NumberCell.isNumber _) holds.tag
    (by decide) le_rfl zeroKey_2_ems index read
  have swaps :=
    (always _ _ _ _ _ _ _ _ _ v (by decide) produced le_rfl zeroKey_2_ems
      index read).1
    (Float.ofInt 0)
  have same :=
    ((casSwaps_iff (by decide) holds small finds returned.symm _).mp swaps).2 id
  obtain rfl := JsValue.number.inj (Option.some.inj returned)
  have sum : IsInt _ (2 ^ 30) := holds.word
  exact absurd ((sum.beq (isInt_ofInt (.inl rfl))).mp same) (by decide)

end Sum

end Numbers

end EMS
