import EMS.Concatenations
import EMS.OwnedBlocks
import EMS.ScalarAtomicity

/-!
# What fetch-and-add stores

The element gets the type, and the word or the string, of the sum, which is a
string, a number, or no number.  There are five types of values, and each pair
of them has a branch of its own; the branch of a string that is added to an
undefined element leaves the element undefined.
-/

namespace EMS

open SharedProgram Doubles

/-! ## Values and their sums -/

/-- The word of the element and the heap spell the value. -/
structure Spells (buf : EmsBuf) (idx : Int) (value : EMSvalueType) : Prop where
  word : value.type.IsWord → buf.word (EMSdataCell idx) = value.value
  text : value.type.IsText →
    HeapHolds buf.heap (buf.word (EMSdataCell idx)) value.text.bytes

/-- A value that can be in the element or be added to it.  A string takes less
than half of the memory there can be. -/
structure Summand (value : EMSvalueType) : Prop where
  type : IsScalar value.type ∨ value.type = .string
  boolean : value.type = .boolean → value.value = 0 ∨ value.value = 1
  integer : value.type = .integer → InInt64 value.value
  text : value.type = .string → value.text.bytes.length < 2 ^ 62 ∧
    value.length < 2 ^ 62

section Sums

variable [CRuntime] {old value : EMSvalueType}

/-- The text of a value to which a string is added. -/
def oldText (old : EMSvalueType) : CString :=
  match old.type with
  | .boolean => textOf (if old.value ≠ 0 then "true" else "false").toList
  | .integer => formatInt old.value
  | .float => CRuntime.format old.value
  | .undefined => textOf "NaN".toList
  | _ => old.text

/-- The text of a value that is added to a string. -/
def addedText (value : EMSvalueType) : CString :=
  match value.type with
  | .boolean => textOf (if value.value ≠ 0 then "true" else "false").toList
  | .integer => formatInt value.value
  | .float => CRuntime.format value.value
  | .undefined => textOf "undefined".toList
  | _ => value.text

/-- The old text followed by the text of the argument. -/
def sumText (old value : EMSvalueType) : CString :=
  (oldText old).append (addedText value)

/-- One of the operands is a string. -/
def SumIsText (old value : EMSvalueType) : Prop :=
  old.type = .string ∨ value.type = .string

instance : Decidable (SumIsText old value) :=
  inferInstanceAs (Decidable (_ ∨ _))

/-- The value that the element gets, unless a string is added to an undefined
one. -/
def sumOf (old value : EMSvalueType) : EMSvalueType :=
  if SumIsText old value then
    ⟨.string, 0, sumText old value, (sumText old value).bytes.length⟩
  else scalar (scalarSum old.type old.value value).1
    (scalarSum old.type old.value value).2

private theorem faaSuffix_eq (summand : Summand value) (oldStrLen : Nat)
    (short : oldStrLen < 2 ^ 62) :
    ∃ len, ValidRequest len ∧ faaSuffix oldStrLen value =
      some (len, addedText value) := by
  have most : MAX_NUMBER2STR_LEN = 40 := rfl
  rcases summand.type with (type | type | type | type) | type <;>
    simp only [faaSuffix, addedText, type]
  · exact ⟨_, by constructor <;> omega, rfl⟩
  · exact ⟨_, by constructor <;> omega, rfl⟩
  · exact ⟨_, by constructor <;> omega, rfl⟩
  · exact ⟨_, by constructor <;> omega, rfl⟩
  · have room := (summand.text type).2
    exact ⟨_, by constructor <;> omega, rfl⟩

end Sums

/-! ## The parts of fetch-and-add -/

section Parts

variable {patience idx level : Nat} {ledger after : Ledger}
  {rest : Multiset Block}

/-- What the element has got: a type, which is stored later, a word, and the
blocks of a string. -/
structure Gets (level : Nat) (idx : Nat) (value : EMSvalueType)
    (rest : Multiset Block)
    (after : Ledger) : Prop where
  spells : Spells after.buf idx value
  ordered : after.Ordered level
  owns : ∃ own : List Block,
    BlocksOf value.type (after.buf.word (EMSdataCell idx)) own ∧
    (after.live : Multiset Block) = own + rest

private theorem storeText_gets {len : Nat} {compose : EmsProg CString}
    {text : CString}
    (valid : ValidRequest len) (ordered : ledger.Ordered level)
    (live : (ledger.live : Multiset Block) = rest)
    (composes : ∀ mem address, heapSolo.Returns compose
      (ledger.allocated len address mem) text
      (ledger.allocated len address mem))
    (returned : heapSolo.Returns (storeText patience idx len compose) ledger
      (.ok ()) after) :
    Gets level idx ⟨.string, 0, text, text.bytes.length⟩ rest after := by
  obtain ⟨address, between, requested, continued⟩ :=
    Solo.returns_bind_iff.mp returned
  obtain ⟨mem, answer, rfl⟩ := emsMutexMem_alloc_returns requested
  split at continued
  · cases (Solo.returns_ret_iff.mp continued).1
  · next served =>
      have placing := (composes mem address).bind_iff.mp continued
      have copied := copyToHeap_returns placing
      rw [store_returns] at copied
      obtain ⟨-, rfl⟩ := Solo.returns_ret_iff.mp copied
      have positive : 0 ≤ address := by omega
      refine ⟨⟨nofun, fun _ => ?_⟩,
        (ordered.allocated valid answer positive).congr rfl rfl rfl,
        [⟨address.toNat, len⟩], ?_, ?_⟩
      · simpa using writeText_holds _ _ _
      · rw [BlocksOf, if_pos (.inl rfl)]
        exact ⟨_, rfl, by simp [positive]⟩
      · simp [Ledger.allocated, positive, ← live]

theorem faaStored_gets (text : CString) {len : Nat} {compose : EmsProg CString}
    {res : EMSvalueType} {type sumType : EMSType} (valid : ValidRequest len)
    (ordered : ledger.Ordered level)
    (live : (ledger.live : Multiset Block) = rest)
    (composes : ∀ mem address, heapSolo.Returns compose
      (ledger.allocated len address mem) text
      (ledger.allocated len address mem)) {result : EMSvalueType}
    (returned : heapSolo.Returns (do
      let sum ← (do
        let stored ← storeText patience idx len compose
        return stored.map fun _ => type : EmsProg (Except EMSError EMSType))
      return sum.map fun sumType => (result, sumType)) ledger
        (.ok (res, sumType)) after) :
    res = result ∧ sumType = type ∧
      Gets level idx ⟨.string, 0, text, text.bytes.length⟩ rest after := by
  obtain ⟨summed, between, storing, ended⟩ := Solo.returns_bind_iff.mp returned
  obtain ⟨isSum, rfl⟩ := Solo.returns_ret_iff.mp ended
  obtain ⟨stored, written, writing, ended⟩ := Solo.returns_bind_iff.mp storing
  obtain ⟨rfl, rfl⟩ := Solo.returns_ret_iff.mp ended
  cases stored with
  | error error => cases isSum
  | ok _ =>
      cases isSum
      exact ⟨rfl, rfl, storeText_gets valid ordered live composes writing⟩

variable [CRuntime] {old value : EMSvalueType}

/-- A string gets a block for the longer text, and its old block is given
back. -/
theorem faaString_gets (small : EMS_MEM_BLOCKSZ * 2 ^ level < 2 ^ 63)
    (ordered : ledger.Ordered level) {block : Block}
    (address : ledger.buf.word (EMSdataCell idx) = block.address)
    (live : (ledger.live : Multiset Block) = {block} + rest)
    {text taken : CString}
    {sumType : EMSType} (short : text.bytes.length < 2 ^ 62)
    (added : Summand value)
    (holds : HeapHolds ledger.buf.heap
      (ledger.buf.word (EMSdataCell idx)) text.bytes)
    (returned : heapSolo.Returns (faaString patience idx value) ledger
      (.ok (taken, sumType))
      after) :
    taken = text ∧ sumType = .string ∧
      Gets level idx ⟨.string, 0, text.append (addedText value),
        (text.append (addedText value)).bytes.length⟩ rest after := by
  rw [faaString, load_returns] at returned
  obtain ⟨length, between, measured, continued⟩ :=
    Solo.returns_bind_iff.mp returned
  obtain ⟨same, measuredText, holds', rfl⟩ := heapStrlen_returns measured
  subst between
  obtain rfl := holds'.unique holds
  obtain ⟨copy, between, copied, ended⟩ :=
    Solo.returns_bind_iff.mp (guarded_returns continued)
  obtain ⟨same, holds''⟩ := copyFromHeap_returns copied
  subst between
  obtain rfl := holds''.unique holds
  obtain ⟨len, valid, suffixed⟩ := faaSuffix_eq added copy.bytes.length short
  simp only [suffixed] at ended
  obtain ⟨newAddress, allocated, requested, storing⟩ :=
    Solo.returns_bind_iff.mp ended
  obtain ⟨mem, answer, rfl⟩ := emsMutexMem_alloc_returns requested
  split at storing
  · cases (Solo.returns_ret_iff.mp storing).1
  · next served =>
      obtain ⟨again, composed, copied, placing⟩ :=
        Solo.returns_bind_iff.mp storing
      obtain ⟨rfl, holds''⟩ := copyFromHeap_returns copied
      obtain rfl := holds''.unique holds
      have freeing := copyToHeap_returns placing
      rw [address] at freeing
      obtain ⟨mem', answer', freed⟩ := emsMutexMem_free_returns freeing
      rw [store_returns] at freed
      obtain ⟨isPair, rfl⟩ := Solo.returns_ret_iff.mp freed
      cases isPair
      have positive : 0 ≤ newAddress := by omega
      have grown : ((ledger.allocated len newAddress mem).live :
          Multiset Block) =
          {⟨newAddress.toNat, len⟩} + ({block} + rest) := by
        rw [Ledger.allocated, if_pos positive, ← Multiset.cons_coe, live]
        rfl
      have member : block ∈ (ledger.allocated len newAddress mem).live := by
        rw [← Multiset.mem_coe, grown]
        simp
      have inOrder : ((ledger.allocated len newAddress mem).setHeap
          (writeText ledger.buf.heap newAddress
            (taken.append (addedText value)).bytes)).Ordered level :=
        (ordered.allocated valid answer positive).congr rfl rfl rfl
      obtain ⟨inOrder', erased⟩ := inOrder.freed small member answer'
      refine ⟨rfl, rfl, ⟨by simp [EMSType.IsWord], fun _ => ?_⟩,
        inOrder'.congr rfl rfl rfl,
        [⟨newAddress.toNat, len⟩], ?_, ?_⟩
      · simpa using writeText_holds _ _ _
      · rw [BlocksOf, if_pos (.inl rfl)]
        exact ⟨_, rfl, by simp [positive]⟩
      · have left : (((ledger.allocated len newAddress mem).live.erase block :
            List Block) :
            Multiset Block) = {⟨newAddress.toNat, len⟩} + rest := by
          rw [← Multiset.coe_erase, grown, add_left_comm,
            Multiset.singleton_add,
            Multiset.erase_cons_head]
        simpa [erased] using left

/-- The sum of scalars is a word. -/
theorem faaElement_scalar {type sumType : EMSType} {res : EMSvalueType}
    (isScalar : IsScalar type)
    (addedScalar : IsScalar value.type)
    (returned : heapSolo.Returns (faaElement patience idx type value) ledger
      (.ok (res, sumType))
      after) :
    res.type = type ∧ (type.IsWord → res.value =
        if type = .boolean then
          (if ledger.buf.word (EMSdataCell idx) ≠ 0 then 1 else 0)
        else ledger.buf.word (EMSdataCell idx)) ∧
      sumType = (scalarSum type (ledger.buf.word (EMSdataCell idx)) value).1 ∧
      after = ledger.setWord (EMSdataCell idx)
        (scalarSum type (ledger.buf.word (EMSdataCell idx)) value).2 := by
  rcases isScalar with rfl | rfl | rfl | rfl
  · rcases addedScalar with added | added | added | added <;>
      simp only [faaElement, faaBoolean, added, bind_assoc, load_returns,
        store_returns,
        pure_bind] at returned <;>
      obtain ⟨same, rfl⟩ := Solo.returns_ret_iff.mp returned <;>
      cases same <;> simp [scalarSum, added, scalar]
  · by_cases integer : value.type = .integer
    · obtain ⟨same, rfl⟩ :=
        (faaElement_addition (.inl rfl) (.inl integer)).mp returned
      cases same
      have sum : scalarSum .integer (ledger.buf.word (EMSdataCell idx)) value =
          numberSum .integer (ledger.buf.word (EMSdataCell idx)) value := by
        simp only [scalarSum, numberSum, integer]
      rw [sum]
      exact ⟨rfl, fun _ => rfl, rfl, rfl⟩
    · rcases addedScalar with added | added | added | added
      · simp only [faaElement, faaInteger, added, bind_assoc, load_returns,
          store_returns,
          pure_bind] at returned
        obtain ⟨same, rfl⟩ := Solo.returns_ret_iff.mp returned
        cases same
        simp [scalarSum, added, scalar]
      · exact absurd added integer
      · simp only [faaElement, faaInteger, added, bind_assoc, load_returns,
          store_returns,
          pure_bind] at returned
        obtain ⟨same, rfl⟩ := Solo.returns_ret_iff.mp returned
        cases same
        simp [scalarSum, added, scalar]
      · simp only [faaElement, faaInteger, added, bind_assoc, load_returns,
          store_returns,
          pure_bind] at returned
        obtain ⟨same, rfl⟩ := Solo.returns_ret_iff.mp returned
        cases same
        simp [scalarSum, added, scalar]
  · rcases addedScalar with added | added | added | added <;>
      simp only [faaElement, faaFloat, added, bind_assoc, load_returns,
        store_returns,
        pure_bind] at returned <;>
      obtain ⟨same, rfl⟩ := Solo.returns_ret_iff.mp returned <;>
      cases same <;> simp [scalarSum, added, scalar]
  · rcases addedScalar with added | added | added | added <;>
      simp only [faaElement, faaUndefined, added, bind_assoc, store_returns,
        pure_bind] at returned <;>
      obtain ⟨same, rfl⟩ := Solo.returns_ret_iff.mp returned <;>
      cases same <;> simp [scalarSum, scalar, EMSType.IsWord]

omit [CRuntime] in
theorem BlocksOf.none {type : EMSType} {word : Int} {own : List Block}
    (noText : ¬ type.IsText)
    (blocks : BlocksOf type word own) : own = [] := by
  rwa [BlocksOf, if_neg noText] at blocks

omit [CRuntime] in
theorem isScalar_noText {type : EMSType} (isScalar : IsScalar type) :
    ¬ type.IsText := by
  rcases isScalar with rfl | rfl | rfl | rfl <;> decide

/-- A string that is added to a scalar makes a string of both texts, unless the
element is undefined. -/
theorem faaElement_text (ordered : ledger.Ordered level) (isOld : Summand old)
    (isScalar : IsScalar old.type) (defined : old.type ≠ .undefined)
    (word : old.type.IsWord → ledger.buf.word (EMSdataCell idx) = old.value)
    (string : value.type = .string) (short : value.length < 2 ^ 62)
    (live : (ledger.live : Multiset Block) = rest) {res : EMSvalueType}
    {sumType : EMSType}
    (returned : heapSolo.Returns (faaElement patience idx old.type value) ledger
      (.ok (res, sumType)) after) :
    SameContent res old ∧ sumType = .string ∧
      Gets level idx ⟨.string, 0, sumText old value,
        (sumText old value).bytes.length⟩ rest
        after := by
  have most : MAX_NUMBER2STR_LEN = 40 := rfl
  have added : addedText value = value.text := by simp only [addedText, string]
  rcases isScalar with type | type | type | type
  · have word' := word (.inl type)
    have text : (textOf (if ledger.buf.word (EMSdataCell idx) ≠ 0 then "true"
        else "false").toList).append value.text = sumText old value := by
      simp only [sumText, oldText, type, added, word']
    simp only [type, faaElement, faaBoolean, string, load_returns] at returned
    obtain ⟨rfl, rfl, gets⟩ :=
      faaStored_gets (sumText old value) (by constructor <;> omega)
      ordered live (fun mem address => by
        rw [load_returns, ← text]
        exact .ret) returned
    refine ⟨⟨type.symm, by simp [scalar, EMSType.IsText], fun _ => ?_⟩, rfl,
      gets⟩
    rw [word']
    rcases isOld.boolean type with zero | one
    · simp [scalar, zero]
    · simp [scalar, one]
  · have word' := word (.inr (.inl type))
    have text : (formatInt (ledger.buf.word (EMSdataCell idx))).append
        value.text =
        sumText old value := by
      simp only [sumText, oldText, type, added, word']
    simp only [type, faaElement, faaInteger, string, load_returns] at returned
    obtain ⟨rfl, rfl, gets⟩ :=
      faaStored_gets (sumText old value) (by constructor <;> omega)
      ordered live (fun mem address => by
        rw [load_returns, ← text]
        exact .ret) returned
    exact ⟨⟨type.symm, by simp [scalar, EMSType.IsText], fun _ => word'⟩, rfl,
      gets⟩
  · have word' := word (.inr (.inr type))
    have text : (CRuntime.format (ledger.buf.word (EMSdataCell idx))).append
        value.text =
        sumText old value := by
      simp only [sumText, oldText, type, added, word']
    simp only [type, faaElement, faaFloat, string, load_returns] at returned
    obtain ⟨rfl, rfl, gets⟩ :=
      faaStored_gets (sumText old value) (by constructor <;> omega)
      ordered live (fun mem address => by
        rw [load_returns, ← text]
        exact .ret) returned
    exact ⟨⟨type.symm, by simp [scalar, EMSType.IsText], fun _ => word'⟩, rfl,
      gets⟩
  · exact absurd type defined

/-- Scalars are added to a word, and nothing is allocated. -/
theorem faaElement_word (ordered : ledger.Ordered level) (isOld : Summand old)
    (isScalar : IsScalar old.type) (addedScalar : IsScalar value.type)
    (word : old.type.IsWord → ledger.buf.word (EMSdataCell idx) = old.value)
    (live : (ledger.live : Multiset Block) = rest) {res : EMSvalueType}
    {sumType : EMSType}
    (returned : heapSolo.Returns (faaElement patience idx old.type value) ledger
      (.ok (res, sumType)) after) :
    SameContent res old ∧ sumType = (scalarSum old.type old.value value).1 ∧
      Gets level idx (scalar (scalarSum old.type old.value value).1
        (scalarSum old.type old.value value).2) rest after := by
  obtain ⟨type, isWord, rfl, rfl⟩ :=
    faaElement_scalar isScalar addedScalar returned
  have sum : scalarSum old.type (ledger.buf.word (EMSdataCell idx)) value =
      scalarSum old.type old.value value := by
    rcases isScalar with kind | kind | kind | kind
    · rw [word (.inl kind)]
    · rw [word (.inr (.inl kind))]
    · rw [word (.inr (.inr kind))]
    · rw [kind]
      simp [scalarSum]
  have noText : ¬ (scalarSum old.type old.value value).1.IsText := by
    rcases scalarSum_type old.type old.value value with integer | float
    · rw [integer]
      decide
    · rw [float]
      decide
  rw [sum]
  refine ⟨⟨type, fun isText => ?_, fun resWord => ?_⟩, rfl,
    ⟨fun _ => by simp [scalar],
    fun isText => absurd isText noText⟩, ordered.congr rfl rfl rfl, [], ?_, ?_⟩
  · rw [type] at isText
    exact absurd isText (isScalar_noText isScalar)
  · rw [type] at resWord
    rw [isWord resWord, word resWord]
    split
    · next boolean =>
        rcases isOld.boolean boolean with zero | one
        · simp [zero]
        · simp [one]
    · rfl
  · exact (if_neg noText).mpr rfl
  · simpa using live

/-- Fetch-and-add on an element that holds a value returns the value, and the
element gets the sum. -/
theorem faaElement_gets (small : EMS_MEM_BLOCKSZ * 2 ^ level < 2 ^ 63)
    (ordered : ledger.Ordered level) (isOld : Summand old)
    (added : Summand value)
    (spells : Spells ledger.buf idx old) {own : List Block}
    (owns : BlocksOf old.type (ledger.buf.word (EMSdataCell idx)) own)
    (live : (ledger.live : Multiset Block) = own + rest)
    (defined : ¬ (old.type = .undefined ∧ value.type = .string))
    {res : EMSvalueType}
    {sumType : EMSType}
    (returned : heapSolo.Returns (faaElement patience idx old.type value) ledger
      (.ok (res, sumType)) after) :
    SameContent res old ∧ sumType = (sumOf old value).type ∧
      Gets level idx (sumOf old value) rest after := by
  rcases isOld.type with isScalar | isString
  · obtain rfl := owns.none (isScalar_noText isScalar)
    rw [Multiset.coe_nil, zero_add] at live
    rcases added.type with addedScalar | string
    · have noText : ¬ SumIsText old value := by
        rintro (wrong | wrong)
        · rw [wrong] at isScalar
          exact absurd isScalar (by decide)
        · rw [wrong] at addedScalar
          exact absurd addedScalar (by decide)
      rw [sumOf, if_neg noText]
      exact faaElement_word ordered isOld isScalar addedScalar spells.word
        live returned
    · rw [sumOf, if_pos (.inr string)]
      exact faaElement_text ordered isOld isScalar
        (fun undefined => defined ⟨undefined, string⟩)
        spells.word string (added.text string).2 live returned
  · have isText : old.type.IsText := .inl isString
    rw [BlocksOf, if_pos isText] at owns
    obtain ⟨block, rfl, address⟩ := owns
    rw [sumOf, if_pos (.inl isString)]
    simp only [isString, faaElement] at returned
    obtain ⟨sum, between, adding, ended⟩ := Solo.returns_bind_iff.mp returned
    obtain ⟨isSum, rfl⟩ := Solo.returns_ret_iff.mp ended
    cases sum with
    | error error => cases isSum
    | ok pair =>
        cases isSum
        obtain ⟨taken, type, gets⟩ := faaString_gets small ordered address live
          (isOld.text isString).1 added (spells.text isText) adding
        have text : sumText old value = old.text.append (addedText value) := by
          simp only [sumText, oldText, isString]
        rw [text]
        exact ⟨⟨isString.symm, fun _ => taken, by simp [EMSType.IsWord]⟩, type,
          gets⟩

private theorem faaElement_undefined (string : value.type = .string)
    {res : EMSvalueType}
    {sumType : EMSType}
    (returned : heapSolo.Returns
      (faaElement patience idx .undefined value) ledger
      (.ok (res, sumType)) after) : sumType = .undefined := by
  simp only [faaElement, faaUndefined, string] at returned
  obtain ⟨summed, between, storing, ended⟩ := Solo.returns_bind_iff.mp returned
  obtain ⟨isSum, rfl⟩ := Solo.returns_ret_iff.mp ended
  obtain ⟨stored, written, writing, ended⟩ := Solo.returns_bind_iff.mp storing
  obtain ⟨rfl, rfl⟩ := Solo.returns_ret_iff.mp ended
  cases stored with
  | error error => cases isSum
  | ok _ =>
      cases isSum
      rfl

end Parts

/-! ## The element after the call -/

section Stored

local instance storedRuntime : CRuntime := printfRuntime

variable {array : EmsArray} {idx level patience : Nat} {kept : Multiset Block}
  {key : EMSvalueType} {stack : Tag} {old value : EMSvalueType}
    {ledger before between after : Ledger}

/-- A number as a double. -/
def asDouble (value : EMSvalueType) : Int :=
  if value.type = .float then value.value else CRuntime.ofInt value.value

/-- What a read gives when the sum is in the element: the text of both, no
number when one is undefined, the sum of two doubles when one is a double, and
otherwise the exact sum or the double that is nearest to it. -/
def IsSum (old value : EMSvalueType) (heap : Int → UInt8)
    (sum : EMSvalueType) : Prop :=
  if SumIsText old value then
    Reads heap sum ⟨.string, 0, sumText old value,
      (sumText old value).bytes.length⟩
  else if old.type = .undefined ∨ value.type = .undefined then
    sum.type = .float ∧ (toDouble sum.value).isNaN = true
  else if old.type = .float ∨ value.type = .float then
    sum.type = .float ∧ sum.value = CRuntime.add (asDouble old) (asDouble value)
  else
    sum.type = .integer ∧ sum.value = old.value + value.value ∨
      sum.type = .float ∧
        Nearest (toDouble sum.value) (old.value + value.value : Int)

/-- The old value is returned, the element is full, a read of it gives the sum,
and the live blocks are those of the elements that are strings, those that were
kept, and that of a new key. -/
structure FaaStored (array : EmsArray) (idx level : Nat) (kept : Multiset Block)
    (old value res : EMSvalueType) (before between after : Ledger)
    (patience : Nat) (stack : Tag)
    (key : EMSvalueType) : Prop where
  returned : SameContent res old
  full : (after.buf.tag (EMSdataCell idx)).fe = .full
  owned : ∃ keyBlocks : List Block, between.live = keyBlocks ++ before.live ∧
    OwnedBlocks array level (kept + keyBlocks) after
  read : ∃ sum final, heapSolo.Returns (EMSreadFF patience array stack key)
    after (.ok sum) final ∧
    IsSum old value final.buf.heap sum

theorem EMSreadFF_stored (below : (idx : Int) < array.nElem)
    (finds : heapSolo.Returns
      (EMSkey2index patience array key array.isMapped) ledger idx ledger)
    (full : (ledger.buf.tag (EMSdataCell idx)).fe = .full)
    (type : (ledger.buf.tag (EMSdataCell idx)).type = value.type)
    {blocks : List Block}
    (word : WordHolds (ledger.buf.word (EMSdataCell idx)) ledger.buf.heap
      value blocks)
    (boolean : value.type = .boolean → value.value = 0 ∨ value.value = 1)
    (patient : value.text.bytes.length < patience) :
    ∃ sum final, heapSolo.Returns (EMSreadFF patience array stack key) ledger
      (.ok sum) final ∧
      Reads final.buf.heap sum value := by
  have ended : (quietSolo False).Ends
      (ReadOk array idx (some .full)
        { ledger.buf.tag (EMSdataCell idx) with fe := .busy }
        (acquiredRead idx (some .full) ledger.buf) value)
      (readLoop patience array idx (some .full) (some .full) patience stack)
          ledger.buf :=
    readLoop_ends word type boolean (by simp) (by simp [full]) (by omega)
  obtain ⟨res, buf, returned, same, sum, rfl, reads⟩ := Ends.exists_quiet ended
  refine ⟨sum, { ledger with buf := buf }, ?_, ?_⟩
  · rw [EMSreadFF, EMSreadUsingTags, finds.bind_iff, if_neg (by omega),
      if_neg (by omega)]
    exact returned
  · rw [same, finishedRead_same]
    exact reads

private theorem scalarSum_whole (wholeOld : old.IsWhole)
    (whole : value.IsWhole) :
    scalarSum old.type old.value value =
      (.integer, toInt64 (old.value + value.value)) ∨
      2 ^ 30 ≤ toInt64 (old.value + value.value) ∧
        scalarSum old.type old.value value =
          (.float, CRuntime.ofInt (toInt64 (old.value + value.value))) := by
  rcases wholeOld with type | type
  · rcases whole with added | added
    · simp only [scalarSum, type, added]
      split
      · next large => exact .inr ⟨large, rfl⟩
      · exact .inl rfl
    · left
      simp only [scalarSum, type, added]
  · left
    rcases whole with added | added <;> simp only [scalarSum, type, added]

private theorem scalarSum_undefined (isScalar : IsScalar old.type)
    (undefined : old.type = .undefined ∨ value.type = .undefined) :
    scalarSum old.type old.value value = (.float, CRuntime.nan) := by
  rcases undefined with type | added
  · rw [type]
    simp [scalarSum]
  · rcases isScalar with type | type | type | type <;> simp only [scalarSum,
      type, added]

private theorem scalarSum_float (isScalar : IsScalar old.type)
    (addedScalar : IsScalar value.type)
    (defined : ¬ (old.type = .undefined ∨ value.type = .undefined))
    (float : old.type = .float ∨ value.type = .float) :
    scalarSum old.type old.value value =
      (.float, CRuntime.add (asDouble old) (asDouble value)) := by
  rw [not_or] at defined
  rcases isScalar with type | type | type | type
  · have added := float.resolve_left (by simp [type])
    simp [scalarSum, asDouble, type, added]
  · have added := float.resolve_left (by simp [type])
    simp [scalarSum, asDouble, type, added]
  · rcases addedScalar with added | added | added | added
    · simp [scalarSum, asDouble, type, added]
    · simp [scalarSum, asDouble, type, added]
    · simp [scalarSum, asDouble, type, added]
    · exact absurd added defined.2
  · exact absurd type defined.1

theorem InInt64.of_whole (summand : Summand value) (whole : value.IsWhole) :
    InInt64 value.value := by
  rcases whole with integer | boolean
  · exact summand.integer integer
  · rw [InInt64]
    rcases summand.boolean boolean with zero | one
    · omega
    · omega

/-- The stored sum of whole numbers is their sum if and only if it has 64
bits. -/
theorem wholeSum_iff {sum : Int} {type : EMSType} {word : Int}
    (stored : (type, word) = (.integer, toInt64 sum) ∨ 2 ^ 30 ≤ toInt64 sum ∧
      (type, word) = (.float, CRuntime.ofInt (toInt64 sum)))
    (least : -2 ^ 64 ≤ sum) (most : sum < 2 ^ 64) :
    (type = .integer ∧ word = sum ∨ type = .float ∧ Nearest
      (toDouble word) sum) ↔
      InInt64 sum := by
  have range := toInt64_range sum
  rcases stored with isInteger | ⟨large, isFloat⟩
  · obtain ⟨rfl, rfl⟩ := Prod.mk.inj isInteger
    constructor
    · rintro (⟨-, same⟩ | ⟨wrong, -⟩)
      · rwa [same] at range
      · cases wrong
    · intro inside
      left
      exact ⟨rfl, inside.toInt64_eq⟩
  · obtain ⟨rfl, isWord⟩ := Prod.mk.inj isFloat
    rw [isWord]
    constructor
    · rintro (⟨wrong, -⟩ | ⟨-, near⟩)
      · cases wrong
      · by_contra outside
        have negative : sum < 0 := by
          by_contra nonneg
          have above : 2 ^ 63 ≤ sum := by
            rw [InInt64] at outside
            omega
          have wrapped : toInt64 (sum - 2 ^ 64) = toInt64 sum :=
            Int.sub_bmod_right sum (2 ^ 64)
          have inside : InInt64 (sum - 2 ^ 64) := by
            rw [InInt64]
            omega
          rw [inside.toInt64_eq] at wrapped
          omega
        exact not_nearest_wrapped large negative near
    · intro inside
      have near := double_nearest inside
      rw [inside.toInt64_eq]
      exact .inr ⟨rfl, near⟩

/-- What is read is the sum, unless whole numbers do not add up in 64 bits. -/
theorem isSum_iff {heap : Int → UInt8} {sum : EMSvalueType}
    (isOld : Summand old)
    (added : Summand value) (reads : Reads heap sum (sumOf old value)) :
    IsSum old value heap sum ↔
      (old.IsWhole → value.IsWhole → InInt64 (old.value + value.value)) := by
  rw [sumOf] at reads
  rw [IsSum]
  split at reads
  · next isText =>
      rw [if_pos isText]
      refine iff_of_true reads fun whole whole' => ?_
      rcases isText with string | string
      · rw [EMSvalueType.IsWhole, string] at whole
        exact absurd whole (by decide)
      · rw [EMSvalueType.IsWhole, string] at whole'
        exact absurd whole' (by decide)
  · next noText =>
      rw [if_neg noText]
      obtain ⟨oldText, addedText⟩ := not_or.mp noText
      have isScalar := isOld.type.resolve_right oldText
      have addedScalar := added.type.resolve_right addedText
      obtain ⟨type, -, word⟩ := reads
      have isWord : (scalarSum old.type old.value value).1.IsWord :=
        .inr (scalarSum_type _ _ _)
      have word' : sum.value = (scalarSum old.type old.value value).2 :=
        word isWord
      have type' : sum.type = (scalarSum old.type old.value value).1 := type
      split
      · next undefined =>
          rw [scalarSum_undefined isScalar undefined] at type' word'
          rw [word']
          refine iff_of_true ⟨type', by decide +kernel⟩ fun wholeOld whole => ?_
          rcases undefined with wrong | wrong
          · rw [EMSvalueType.IsWhole, wrong] at wholeOld
            exact absurd wholeOld (by decide)
          · rw [EMSvalueType.IsWhole, wrong] at whole
            exact absurd whole (by decide)
      · next defined =>
          split
          · next float =>
              rw [scalarSum_float isScalar addedScalar defined
                float] at type' word'
              refine iff_of_true ⟨type', word'⟩ fun wholeOld whole => ?_
              rcases float with wrong | wrong
              · rw [EMSvalueType.IsWhole, wrong] at wholeOld
                exact absurd wholeOld (by decide)
              · rw [EMSvalueType.IsWhole, wrong] at whole
                exact absurd whole (by decide)
          · next noFloat =>
              obtain ⟨oldDefined, addedDefined⟩ := not_or.mp defined
              obtain ⟨oldWhole, addedWhole⟩ := not_or.mp noFloat
              have wholeOld : old.IsWhole := by
                rcases isScalar with kind | kind | kind | kind
                · exact .inr kind
                · exact .inl kind
                · exact absurd kind oldWhole
                · exact absurd kind oldDefined
              have whole : value.IsWhole := by
                rcases addedScalar with kind | kind | kind | kind
                · exact .inr kind
                · exact .inl kind
                · exact absurd kind addedWhole
                · exact absurd kind addedDefined
              have oldRange := InInt64.of_whole isOld wholeOld
              have range := InInt64.of_whole added whole
              rw [InInt64] at oldRange range
              have stored := scalarSum_whole wholeOld whole
              rw [← Prod.eta (scalarSum old.type old.value value), ← type', ←
                word'] at stored
              rw [wholeSum_iff stored (by omega) (by omega)]
              exact ⟨fun inside _ _ => inside,
                fun always => always wholeOld whole⟩

/-- The element has got the type of the sum as well. -/
theorem Gets.wordHolds {rest : Multiset Block}
    (gets : Gets level idx value rest after)
    (isValue : IsScalar value.type ∨ value.type = .string) :
    ∃ blocks, WordHolds (after.buf.word (EMSdataCell idx)) after.buf.heap value
      blocks := by
  rcases isValue with (type | type | type | type) | string
  · exact ⟨[], (wordHolds_word (.inl type)).mpr
      ⟨gets.spells.word (.inl type), rfl⟩⟩
  · exact ⟨[], (wordHolds_word (.inr (.inl type))).mpr
      ⟨gets.spells.word (.inr (.inl type)), rfl⟩⟩
  · exact ⟨[], (wordHolds_word (.inr (.inr type))).mpr
      ⟨gets.spells.word (.inr (.inr type)), rfl⟩⟩
  · exact ⟨[], by simp [WordHolds, type]⟩
  · obtain ⟨own, blocks, -⟩ := gets.owns
    have text := gets.spells.text (.inl string)
    rw [BlocksOf, if_pos (.inl string)] at blocks
    obtain ⟨block, -, address⟩ := blocks
    rw [address] at text
    -- the text may be longer than its block
    exact ⟨[⟨block.address, value.text.bytes.length + 1⟩],
      (wordHolds_text (.inl string)).mpr
      ⟨_, rfl, address, Nat.lt_succ_self _, text⟩⟩

private theorem sumOf_value : IsScalar (sumOf old value).type ∨
    (sumOf old value).type = .string := by
  rw [sumOf]
  split
  · exact .inr rfl
  · left
    rcases scalarSum_type old.type old.value value with integer | float
    · exact .inr (.inl integer)
    · exact .inr (.inr (.inl float))

private theorem sumOf_not_boolean : (sumOf old value).type ≠ .boolean := by
  rw [sumOf]
  split
  · nofun
  · intro boolean
    rcases scalarSum_type old.type old.value value with integer | float
    · exact nomatch integer.symm.trans boolean
    · exact nomatch float.symm.trans boolean

private theorem sumOf_text :
    (sumOf old value).text.bytes.length ≤ (sumText old value).bytes.length := by
  rw [sumOf]
  split
  · exact le_rfl
  · exact Nat.zero_le _

private theorem released_data {i : Nat} (below : (i : Int) < array.nElem) :
    (ledger.released array idx).buf.tag (EMSdataCell i) = ledger.buf.tag
    (EMSdataCell i) := by
  rw [Ledger.released]
  split
  · simp [data_ne_map (Int.natCast_nonneg idx) i below]
  · rfl

private theorem faaElement_other {patience : Nat} {type : EMSType} {cell : Cell}
    {sum : Except EMSError (EMSvalueType × EMSType)}
    (returned : heapSolo.Returns
      (faaElement patience idx type value) ledger sum after)
    (other : cell ≠ EMSdataCell idx) :
    after.buf.word cell = ledger.buf.word cell := by
  have confined : Confined (fun _ => False) (fun cell => cell = EMSdataCell idx)
      (faaElement patience idx type value) := faaElement_confined rfl
  exact confined.word returned other

/-- A fetch-and-add that succeeds returns the old value and stores the sum, if
and only if no string is added to an undefined element and whole numbers add up
in 64 bits. -/
theorem EMSfaa_stored_iff {res : EMSvalueType} {patience' : Nat}
    {key' : EMSvalueType}
    (small : EMS_MEM_BLOCKSZ * 2 ^ level < 2 ^ 63) (positive : 0 < array.nElem)
    (below : (idx : Int) < array.nElem)
    (owned : OwnedBlocks array level kept before)
    (fits : key.type = .string → ValidRequest (key.length + 1))
    (searched : heapSolo.Returns
      (EMSwriteIndexMap patience array key) before idx between)
    (type : (between.buf.tag (EMSdataCell idx)).type = old.type)
    (isOld : Summand old)
    (spells : Spells between.buf idx old) (added : Summand value)
    (returned : heapSolo.Returns (EMSfaa patience array key value) before
      (.ok res) after)
    (finds : heapSolo.Returns
      (EMSkey2index patience' array key' array.isMapped) after idx after)
    (patient : (sumText old value).bytes.length < patience') :
    FaaStored array idx level kept old value res before between after patience'
      stack key' ↔
      ¬ (old.type = .undefined ∧ value.type = .string) ∧
        (old.IsWhole → value.IsWhole → InInt64 (old.value + value.value)) := by
  have called := EMSfaa_searched positive searched returned
  rw [if_neg (by omega), type] at called
  obtain ⟨-, sum, summed, adding, ended⟩ := called
  cases sum with
  | error error => exact absurd ended.1 (by simp)
  | ok pair =>
  obtain ⟨result, sumType⟩ := pair
  obtain ⟨same, afterwards⟩ := ended
  obtain rfl := Except.ok.inj same
  have tag : after.buf.tag (EMSdataCell idx) =
      { between.buf.tag (EMSdataCell idx)
          with fe := .full, type := sumType } := by
    rw [afterwards, Ledger.released_tag positive]
    simp
  have word : after.buf.word = summed.buf.word := by simp [afterwards]
  have heap : after.buf.heap = summed.buf.heap := by simp [afterwards]
  have full : (after.buf.tag (EMSdataCell idx)).fe = .full := by rw [tag]
  by_cases text : old.type = .undefined ∧ value.type = .string
  · apply iff_of_false
    · rintro ⟨-, -, -, sum, final, read, isSum⟩
      rw [text.1] at adding
      obtain rfl := faaElement_undefined text.2 adding
      have undefined : WordHolds (after.buf.word (EMSdataCell idx))
          after.buf.heap
          (scalar .undefined 0) [] := by
        simp [WordHolds, scalar]
      have patient' : (scalar .undefined 0).text.bytes.length < patience' :=
        (Nat.zero_le _).trans_lt patient
      obtain ⟨sum', final', read', reads⟩ :=
        EMSreadFF_stored below finds full (by rw [tag]; rfl)
        undefined (by simp [scalar]) patient'
      obtain ⟨same, rfl⟩ := read.unique read'
      obtain rfl := Except.ok.inj same
      rw [IsSum, if_pos (.inr text.2)] at isSum
      cases isSum.1.symm.trans reads.1
    · exact fun both => both.1 text
  · obtain ⟨keyBlocks, grown, searchedOwned⟩ :=
      owned.searched positive fits searched (by omega)
    obtain ⟨own, rest, owns, live, exchange⟩ := searchedOwned.replace below
    rw [OwnsBlocks, type] at owns
    have held : (between.setTag (EMSdataCell idx)
        { between.buf.tag (EMSdataCell idx) with fe := .busy }).Ordered level :=
      searchedOwned.ordered.congr rfl rfl rfl
    obtain ⟨content, rfl, gets⟩ :=
      faaElement_gets small held isOld added ⟨spells.word, spells.text⟩ owns
        live text adding
    obtain ⟨own', owns', live'⟩ := gets.owns
    have ordered : after.Ordered level := by
      apply gets.ordered.congr <;> simp [afterwards]
    have others : ∀ i : Nat, (i : Int) < array.nElem → i ≠ idx →
        (after.buf.tag (EMSdataCell i)).type =
          (between.buf.tag (EMSdataCell i)).type ∧
          after.buf.word (EMSdataCell i) =
              between.buf.word (EMSdataCell i) := by
      intro i inside other
      have apart : EMSdataCell i ≠ EMSdataCell idx := by
        intro same
        have equal : (i : Int) + EMS_ARR_CB_SIZE = idx + EMS_ARR_CB_SIZE := same
        omega
      constructor
      · rw [afterwards, released_data inside, Ledger.setTag_buf,
          EmsBuf.setTag_tag,
          Function.update_of_ne apart, faaElement_tag adding, Ledger.setTag_buf,
          EmsBuf.setTag_tag,
          Function.update_of_ne apart]
      · rw [word, faaElement_other adding apart]
        rfl
    have afterOwned : OwnedBlocks array level (kept + keyBlocks) after := by
      apply exchange after own' ordered others
      · rw [OwnsBlocks, tag, word]
        exact owns'
      · simpa [afterwards] using live'
    obtain ⟨blocks, holds⟩ := gets.wordHolds sumOf_value
    rw [← word, ← heap] at holds
    obtain ⟨sum, final, read, reads⟩ :=
      EMSreadFF_stored below finds full (by rw [tag]) holds
      (fun boolean => absurd boolean sumOf_not_boolean)
        (sumOf_text.trans_lt patient)
    rw [and_iff_right text, ← isSum_iff isOld added reads]
    constructor
    · rintro ⟨-, -, -, sum', final', read', isSum⟩
      obtain ⟨same, rfl⟩ := read.unique read'
      obtain rfl := Except.ok.inj same
      exact isSum
    · exact fun isSum =>
        ⟨content, full, ⟨keyBlocks, grown, afterOwned⟩, sum, final, read, isSum⟩

/-! ## An array of one undefined element -/

theorem undefined_summand : Summand (scalar .undefined 0) :=
  ⟨.inl (.inr (.inr (.inr rfl))), nofun, nofun, nofun⟩

theorem freshLedger_owned : OwnedBlocks ⟨1, false⟩ 0 0 freshLedger :=
  StoreHolds.owned (InitialStore.holds ⟨fun _ _ _ => rfl, rfl, rfl, rfl, rfl⟩)

theorem freshLedger_spells : Spells freshLedger.buf 0 (scalar .undefined 0) :=
  ⟨fun isWord => absurd isWord (by decide),
    fun isText => absurd isText (by decide)⟩

theorem searched_only {patience : Nat} {ledger : Ledger} :
    heapSolo.Returns (EMSwriteIndexMap patience ⟨1, false⟩ (scalar .integer 0))
      ledger 0 ledger := by
  rw [EMSwriteIndexMap_unmapped patience ⟨1, false⟩ rfl le_rfl (by decide)]
  exact .ret

theorem found_only {patience : Nat} {ledger : Ledger} :
    heapSolo.Returns (EMSkey2index patience ⟨1, false⟩ (scalar .integer 0)
      false) ledger 0
      ledger := by
  rw [EMSkey2index_unmapped patience ⟨1, false⟩ le_rfl (by decide)]
  exact .ret

/-- An integer and an undefined element make no number. -/
theorem EMSfaa_stored_undefined : ∃ res after,
    FaaStored ⟨1, false⟩ 0 0 0 (scalar .undefined 0) (scalar .integer 3)
      res freshLedger
      freshLedger after 5 ⟨.empty, .undefined, 0⟩ (scalar .integer 0) := by
  have added : Summand (scalar .integer 3) :=
    ⟨.inl (.inr (.inl rfl)), nofun, fun _ => by decide, nofun⟩
  obtain ⟨result, after, returned, checked⟩ := heapSolo.exists_returns
    (EMSfaa 1 ⟨1, false⟩ (scalar .integer 0) (scalar .integer 3)) freshLedger
    (fun played => played.1.isOk) (by decide +kernel)
  cases result with
  | error error => simp at checked
  | ok res =>
      exact ⟨res, after,
        (EMSfaa_stored_iff (by decide) (by decide) (by decide) freshLedger_owned
        (by simp [scalar]) searched_only rfl undefined_summand
          freshLedger_spells added returned
        found_only (by decide +kernel)).mpr
          ⟨by simp [scalar], by simp [EMSvalueType.IsWhole, scalar]⟩⟩

/-- A string that is added to an undefined element is not read. -/
theorem not_EMSfaa_stored :
    ¬ ∀ (array : EmsArray) (idx level patience patience' : Nat)
    (kept : Multiset Block) (key key' old value res : EMSvalueType)
    (stack : Tag)
    (before between after : Ledger), EMS_MEM_BLOCKSZ * 2 ^ level < 2 ^ 63 →
      0 < array.nElem →
    (idx : Int) < array.nElem → OwnedBlocks array level kept before →
    (key.type = .string → ValidRequest (key.length + 1)) →
    heapSolo.Returns (EMSwriteIndexMap patience array key) before idx between →
    (between.buf.tag (EMSdataCell idx)).type = old.type → Summand old →
    Spells between.buf idx old → Summand value →
    heapSolo.Returns (EMSfaa patience array key value) before (.ok res) after →
    heapSolo.Returns (EMSkey2index patience' array key' array.isMapped)
      after idx after →
    (sumText old value).bytes.length < patience' →
    FaaStored array idx level kept old value res before between after patience'
      stack key' := by
  intro always
  have added : Summand ⟨.string, 0, textOf ['a'], 1⟩ :=
    ⟨.inr rfl, nofun, nofun, fun _ => ⟨by decide +kernel, by decide⟩⟩
  obtain ⟨pair, last, returned, checked⟩ := heapSolo.exists_returns (do
      let old ← EMSfaa 1 ⟨1, false⟩ (scalar .integer 0)
        ⟨.string, 0, textOf ['a'], 1⟩
      let sum ← EMSreadFF 5 ⟨1, false⟩ ⟨.empty, .undefined, 0⟩
        (scalar .integer 0)
      return (old, sum)) freshLedger
    (fun played => played.1.1.isOk && played.1.2.toOption.any fun sum =>
      sum.type = .undefined)
    (by decide +kernel)
  obtain ⟨old, after, adding, continued⟩ := Solo.returns_bind_iff.mp returned
  obtain ⟨sum, final, reading, ended⟩ := Solo.returns_bind_iff.mp continued
  obtain ⟨rfl, rfl⟩ := Solo.returns_ret_iff.mp ended
  cases old with
  | error error => simp at checked
  | ok res =>
      have stored :=
        always ⟨1, false⟩ 0 0 1 5 0 (scalar .integer 0) (scalar .integer 0)
        (scalar .undefined 0) ⟨.string, 0, textOf ['a'], 1⟩ res
          ⟨.empty, .undefined, 0⟩ freshLedger freshLedger after
        (by decide) (by decide) (by decide) freshLedger_owned (by simp [scalar])
          searched_only rfl
        undefined_summand freshLedger_spells added adding found_only
          (by decide +kernel)
      obtain ⟨sum', final', reading', isSum⟩ := stored.read
      obtain ⟨rfl, rfl⟩ := reading'.unique reading
      rw [IsSum, if_pos (.inr rfl)] at isSum
      have undefined : sum'.type = .undefined := by
        simpa [Except.toOption] using checked
      exact nomatch isSum.1.symm.trans undefined

end Stored

end EMS
