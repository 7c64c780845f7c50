import EMS.KeyedCalls

/-!
# Read-modify-write calls that have returned

What a fetch-and-add and a compare-and-swap of a process alone have done once
they have returned.  Each makes the element busy first; where it fails after
that, it returns without making the element full again.
-/

namespace EMS

open SharedProgram

/-! ## Fetch and add -/

section Faa

variable {array : EmsArray} {idx : Int} {ledger after : Ledger} {patience : Nat}
  {value : EMSvalueType}

/-- The requests are known, and the heap serves them. -/
def Granted (mem : EmsMem) : Option (List Nat) → Prop
  | none => False
  | some requests => ∀ bytes ∈ requests, Serves mem bytes

@[simp] theorem granted_none {mem : EmsMem} : ¬ Granted mem none :=
  fun granted => granted

@[simp] theorem granted_nil {mem : EmsMem} : Granted mem (some []) :=
  fun _ => nofun

@[simp] theorem granted_one {mem : EmsMem} {bytes : Nat} :
    Granted mem (some [bytes]) ↔ Serves mem bytes := by
  simp [Granted]

@[simp] theorem isOk_ok {ε α : Type} {value : α} :
    (.ok value : Except ε α).isOk = true := rfl

@[simp] theorem isOk_error {ε α : Type} {error : ε} :
    (.error error : Except ε α).isOk = false := rfl

@[simp] theorem isOk_map {ε α β : Type} {f : α → β} {result : Except ε α} :
    (result.map f).isOk = result.isOk := by
  cases result <;> rfl

theorem storeText_returns {len : Nat} {compose : EmsProg CString}
    {result : Except EMSError Unit}
    (returned : heapSolo.Returns
      (storeText patience idx len compose) ledger result after) :
    result.isOk = true ↔ Serves ledger.buf.mem len := by
  obtain ⟨address, between, requested, continued⟩ :=
    Solo.returns_bind_iff.mp returned
  obtain ⟨mem, answer, rfl⟩ := emsMutexMem_alloc_returns requested
  rw [serves_of_answer answer]
  split at continued
  · next negative =>
      obtain ⟨rfl, -⟩ := Solo.returns_ret_iff.mp continued
      simp only [isOk_error, Bool.false_eq_true, false_iff]
      omega
  · next positive =>
      obtain ⟨text, composed, -, ended⟩ := Solo.returns_bind_iff.mp continued
      have copied := copyToHeap_returns ended
      rw [store_returns] at copied
      obtain ⟨rfl, -⟩ := Solo.returns_ret_iff.mp copied
      simp only [isOk_ok, true_iff]
      omega

theorem stored_returns {len : Nat} {compose : EmsProg CString} {type : EMSType}
    {sum : Except EMSError EMSType}
    (returned : heapSolo.Returns (do
      let stored ← storeText patience idx len compose
      return stored.map fun _ => type) ledger sum after) :
    sum.isOk = true ↔ Serves ledger.buf.mem len := by
  obtain ⟨stored, between, storing, ended⟩ := Solo.returns_bind_iff.mp returned
  obtain ⟨rfl, -⟩ := Solo.returns_ret_iff.mp ended
  rw [isOk_map]
  exact storeText_returns storing

theorem storeText_confined {tags words : Cell → Prop} {len : Nat}
    {compose : EmsProg CString}
    (may : words (EMSdataCell idx)) (composing : Confined tags words compose) :
    Confined tags words (storeText patience idx len compose) := by
  apply alloc_confined.bind
  intro address
  split
  · trivial
  · apply composing.bind
    intro text
    apply copyToHeap_confined.bind
    intro _
    exact confined_store may trivial

variable [CRuntime]

/-- The requests for memory that a sum makes, if values of the two types can be
added. -/
def faaRequests (type : EMSType) (oldStrLen : Nat) (value : EMSvalueType) :
    Option (List Nat) :=
  match type, value.type with
  | .boolean, .integer | .boolean, .boolean | .boolean, .float | .boolean,
        .undefined => some []
  | .boolean, .string => some [value.length + 1 + 5]
  | .integer, .integer | .integer, .boolean | .integer, .float | .integer,
        .undefined => some []
  | .integer, .string => some [value.length + 1 + MAX_NUMBER2STR_LEN]
  | .float, .integer | .float, .boolean | .float, .float | .float, .undefined =>
      some []
  | .float, .string => some [value.length + 1 + MAX_NUMBER2STR_LEN]
  | .string, _ => (faaSuffix oldStrLen value).map fun suffix => [suffix.1]
  | .undefined, .integer | .undefined, .boolean | .undefined, .float
  | .undefined, .undefined => some []
  | .undefined, .string => some [value.length + 1 + 3]
  | _, _ => none

section

attribute [local simp] faaRequests

private theorem faaBoolean_returns {sum : Except EMSError EMSType}
    (returned : heapSolo.Returns
      (faaBoolean patience idx value) ledger sum after) :
    sum.isOk = true ↔ Granted ledger.buf.mem
      (faaRequests .boolean 0 value) := by
  rw [faaBoolean] at returned
  cases type : value.type with
  | integer | boolean | float | undefined =>
      simp only [type, load_returns, store_returns] at returned
      obtain ⟨rfl, -⟩ := Solo.returns_ret_iff.mp returned
      simp [type]
  | string =>
      simp only [type] at returned
      simpa [type] using stored_returns returned
  | json | invalid | unassigned =>
      simp only [type] at returned
      obtain ⟨rfl, -⟩ := Solo.returns_ret_iff.mp returned
      simp [type]

private theorem faaInteger_returns {sum : Except EMSError EMSType}
    (returned : heapSolo.Returns
      (faaInteger patience idx value) ledger sum after) :
    sum.isOk = true ↔ Granted ledger.buf.mem
      (faaRequests .integer 0 value) := by
  rw [faaInteger] at returned
  cases type : value.type with
  | integer =>
      simp only [type, load_returns] at returned
      split at returned <;>
        · rw [store_returns] at returned
          obtain ⟨rfl, -⟩ := Solo.returns_ret_iff.mp returned
          simp [type]
  | boolean | float | undefined =>
      simp only [type, load_returns, store_returns] at returned
      obtain ⟨rfl, -⟩ := Solo.returns_ret_iff.mp returned
      simp [type]
  | string =>
      simp only [type] at returned
      simpa [type] using stored_returns returned
  | json | invalid | unassigned =>
      simp only [type] at returned
      obtain ⟨rfl, -⟩ := Solo.returns_ret_iff.mp returned
      simp [type]

private theorem faaFloat_returns {sum : Except EMSError EMSType}
    (returned : heapSolo.Returns
      (faaFloat patience idx value) ledger sum after) :
    sum.isOk = true ↔ Granted ledger.buf.mem (faaRequests .float 0 value) := by
  rw [faaFloat] at returned
  cases type : value.type with
  | integer | boolean | float | undefined =>
      simp only [type, load_returns, store_returns] at returned
      obtain ⟨rfl, -⟩ := Solo.returns_ret_iff.mp returned
      simp [type]
  | string =>
      simp only [type] at returned
      simpa [type] using stored_returns returned
  | json | invalid | unassigned =>
      simp only [type] at returned
      obtain ⟨rfl, -⟩ := Solo.returns_ret_iff.mp returned
      simp [type]

private theorem faaUndefined_returns {sum : Except EMSError EMSType}
    (returned : heapSolo.Returns
      (faaUndefined patience idx value) ledger sum after) :
    sum.isOk = true ↔ Granted ledger.buf.mem
      (faaRequests .undefined 0 value) := by
  rw [faaUndefined] at returned
  cases type : value.type with
  | integer | boolean | float | undefined =>
      simp only [type, store_returns] at returned
      obtain ⟨rfl, -⟩ := Solo.returns_ret_iff.mp returned
      simp [type]
  | string =>
      simp only [type] at returned
      simpa [type] using stored_returns returned
  | json | invalid | unassigned =>
      simp only [type] at returned
      obtain ⟨rfl, -⟩ := Solo.returns_ret_iff.mp returned
      simp [type]

end

omit [CRuntime] in
theorem guarded_returns {α : Type} {check : Prop} [Decidable check]
    {error : EMSError}
    {rest : EmsProg (Except EMSError α)} {result : α}
    (returned : heapSolo.Returns
      (if check then rest else pure (.error error)) ledger (.ok result)
      after) : heapSolo.Returns rest ledger (.ok result) after := by
  split at returned
  · exact returned
  · cases (Solo.returns_ret_iff.mp returned).1

/-- The string that the element has is found at its address, and is copied if
there is memory for it. -/
theorem faaString_returns {sum : Except EMSError (CString × EMSType)}
    (returned : heapSolo.Returns
      (faaString patience idx value) ledger sum after) :
    ∃ old : CString, HeapHolds ledger.buf.heap
      (ledger.buf.word (EMSdataCell idx)) old.bytes ∧
      (sum.isOk = true ↔ CRuntime.mallocs (old.bytes.length + 1) = true ∧
        Granted ledger.buf.mem
          (faaRequests .string old.bytes.length value)) := by
  rw [faaString, load_returns] at returned
  obtain ⟨length, between, measured, continued⟩ :=
    Solo.returns_bind_iff.mp returned
  obtain ⟨rfl, old, holds, rfl⟩ := heapStrlen_returns measured
  refine ⟨old, holds, ?_⟩
  by_cases served : CRuntime.mallocs (old.bytes.length + 1) = true
  case neg =>
    rw [if_neg served] at continued
    obtain ⟨rfl, -⟩ := Solo.returns_ret_iff.mp continued
    simp [served]
  rw [if_pos served] at continued
  rw [and_iff_right served]
  obtain ⟨copy, between, copied, ended⟩ := Solo.returns_bind_iff.mp continued
  obtain ⟨rfl, -⟩ := copyFromHeap_returns copied
  cases suffixed : faaSuffix old.bytes.length value with
  | none =>
      simp only [suffixed] at ended
      obtain ⟨rfl, -⟩ := Solo.returns_ret_iff.mp ended
      simp [faaRequests, suffixed]
  | some request =>
      obtain ⟨len, suffix⟩ := request
      simp only [suffixed] at ended
      obtain ⟨address, allocated, requested, storing⟩ :=
        Solo.returns_bind_iff.mp ended
      obtain ⟨mem, answer, rfl⟩ := emsMutexMem_alloc_returns requested
      simp only [faaRequests, suffixed, Option.map_some, granted_one,
        serves_of_answer answer]
      split at storing
      · next negative =>
          obtain ⟨rfl, -⟩ := Solo.returns_ret_iff.mp storing
          simp only [isOk_error, Bool.false_eq_true, false_iff]
          omega
      · next positive =>
          obtain ⟨text, composed, -, placing⟩ :=
            Solo.returns_bind_iff.mp storing
          obtain ⟨_, -, freed⟩ :=
            emsMutexMem_free_returns (copyToHeap_returns placing)
          rw [store_returns] at freed
          obtain ⟨rfl, -⟩ := Solo.returns_ret_iff.mp freed
          simp only [isOk_ok, true_iff]
          omega

theorem faaElement_returns {type : EMSType}
    {sum : Except EMSError (EMSvalueType × EMSType)}
    (returned : heapSolo.Returns
      (faaElement patience idx type value) ledger sum after) :
    ∃ old : CString, (type = .string →
        HeapHolds ledger.buf.heap (ledger.buf.word (EMSdataCell idx))
          old.bytes) ∧
      (sum.isOk = true ↔
        (type = .string → CRuntime.mallocs (old.bytes.length + 1) = true) ∧
          Granted ledger.buf.mem
            (faaRequests type old.bytes.length value)) := by
  cases type with
  | boolean =>
      simp only [faaElement, load_returns] at returned
      obtain ⟨result, between, summed, ended⟩ :=
        Solo.returns_bind_iff.mp returned
      obtain ⟨rfl, -⟩ := Solo.returns_ret_iff.mp ended
      rw [isOk_map]
      exact ⟨.empty, nofun,
        (faaBoolean_returns summed).trans (and_iff_right nofun).symm⟩
  | integer =>
      simp only [faaElement, load_returns] at returned
      obtain ⟨result, between, summed, ended⟩ :=
        Solo.returns_bind_iff.mp returned
      obtain ⟨rfl, -⟩ := Solo.returns_ret_iff.mp ended
      rw [isOk_map]
      exact ⟨.empty, nofun,
        (faaInteger_returns summed).trans (and_iff_right nofun).symm⟩
  | float =>
      simp only [faaElement, load_returns] at returned
      obtain ⟨result, between, summed, ended⟩ :=
        Solo.returns_bind_iff.mp returned
      obtain ⟨rfl, -⟩ := Solo.returns_ret_iff.mp ended
      rw [isOk_map]
      exact ⟨.empty, nofun,
        (faaFloat_returns summed).trans (and_iff_right nofun).symm⟩
  | string =>
      simp only [faaElement] at returned
      obtain ⟨result, between, summed, ended⟩ :=
        Solo.returns_bind_iff.mp returned
      obtain ⟨rfl, -⟩ := Solo.returns_ret_iff.mp ended
      obtain ⟨old, holds, iff⟩ := faaString_returns summed
      exact ⟨old, fun _ => holds, by simpa using iff⟩
  | undefined =>
      simp only [faaElement] at returned
      obtain ⟨result, between, summed, ended⟩ :=
        Solo.returns_bind_iff.mp returned
      obtain ⟨rfl, -⟩ := Solo.returns_ret_iff.mp ended
      rw [isOk_map]
      exact ⟨.empty, nofun,
        (faaUndefined_returns summed).trans (and_iff_right nofun).symm⟩
  | json | invalid | unassigned =>
      simp only [faaElement] at returned
      obtain ⟨rfl, -⟩ := Solo.returns_ret_iff.mp returned
      exact ⟨.empty, nofun, by simp [faaRequests]⟩

/-! ### What the sum cannot change -/

private theorem faaBoolean_confined {tags words : Cell → Prop}
    (may : words (EMSdataCell idx)) :
    Confined tags words (faaBoolean patience idx value) := by
  rw [faaBoolean]
  cases value.type with
  | integer | boolean | float =>
      exact confined_load fun _ => confined_store may trivial
  | undefined => exact confined_store may trivial
  | string =>
      apply (storeText_confined may _).bind
      · exact fun _ => trivial
      · exact confined_load fun _ => trivial
  | json | invalid | unassigned => trivial

private theorem faaInteger_confined {tags words : Cell → Prop}
    (may : words (EMSdataCell idx)) :
    Confined tags words (faaInteger patience idx value) := by
  rw [faaInteger]
  cases value.type with
  | integer =>
      apply confined_load
      intro word
      simp only
      split <;> exact confined_store may trivial
  | boolean | float => exact confined_load fun _ => confined_store may trivial
  | undefined => exact confined_store may trivial
  | string =>
      apply (storeText_confined may _).bind
      · exact fun _ => trivial
      · exact confined_load fun _ => trivial
  | json | invalid | unassigned => trivial

private theorem faaFloat_confined {tags words : Cell → Prop}
    (may : words (EMSdataCell idx)) :
    Confined tags words (faaFloat patience idx value) := by
  rw [faaFloat]
  cases value.type with
  | integer | boolean | float =>
      exact confined_load fun _ => confined_store may trivial
  | undefined => exact confined_store may trivial
  | string =>
      apply (storeText_confined may _).bind
      · exact fun _ => trivial
      · exact confined_load fun _ => trivial
  | json | invalid | unassigned => trivial

private theorem faaUndefined_confined {tags words : Cell → Prop}
    (may : words (EMSdataCell idx)) :
    Confined tags words (faaUndefined patience idx value) := by
  rw [faaUndefined]
  cases value.type with
  | integer | boolean | float | undefined => exact confined_store may trivial
  | string =>
      apply (storeText_confined may _).bind
      · exact fun _ => trivial
      · trivial
  | json | invalid | unassigned => trivial

private theorem faaString_confined {tags words : Cell → Prop}
    (may : words (EMSdataCell idx)) :
    Confined tags words (faaString patience idx value) := by
  rw [faaString]
  apply confined_load
  intro textOffset
  apply heapStrlen_confined.bind
  intro oldStrLen
  split
  · apply copyFromHeap_confined.bind
    intro old
    cases faaSuffix oldStrLen value with
    | none => trivial
    | some request =>
        apply alloc_confined.bind
        intro newOffset
        split
        · trivial
        · apply copyFromHeap_confined.bind
          intro text
          apply copyToHeap_confined.bind
          intro _
          apply free_confined.bind
          intro _
          exact confined_store may trivial
  · trivial

theorem faaElement_confined {tags words : Cell → Prop} {type : EMSType}
    (may : words (EMSdataCell idx)) :
    Confined tags words (faaElement patience idx type value) := by
  cases type with
  | boolean => exact confined_load fun _ =>
      (faaBoolean_confined may).bind fun _ => trivial
  | integer => exact confined_load fun _ =>
      (faaInteger_confined may).bind fun _ => trivial
  | float => exact confined_load fun _ =>
      (faaFloat_confined may).bind fun _ => trivial
  | string => exact (faaString_confined may).bind fun _ => trivial
  | undefined => exact (faaUndefined_confined may).bind fun _ => trivial
  | json | invalid | unassigned => trivial

theorem faaElement_tag {type : EMSType}
    {sum : Except EMSError (EMSvalueType × EMSType)}
    (returned : heapSolo.Returns
      (faaElement patience idx type value) ledger sum after) :
    after.buf.tag = ledger.buf.tag := by
  have confined : Confined (fun _ => False) (fun cell => cell = EMSdataCell idx)
      (faaElement patience idx type value) := faaElement_confined rfl
  exact funext fun cell => confined.tag returned id

/-- What a fetch-and-add does when its search has ended. -/
theorem EMSfaa_searched (positive : 0 < array.nElem) {key : EMSvalueType}
    {slot : Int}
    {between : Ledger} {result : Except EMSError EMSvalueType}
    (searched : heapSolo.Returns
      (EMSwriteIndexMap patience array key) ledger slot between)
    (returned : heapSolo.Returns
      (EMSfaa patience array key value) ledger result after) :
    if slot < 0 ∨ array.nElem ≤ slot then result = .error .indexOutOfBounds ∧
      after = between
    else (between.buf.tag (EMSdataCell slot)).fe = .full ∧
      ∃ sum summed,
        heapSolo.Returns (faaElement patience slot
          (between.buf.tag (EMSdataCell slot)).type value)
          (between.setTag (EMSdataCell slot)
            { between.buf.tag (EMSdataCell slot) with fe := .busy })
              sum summed ∧
        match sum with
        | .error error => result = .error error ∧ after = summed
        | .ok (returnValue, sumType) => result = .ok returnValue ∧
            after = (summed.setTag (EMSdataCell slot)
              { between.buf.tag (EMSdataCell slot)
                with fe := .full, type := sumType }).released
                array slot := by
  rw [EMSfaa, searched.bind_iff] at returned
  split at returned
  · next outside =>
      rw [if_pos outside]
      exact Solo.returns_ret_iff.mp returned
  · next inside =>
      rw [if_neg inside]
      obtain ⟨oldTag, held, waited, adding⟩ := Solo.returns_bind_iff.mp returned
      obtain ⟨full, rfl, rfl⟩ :=
        EMStransitionFEtag_returns (mapTagOf_apart positive) waited
      obtain ⟨sum, summed, added, ended⟩ := Solo.returns_bind_iff.mp adding
      refine ⟨full, sum, summed, added, ?_⟩
      cases sum with
      | error error => exact Solo.returns_ret_iff.mp ended
      | ok pair =>
          simp only [storeTag_returns, releaseMap_returns] at ended
          exact Solo.returns_ret_iff.mp ended

/-- A fetch-and-add is turned away by its search, or adds to the element that
it has found or been given, which it has found full. -/
theorem EMSfaa_returns (positive : 0 < array.nElem) {key : EMSvalueType}
    {result : Except EMSError EMSvalueType}
    (returned : heapSolo.Returns
      (EMSfaa patience array key value) ledger result after) :
    ∃ slot between, SlotTaken array key ledger (slotSearch array key ledger.buf)
      slot between ∧
      if slot < 0 ∨ array.nElem ≤ slot then
        result = .error .indexOutOfBounds ∧ after = between
      else (between.buf.tag (EMSdataCell slot)).fe = .full ∧
        ∃ sum summed,
          heapSolo.Returns (faaElement patience slot
            (between.buf.tag (EMSdataCell slot)).type value)
            (between.setTag (EMSdataCell slot)
              { between.buf.tag (EMSdataCell slot) with fe := .busy })
                sum summed ∧
          match sum with
          | .error error => result = .error error ∧ after = summed
          | .ok (returnValue, sumType) => result = .ok returnValue ∧
              after = (summed.setTag (EMSdataCell slot)
                { between.buf.tag (EMSdataCell slot)
                  with fe := .full, type := sumType }).released
                  array slot := by
  have called := returned
  rw [EMSfaa] at called
  obtain ⟨slot, between, searched, -⟩ := Solo.returns_bind_iff.mp called
  exact ⟨slot, between, EMSwriteIndexMap_returns positive searched,
    EMSfaa_searched positive searched returned⟩

end Faa

/-! ## Compare and swap -/

section Cas

variable {array : EmsArray} {idx : Int} {ledger after : Ledger} {patience : Nat}

/-- The element has one of the types of values, and there is memory for the copy
of a string. -/
def Readable [CRuntime] (idx : Int) (type : EMSType) (buf : EmsBuf) : Prop :=
  IsValue type ∧ (type.IsText → ∃ text : CString,
    HeapHolds buf.heap (buf.word (EMSdataCell idx)) text.bytes ∧
      CRuntime.mallocs (text.bytes.length + 1) = true)

theorem Readable.of_not_text [CRuntime] {type : EMSType} {buf : EmsBuf}
    (isValue : IsValue type)
    (noText : ¬ type.IsText) : Readable idx type buf :=
  ⟨isValue, fun text => absurd text noText⟩

/-- The value in memory, if it can be read. -/
theorem casRead_returns [CRuntime] {type : EMSType}
    {result : Except EMSError EMSvalueType}
    (returned : heapSolo.Returns
      (casRead patience idx type) ledger result after) :
    after = ledger ∧ match result with
      | .ok current => Readable idx type ledger.buf ∧ current.type = type ∧
          (type.IsWord → current =
            scalar type (ledger.buf.word (EMSdataCell idx))) ∧
          (type.IsText → HeapHolds ledger.buf.heap
            (ledger.buf.word (EMSdataCell idx))
            current.text.bytes)
      | .error _ => ¬ Readable idx type ledger.buf := by
  cases type with
  | undefined =>
      obtain ⟨rfl, rfl⟩ := Solo.returns_ret_iff.mp returned
      exact ⟨rfl, .of_not_text (by decide) (by decide), rfl,
        (fun wrong => absurd wrong (by decide)), fun wrong =>
          absurd wrong (by decide)⟩
  | boolean | integer | float =>
      simp only [casRead, load_returns] at returned
      obtain ⟨rfl, rfl⟩ := Solo.returns_ret_iff.mp returned
      exact ⟨rfl, .of_not_text (by decide) (by decide), rfl, fun _ => rfl,
        fun wrong => absurd wrong (by decide)⟩
  | json | string =>
      simp only [casRead, load_returns] at returned
      obtain ⟨length, between, measured, continued⟩ :=
        Solo.returns_bind_iff.mp returned
      obtain ⟨rfl, old, isOld, rfl⟩ := heapStrlen_returns measured
      split at continued
      · next served =>
          obtain ⟨text, between, copied, ended⟩ :=
            Solo.returns_bind_iff.mp continued
          obtain ⟨rfl, holds⟩ := copyFromHeap_returns copied
          obtain ⟨rfl, rfl⟩ := Solo.returns_ret_iff.mp ended
          exact ⟨rfl, ⟨by decide, fun _ => ⟨old, isOld, served⟩⟩, rfl,
            (fun wrong => absurd wrong (by decide)), fun _ => holds⟩
      · next refused =>
          obtain ⟨rfl, rfl⟩ := Solo.returns_ret_iff.mp continued
          refine ⟨rfl, fun readable => refused ?_⟩
          obtain ⟨text, holds, served⟩ := readable.2 (by decide)
          rwa [isOld.unique holds]
  | invalid | unassigned =>
      obtain ⟨rfl, rfl⟩ := Solo.returns_ret_iff.mp returned
      exact ⟨rfl, fun readable => absurd readable.1 (by decide)⟩

/-- Whether the new value of a swap can be stored. -/
def Storable (mem : EmsMem) (value : EMSvalueType) : Prop :=
  IsValue value.type ∧ (value.type.IsText → Serves mem (value.length + 1))

theorem casStore_returns {newValue : EMSvalueType}
    {result : Except EMSError Unit}
    (returned : heapSolo.Returns
      (casStore patience idx newValue) ledger result after) :
    result.isOk = true ↔ Storable ledger.buf.mem newValue := by
  rw [casStore] at returned
  cases type : newValue.type with
  | undefined | boolean | integer | float =>
      simp only [type, store_returns] at returned
      obtain ⟨rfl, -⟩ := Solo.returns_ret_iff.mp returned
      simp [Storable, type, IsValue, EMSType.IsText]
  | json | string =>
      simp only [type] at returned
      simpa [Storable, type, IsValue,
        EMSType.IsText] using storeText_returns returned
  | invalid | unassigned =>
      simp only [type] at returned
      obtain ⟨rfl, -⟩ := Solo.returns_ret_iff.mp returned
      simp [Storable, type, IsValue]

theorem casStore_confined {tags words : Cell → Prop} {newValue : EMSvalueType}
    (may : words (EMSdataCell idx)) :
    Confined tags words (casStore patience idx newValue) := by
  rw [casStore]
  cases newValue.type with
  | undefined | boolean | integer | float => exact confined_store may trivial
  | json | string => exact storeText_confined may trivial
  | invalid | unassigned => trivial

theorem casStore_tag {newValue : EMSvalueType} {result : Except EMSError Unit}
    (returned : heapSolo.Returns
      (casStore patience idx newValue) ledger result after) :
    after.buf.tag = ledger.buf.tag := by
  have confined : Confined (fun _ => False) (fun cell => cell = EMSdataCell idx)
      (casStore patience idx newValue) := casStore_confined rfl
  exact funext fun cell => confined.tag returned id

/-- A swap stores the new value, and the element is full again unless that has
failed. -/
theorem casFinish_returns {current newValue : EMSvalueType} {swapped : Bool}
    {result : Except EMSError EMSvalueType}
    (returned : heapSolo.Returns
      (casFinish patience array idx current newValue swapped)
      ledger result after) :
    if swapped = true then
      ∃ placed stored outcome, GivesBack idx current.type ledger placed ∧
        heapSolo.Returns (casStore patience idx newValue) placed
          outcome stored ∧
        match outcome with
        | .error error => result = .error error ∧ after = stored
        | .ok () => result = .ok current ∧
            after = (stored.setTag (EMSdataCell idx)
              ⟨.full, newValue.type, 0⟩).released array idx
    else result = .ok current ∧
      after = (ledger.setTag (EMSdataCell idx)
          ⟨.full, current.type, 0⟩).released array idx := by
  simp only [casFinish] at returned
  split at returned
  · next swaps =>
      rw [if_pos swaps]
      obtain ⟨placed, gives, continued⟩ := givesBack_returns returned
      obtain ⟨outcome, stored, storing, ended⟩ :=
        Solo.returns_bind_iff.mp continued
      refine ⟨placed, stored, outcome, gives, storing, ?_⟩
      cases outcome with
      | error error => exact Solo.returns_ret_iff.mp ended
      | ok =>
          simp only [storeTag_returns, releaseMap_returns] at ended
          exact Solo.returns_ret_iff.mp ended
  · next keeps =>
      rw [if_neg keeps]
      simp only [storeTag_returns, releaseMap_returns] at returned
      exact Solo.returns_ret_iff.mp returned

/-- A compare-and-swap on an element has found it full. -/
theorem casElement_returns [CRuntime] (positive : 0 < array.nElem)
    {oldValue newValue : EMSvalueType}
    {result : Except EMSError EMSvalueType}
    (returned : heapSolo.Returns
      (casElement patience array idx oldValue newValue)
      ledger result after) :
    let held := ledger.setTag (EMSdataCell idx)
      { ledger.buf.tag (EMSdataCell idx) with fe := .busy }
    (ledger.buf.tag (EMSdataCell idx)).fe = .full ∧
      (Readable idx (ledger.buf.tag (EMSdataCell idx)).type
          ledger.buf ∧ (∃ current,
          heapSolo.Returns (casRead patience idx
            (ledger.buf.tag (EMSdataCell idx)).type) held
            (.ok current) held ∧
          heapSolo.Returns (casFinish patience array idx current newValue
            (casEqual oldValue current)) held result after) ∨
        ¬ Readable idx (ledger.buf.tag (EMSdataCell idx)).type ledger.buf ∧
          (∃ error, result = .error error) ∧ after = held) := by
  intro held
  obtain ⟨tag, between, waited, continued⟩ := Solo.returns_bind_iff.mp returned
  obtain ⟨full, rfl, rfl⟩ :=
    EMStransitionFEtag_returns (mapTagOf_apart positive) waited
  refine ⟨full, ?_⟩
  simp only [loadTag_returns, Ledger.setTag_buf, EmsBuf.setTag_tag,
    Function.update_self]
    at continued
  obtain ⟨current, between, reading, ended⟩ :=
    Solo.returns_bind_iff.mp continued
  obtain ⟨rfl, read⟩ := casRead_returns reading
  cases current with
  | ok current => exact .inl ⟨read.1, current, reading, ended⟩
  | error error =>
      obtain ⟨rfl, rfl⟩ := Solo.returns_ret_iff.mp ended
      exact .inr ⟨read, ⟨error, rfl⟩, rfl⟩

/-- A compare-and-swap is turned away by its search, works on the element that
it has found or been given, or ends at once because there is none. -/
theorem EMScas_returns [CRuntime] (positive : 0 < array.nElem)
    {key oldValue newValue : EMSvalueType}
    {result : Except EMSError EMSvalueType}
    (returned : heapSolo.Returns
      (EMScas patience array key oldValue newValue) ledger result after) :
    let found := keyIndex array key ledger.buf array.isMapped
    if (¬ array.isMapped = true ∧ found < 0) ∨ array.nElem ≤ found then
      result = .error .indexOutOfBounds ∧ after = ledger
    else if array.isMapped = true ∧ found < 0 then
      if oldValue.type = .undefined then
        ∃ slot between, SlotTaken array key ledger
          (slotSearch array key ledger.buf) slot between ∧
          if slot < 0 then result = .error .unableToAllocate ∧ after = between
          else heapSolo.Returns
            (casElement patience array slot oldValue newValue)
            ((between.setWord (EMSdataCell slot) 0xcafebabe).setTag
              (EMSdataCell slot)
              ⟨.full, .undefined, 0⟩) result after
      else heapSolo.Returns
        (casFinish patience array found (scalar .undefined 0xf00dcafe) newValue
        false) ledger result after
    else heapSolo.Returns (casElement patience array found oldValue newValue)
      ledger result after
    := by
  intro found
  rw [EMScas] at returned
  obtain ⟨_, _, looked, continued⟩ := Solo.returns_bind_iff.mp returned
  obtain ⟨rfl, rfl⟩ := EMSkey2index_returns looked
  split at continued
  · next outside =>
      rw [if_pos outside]
      exact Solo.returns_ret_iff.mp continued
  · next inside =>
      rw [if_neg inside]
      split at continued
      · next absent =>
          rw [if_pos absent]
          split at continued
          · next undefined =>
              rw [if_pos undefined]
              obtain ⟨slot, between, searched, ended⟩ :=
                Solo.returns_bind_iff.mp continued
              refine ⟨slot, between,
                EMSwriteIndexMap_returns positive searched, ?_⟩
              split at ended
              · next negative =>
                  rw [if_pos negative]
                  exact Solo.returns_ret_iff.mp ended
              · next given =>
                  rw [if_neg given]
                  simpa only [store_returns, storeTag_returns] using ended
          · next defined =>
              rw [if_neg defined]
              exact continued
      · next present =>
          rw [if_neg present]
          exact continued

end Cas

end EMS
