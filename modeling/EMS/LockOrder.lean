import EMS.Doubles
import EMS.JavaScript
import EMS.Sorting
import Mathlib.Data.List.FinRange
import Mathlib.Data.List.Lex
import Mathlib.Data.Char

/-!
# The order in which transactions lock

`EMStmStart` of the JavaScript binding sorts the elements of a transaction by
the difference of two sums, each of a region number times a constant and a key.
`tmStart` of the Python binding sorts by the concatenation of two decimal
strings.  Both are to be one global order.  They are where the numbers, or the
strings, separate the elements and agree, and nowhere else.
-/

namespace EMS

open Sorting Doubles

/-! ## Elements -/

/-- A key as the native code gets it.  A string ends at its first NUL. -/
inductive ElementKey where
  | integer (n : Int64)
  | float (bits : UInt64)
  | boolean (b : Bool)
  | string (text : JsString)
  deriving DecidableEq

def cString (text : JsString) : JsString :=
  text.takeWhile fun c => c.toNat ≠ 0

/-- What `EMStmStart` and `EMSidx` read of an EMS array. -/
structure EMSarray where
  regionN : Nat
  useMap : Bool
  dimStride : List Nat
  deriving DecidableEq

/-- Convert the different possible index types into a linear EMS index. -/
def EMSidx (indexes : JsKey) (array : EMSarray) : JsKey :=
  match indexes with
  | .array xs =>
      .number (xs.zipIdx.foldl
        (fun idx (x, i) => idx + x * match array.dimStride[i]? with
          | some stride => Float.ofNat stride
          | none => NaN) 0)
  | .number x => .number x
  | key => if array.useMap then key else .number (-1)

/-- `IS_INTEGER` -/
def isInteger (x : Float) : Bool :=
  Float.ofInt x.toModel.toInt64.toInt == x

/-- `NAPI_OBJ_2_EMS_OBJ` for a key.  There are no arrays left. -/
def napiKey : JsKey → ElementKey
  | .number x =>
    if isInteger x then .integer x.toModel.toInt64 else .float x.toBits
  | .boolean b => .boolean b
  | .string text => .string (cString text)
  | .array _ => .integer (-1)

/-- An entry of the list that `EMStmStart` gets:
`[ emsArray, index, isReadOnly ]`. -/
structure TmElement where
  array : EMSarray
  index : JsKey
  isReadOnly : Bool

/-- The element that an entry names. -/
def TmElement.element (entry : TmElement) : Nat × ElementKey :=
  (entry.array.regionN, napiKey (EMSidx entry.index entry.array))

/-! ## The order of JavaScript -/

def MAX_ELEM_PER_REGION : Nat := 10000000000000

/-- `emsElems[a][0].regionN * MAX_ELEM_PER_REGION + emsElems[a][1]`, as the
subtraction makes it a number. -/
def TmElement.lockNumber (entry : TmElement) : Float :=
  (addKey (Float.ofNat entry.array.regionN * Float.ofNat MAX_ELEM_PER_REGION)
    entry.index).toNumber

/-- The comparison function that `EMStmStart` sorts with. -/
def compareLocks (a b : TmElement) : Float :=
  a.lockNumber - b.lockNumber

/-- `Array.prototype.sort`.  It keeps the order of what compares equal, where
NaN counts as equal, and puts what compares smaller first if the comparison
function is consistent.  Nothing is known of the order if it is not. -/
structure JsSort where
  sort : {α : Type} → (α → α → Float) → List α → List α
  perm : ∀ {α : Type} (compare : α → α → Float) (items : List α),
    (sort compare items).Perm items
  stable : ∀ {α : Type} (compare : α → α → Float) (items : List α),
    Consistent (fun a b => sign (compare a b)) items →
      sort compare items =
        items.mergeSort (notAfter fun a b => sign (compare a b))

/-- A sort that keeps to the rules for every comparison function. -/
def mergeSortJs : JsSort where
  sort compare items := items.mergeSort (notAfter fun a b => sign (compare a b))
  perm _ items := List.mergeSort_perm items _
  stable _ _ _ := rfl

inductive TmLock where
  | readRW
  | readFE
  deriving DecidableEq

/-- Start a transaction: the locks in the order in which they are acquired. -/
def EMStmStart (sorting : JsSort) (emsElems : List TmElement) :
    List (TmElement × TmLock) :=
  let indicies := List.finRange emsElems.length
  let sorted :=
    sorting.sort (fun a b => compareLocks (emsElems.get a) (emsElems.get b))
      indicies
  sorted.map fun e =>
    (emsElems.get e, if (emsElems.get e).isReadOnly then .readRW else .readFE)

/-- The entries in the order in which they are locked. -/
def lockedEntries (sorting : JsSort) (emsElems : List TmElement) :
    List TmElement :=
  (EMStmStart sorting emsElems).map Prod.fst

def lockOrder (a b : TmElement) : Ordering :=
  sign (compareLocks a b)

theorem lockedEntries_eq (sorting : JsSort) (emsElems : List TmElement) :
    lockedEntries sorting emsElems =
      (sorting.sort (fun a b => compareLocks (emsElems.get a) (emsElems.get b))
        (List.finRange emsElems.length)).map emsElems.get := by
  simp [lockedEntries, EMStmStart, Function.comp_def]

/-- Sorting the indexes of a list sorts the list. -/
theorem lockedEntries_sorts (sorting : JsSort) :
    IsStableSort lockOrder (lockedEntries sorting) := by
  constructor
  · intro items
    rw [lockedEntries_eq]
    have permuted :=
      (sorting.perm (fun a b => compareLocks (items.get a) (items.get b))
      (List.finRange items.length)).map items.get
    simpa using permuted
  · intro items consistent
    have member : ∀ a : Fin items.length, items.get a ∈ items :=
      fun a => List.get_mem items a
    have indexes : Consistent
        (fun a b => sign (compareLocks (items.get a) (items.get b)))
        (List.finRange items.length) := by
      refine ⟨fun a _ => ?_, fun a _ b _ => ?_, fun a _ b _ c _ => ?_⟩
      · exact consistent.refl _ (member a)
      · exact consistent.swap _ (member a) _ (member b)
      · exact consistent.trans _ (member a) _ (member b) _ (member c)
    rw [lockedEntries_eq, sorting.stable _ _ indexes]
    have mapped := @List.map_mergeSort _ _
      (notAfter fun a b => sign (compareLocks (items.get a) (items.get b)))
      (notAfter lockOrder) items.get (List.finRange items.length)
        (fun _ _ _ _ => rfl)
    rw [mapped, List.map_get_finRange]

/-- A JavaScript process, as one who sorts entries. -/
def javaScript (sorting : JsSort) : Party TmElement (Nat × ElementKey) where
  name := TmElement.element
  order := lockOrder
  sort := lockedEntries sorting
  sorts := lockedEntries_sorts sorting
  swap a b := sign_sub_swap a.lockNumber b.lockNumber

/-- Whatever two lists two parties start transactions with, each without
duplicates, the two lock any two elements that both name in the same order. -/
def SameLockOrder {α β : Type} (element₁ : α → Nat × ElementKey)
    (start₁ : List α → List (α × TmLock)) (entries₁ : Set α)
    (element₂ : β → Nat × ElementKey)
    (start₂ : List β → List (β × TmLock)) (entries₂ : Set β) : Prop :=
  ∀ (first : List α) (second : List β),
    (∀ entry ∈ first, entry ∈ entries₁) → (∀ entry ∈ second, entry ∈ entries₂) →
    (first.map element₁).Nodup → (second.map element₂).Nodup →
    ∀ m n, m ≠ n → m ∈ first.map element₁ → n ∈ first.map element₁ →
      m ∈ second.map element₂ → n ∈ second.map element₂ →
      (Precedes ((start₁ first).map fun lock => element₁ lock.1) m n ↔
        Precedes ((start₂ second).map fun lock => element₂ lock.1) m n)

theorem sameLockOrder_iff {α β : Type} {first : Party α (Nat × ElementKey)}
    {second : Party β (Nat × ElementKey)} {start₁ : List α → List (α × TmLock)}
    {start₂ : List β → List (β × TmLock)} {entries₁ : Set α} {entries₂ : Set β}
    (locks₁ : ∀ items, (start₁ items).map Prod.fst = first.sort items)
    (locks₂ : ∀ items, (start₂ items).map Prod.fst = second.sort items) :
    SameLockOrder first.name start₁ entries₁ second.name start₂ entries₂ ↔
      first.SameOrder entries₁ second entries₂ := by
  have names₁ : ∀ items, (start₁ items).map (fun lock => first.name lock.1) =
      first.sortedNames items := by
    intro items
    rw [Party.sortedNames, ← locks₁, List.map_map]
    rfl
  have names₂ : ∀ items, (start₂ items).map (fun lock => second.name lock.1) =
      second.sortedNames items := by
    intro items
    rw [Party.sortedNames, ← locks₂, List.map_map]
    rfl
  simp only [SameLockOrder, Party.SameOrder, names₁, names₂]
  constructor
  · intro same items₁ items₂ lists₁ lists₂
    exact same items₁ items₂ lists₁.1 lists₂.1 lists₁.2 lists₂.2
  · intro same items₁ items₂ in₁ in₂ distinct₁ distinct₂
    exact same items₁ items₂ ⟨in₁, distinct₁⟩ ⟨in₂, distinct₂⟩

/-- Any two calls of `EMStmStart` lock common elements in the same order. -/
def OneLockOrder (sorting : JsSort) (entries : Set TmElement) : Prop :=
  SameLockOrder TmElement.element (EMStmStart sorting) entries
    TmElement.element (EMStmStart sorting) entries

theorem oneLockOrder_iff (sorting : JsSort) (entries : Set TmElement) :
    OneLockOrder sorting entries ↔
      (javaScript sorting).SameOrder entries (javaScript sorting) entries :=
  @sameLockOrder_iff _ _ (javaScript sorting) (javaScript sorting) _ _ _ _
    (fun _ => rfl) (fun _ => rfl)

/-- Different elements have different numbers, none of them NaN, and the
numbers of two elements compare the same way however the elements are named. -/
structure NumbersSeparate (entries : Set TmElement) : Prop where
  apart : ∀ a ∈ entries, ∀ b ∈ entries, a.element ≠ b.element →
    a.lockNumber < b.lockNumber ∨ b.lockNumber < a.lockNumber
  alike : ∀ a ∈ entries, ∀ b ∈ entries, ∀ a' ∈ entries, ∀ b' ∈ entries,
    a.element = a'.element → b.element = b'.element → a.element ≠ b.element →
    a.lockNumber < b.lockNumber → a'.lockNumber < b'.lockNumber

theorem lockOrder_lt (a b : TmElement) :
    lockOrder a b = .lt ↔ a.lockNumber < b.lockNumber :=
  (lt_iff_sign _ _).symm

theorem lockOrder_gt (a b : TmElement) :
    lockOrder a b = .gt ↔ b.lockNumber < a.lockNumber := by
  have swap : lockOrder b a = (lockOrder a b).swap :=
    (javaScript mergeSortJs).swap a b
  rw [← lockOrder_lt b a, swap]
  cases lockOrder a b <;> decide

theorem lockOrder_ne_eq (a b : TmElement) :
    lockOrder a b ≠ .eq ↔ a.lockNumber < b.lockNumber ∨
      b.lockNumber < a.lockNumber := by
  rw [← lockOrder_lt, ← lockOrder_gt]
  cases lockOrder a b <;> decide

/-- Where the numbers separate the elements, the comparison is consistent. -/
theorem javaScript_separates (sorting : JsSort) {entries : Set TmElement}
    (apart : ∀ a ∈ entries, ∀ b ∈ entries, a.element ≠ b.element →
      a.lockNumber < b.lockNumber ∨ b.lockNumber < a.lockNumber) :
    (javaScript sorting).Separates entries := by
  have strict : ∀ a ∈ entries, ∀ b ∈ entries, a.element ≠ b.element →
      lockOrder a b ≠ .eq :=
    fun a inA b inB different =>
      (lockOrder_ne_eq a b).mpr (apart a inA b inB different)
  refine ⟨fun items lists => ?_, strict⟩
  obtain ⟨inside, distinct⟩ := lists
  have self : ∀ a, lockOrder a a = .eq := (javaScript sorting).order_self
  have named : ∀ a ∈ items, ∀ b ∈ items, lockOrder a b ≠ .gt → a ≠ b →
      a.lockNumber < b.lockNumber := by
    intro a inA b inB kept different
    have other : a.element ≠ b.element := fun same =>
      different (List.inj_on_of_nodup_map distinct inA inB same)
    rcases apart a (inside a inA) b (inside b inB) other with below | above
    · exact below
    · exact absurd ((lockOrder_gt a b).mpr above) kept
  refine ⟨fun a _ => self a, fun a _ b _ => (javaScript sorting).swap a b, ?_⟩
  intro a inA b inB c inC first second
  by_cases sameLeft : a = b
  · subst sameLeft
    exact second
  · by_cases sameRight : b = c
    · subst sameRight
      exact first
    · have below := lt_trans (named a inA b inB first sameLeft)
        (named b inB c inC second sameRight)
      have less : lockOrder a c = .lt := (lockOrder_lt a c).mpr below
      change lockOrder a c ≠ .gt
      rw [less]
      decide

theorem NumbersSeparate.agree {entries : Set TmElement}
    (separate : NumbersSeparate entries)
    (sorting : JsSort) :
    (javaScript sorting).Agree entries (javaScript sorting) entries := by
  intro a inA b inB a' inA' b' inB' nameA nameB different
  change lockOrder a b = lockOrder a' b'
  rcases separate.apart a inA b inB different with below | above
  · have below' :=
      separate.alike a inA b inB a' inA' b' inB' nameA nameB different below
    rw [(lockOrder_lt a b).mpr below, (lockOrder_lt a' b').mpr below']
  · have above' :=
      separate.alike b inB a inA b' inB' a' inA' nameB nameA
        different.symm above
    rw [(lockOrder_gt a b).mpr above, (lockOrder_gt a' b').mpr above']

theorem OneLockOrder.separate {sorting : JsSort} {entries : Set TmElement}
    (one : OneLockOrder sorting entries) : NumbersSeparate entries := by
  rw [oneLockOrder_iff] at one
  constructor
  · intro a inA b inB different
    rw [← lockOrder_ne_eq]
    exact (one.compares inA inB inA inB rfl rfl different).2
  · intro a inA b inB a' inA' b' inB' nameA nameB different below
    have same := (one.compares inA inB inA' inB' nameA nameB different).1
    rw [← lockOrder_lt] at below ⊢
    exact same.symm.trans below

/-- `EMStmStart` locks in one order exactly where the numbers separate the
elements. -/
theorem EMStmStart_one_order (sorting : JsSort) (entries : Set TmElement) :
    OneLockOrder sorting entries ↔ NumbersSeparate entries := by
  constructor
  · exact OneLockOrder.separate
  · intro separate
    rw [oneLockOrder_iff]
    have separates := javaScript_separates sorting separate.apart
    exact Party.sameOrder_of_agree separates separates (separate.agree sorting)

/-- A mapped array, and two elements of it under string keys. -/
def stringKeyed (text : JsString) : TmElement :=
  ⟨⟨0, true, [1]⟩, .string text, false⟩

/-- Two transactions on the keys "a" and "b" lock them in the order in which
each happens to name them. -/
theorem EMStmStart_string_keys :
    ¬ OneLockOrder mergeSortJs {stringKeyed ['a'], stringKeyed ['b']} := by
  intro one
  have apart :=
    one.separate.apart (stringKeyed ['a']) (by simp)
      (stringKeyed ['b']) (by simp)
    (by decide)
  have tied : ¬ ((stringKeyed ['a']).lockNumber <
      (stringKeyed ['b']).lockNumber) ∧
      ¬ ((stringKeyed ['b']).lockNumber < (stringKeyed ['a']).lockNumber) := by
    decide +kernel
  exact apart.elim tied.1 tied.2

/-! ## The order of Python -/

/-- What `tmStart` and `_idx` read of an EMS array, and how many arrays were
created before it.  JavaScript numbers its regions by the latter. -/
structure PyArray where
  created : Nat
  mmapID : Nat
  useMap : Bool
  deriving DecidableEq

inductive PyKey where
  | integer (n : Int)
  | string (text : List Char)

/-- `str` -/
def pyStr : PyKey → List Char
  | .integer n =>
    if n < 0 then '-' :: Nat.toDigits 10 n.natAbs else Nat.toDigits 10 n.natAbs
  | .string text => text

/-- `_idx` and `_new_EMSval` for a key. -/
def pyNativeKey (array : PyArray) : PyKey → ElementKey
  | .integer n => .integer (Int64.ofInt n)
  | .string text =>
      if array.useMap then .string (cString text) else .integer (-1)

/-- An entry of the list that Python's `tmStart` gets.  One with a third item
is read-only. -/
structure PyTmElement where
  array : PyArray
  index : PyKey
  isReadOnly : Bool

def PyTmElement.element (entry : PyTmElement) : Nat × ElementKey :=
  (entry.array.created, pyNativeKey entry.array entry.index)

def getElemUID (item : PyTmElement) : List Char :=
  Nat.toDigits 10 (item.array.mmapID * MAX_ELEM_PER_REGION) ++ pyStr item.index

/-- Start a transaction: the locks in the order in which they are acquired. -/
def tmStart (emsElems : List PyTmElement) : List (PyTmElement × TmLock) :=
  let sortedElems :=
    emsElems.mergeSort fun a b => decide (getElemUID a ≤ getElemUID b)
  sortedElems.map fun elem =>
    (elem, if elem.isReadOnly then .readRW else .readFE)

/-- How two strings compare. -/
def uidOrder (a b : PyTmElement) : Ordering :=
  if getElemUID a < getElemUID b then .lt
  else if getElemUID b < getElemUID a then .gt
  else .eq

theorem uidOrder_lt (a b : PyTmElement) :
    uidOrder a b = .lt ↔ getElemUID a < getElemUID b := by
  unfold uidOrder
  split
  · simp_all
  · split <;> simp_all

theorem uidOrder_gt (a b : PyTmElement) :
    uidOrder a b = .gt ↔ getElemUID b < getElemUID a := by
  unfold uidOrder
  split
  case isTrue below => simp [below.asymm]
  case isFalse => split <;> simp_all

theorem uidOrder_eq (a b : PyTmElement) :
    uidOrder a b = .eq ↔ getElemUID a = getElemUID b := by
  rcases lt_trichotomy (getElemUID a) (getElemUID b) with below | same | above
  · simp [(uidOrder_lt a b).mpr below, below.ne]
  · simp [uidOrder, same]
  · simp [(uidOrder_gt a b).mpr above, above.ne']

private theorem uidOrder_swap (a b : PyTmElement) :
    uidOrder b a = (uidOrder a b).swap := by
  rcases lt_trichotomy (getElemUID a) (getElemUID b) with below | same | above
  · rw [(uidOrder_lt a b).mpr below, (uidOrder_gt b a).mpr below]
    rfl
  · rw [(uidOrder_eq a b).mpr same, (uidOrder_eq b a).mpr same.symm]
    rfl
  · rw [(uidOrder_gt a b).mpr above, (uidOrder_lt b a).mpr above]
    rfl

theorem uidOrder_ne_gt (a b : PyTmElement) :
    uidOrder a b ≠ .gt ↔ getElemUID a ≤ getElemUID b := by
  rw [Ne, uidOrder_gt, not_lt]

private theorem tmStart_sorts :
    IsStableSort uidOrder fun emsElems => (tmStart emsElems).map Prod.fst := by
  have sorted : ∀ emsElems : List PyTmElement, (tmStart emsElems).map Prod.fst =
      emsElems.mergeSort fun a b => decide (getElemUID a ≤ getElemUID b) := by
    intro emsElems
    simp [tmStart, Function.comp_def]
  constructor
  · intro items
    rw [sorted]
    exact List.mergeSort_perm items _
  · intro items _
    rw [sorted]
    congr 1
    funext a b
    rw [notAfter, Bool.eq_iff_iff, decide_eq_true_iff, bne_iff_ne,
      uidOrder_ne_gt]

/-- A Python process, as one who sorts entries. -/
def python : Party PyTmElement (Nat × ElementKey) where
  name := PyTmElement.element
  order := uidOrder
  sort emsElems := (tmStart emsElems).map Prod.fst
  sorts := tmStart_sorts
  swap := uidOrder_swap

private theorem python_consistent (items : List PyTmElement) :
    Consistent uidOrder items := by
  refine ⟨fun a _ => python.order_self a, fun a _ b _ => python.swap a b, ?_⟩
  intro a _ b _ c _ first second
  rw [uidOrder_ne_gt] at first second ⊢
  exact first.trans second

/-- The entries by which JavaScript names elements of the Python entries, as
numbers or as keys of a map. -/
def jsSpellings (entries : Set PyTmElement) : Set TmElement :=
  { entry | ((∃ x, entry.index = .number x) ∨
      ∃ text, entry.index = .string text ∧ entry.array.useMap = true) ∧
      ∃ named ∈ entries, named.element = entry.element }

/-- Python transactions lock in the order of each other and of JavaScript. -/
def OneOrderAcrossLanguages (sorting : JsSort)
    (entries : Set PyTmElement) : Prop :=
  SameLockOrder PyTmElement.element tmStart entries PyTmElement.element
    tmStart entries ∧
    SameLockOrder PyTmElement.element tmStart entries
      TmElement.element (EMStmStart sorting) (jsSpellings entries)

theorem oneOrderAcrossLanguages_iff (sorting : JsSort)
    (entries : Set PyTmElement) :
    OneOrderAcrossLanguages sorting entries ↔
      python.SameOrder entries python entries ∧
      python.SameOrder entries (javaScript sorting) (jsSpellings entries) :=
  and_congr
    (@sameLockOrder_iff _ _ python python _ _ _ _ (fun _ => rfl) (fun _ => rfl))
    (@sameLockOrder_iff _ _ python (javaScript sorting) _ _ _ _ (fun _ => rfl)
      (fun _ => rfl))

/-- Different elements have different strings, which are in the order of the
numbers of JavaScript, however the elements are named. -/
structure StringsSeparate (entries : Set PyTmElement) : Prop where
  apart : ∀ a ∈ entries, ∀ b ∈ entries, a.element ≠ b.element →
    getElemUID a ≠ getElemUID b
  alike : ∀ a ∈ entries, ∀ b ∈ entries, ∀ a' ∈ entries, ∀ b' ∈ entries,
    a.element = a'.element → b.element = b'.element → a.element ≠ b.element →
    getElemUID a < getElemUID b → getElemUID a' < getElemUID b'
  numbers : ∀ a ∈ entries, ∀ b ∈ entries, ∀ a' ∈ jsSpellings entries,
    ∀ b' ∈ jsSpellings entries,
    a.element = a'.element → b.element = b'.element → a.element ≠ b.element →
    getElemUID a < getElemUID b → a'.lockNumber < b'.lockNumber

theorem StringsSeparate.python_separates {entries : Set PyTmElement}
    (separate : StringsSeparate entries) : python.Separates entries := by
  constructor
  · intro items _
    exact python_consistent items
  · intro a inA b inB different tied
    exact separate.apart a inA b inB different ((uidOrder_eq a b).mp tied)

theorem StringsSeparate.numbers_apart {entries : Set PyTmElement}
    (separate : StringsSeparate entries) :
    ∀ a' ∈ jsSpellings entries, ∀ b' ∈ jsSpellings entries,
      a'.element ≠ b'.element →
      a'.lockNumber < b'.lockNumber ∨ b'.lockNumber < a'.lockNumber := by
  intro a' inA' b' inB' different
  obtain ⟨-, a, inA, nameA⟩ := id inA'
  obtain ⟨-, b, inB, nameB⟩ := id inB'
  have other : a.element ≠ b.element := by rwa [nameA, nameB]
  rcases lt_or_gt_of_ne (separate.apart a inA b inB other) with below | above
  · exact .inl (separate.numbers a inA b inB a' inA' b' inB' nameA nameB
      other below)
  · exact .inr (separate.numbers b inB a inA b' inB' a' inA' nameB nameA
      other.symm above)

theorem StringsSeparate.agree_python {entries : Set PyTmElement}
    (separate : StringsSeparate entries) :
    python.Agree entries python entries := by
  intro a inA b inB a' inA' b' inB' nameA nameB different
  change uidOrder a b = uidOrder a' b'
  rcases lt_or_gt_of_ne (separate.apart a inA b inB different)
    with below | above
  · have below' :=
      separate.alike a inA b inB a' inA' b' inB' nameA nameB different below
    rw [(uidOrder_lt a b).mpr below, (uidOrder_lt a' b').mpr below']
  · have above' :=
      separate.alike b inB a inA b' inB' a' inA' nameB nameA
        different.symm above
    rw [(uidOrder_gt a b).mpr above, (uidOrder_gt a' b').mpr above']

theorem StringsSeparate.agree_javaScript {entries : Set PyTmElement}
    (separate : StringsSeparate entries) (sorting : JsSort) :
    python.Agree entries (javaScript sorting) (jsSpellings entries) := by
  intro a inA b inB a' inA' b' inB' nameA nameB different
  change uidOrder a b = lockOrder a' b'
  rcases lt_or_gt_of_ne (separate.apart a inA b inB different)
    with below | above
  · have below' :=
      separate.numbers a inA b inB a' inA' b' inB' nameA nameB different below
    rw [(uidOrder_lt a b).mpr below, (lockOrder_lt a' b').mpr below']
  · have above' :=
      separate.numbers b inB a inA b' inB' a' inA' nameB nameA
        different.symm above
    rw [(uidOrder_gt a b).mpr above, (lockOrder_gt a' b').mpr above']

theorem OneOrderAcrossLanguages.separate {sorting : JsSort}
    {entries : Set PyTmElement}
    (one : OneOrderAcrossLanguages sorting entries) :
    StringsSeparate entries := by
  rw [oneOrderAcrossLanguages_iff] at one
  obtain ⟨among, across⟩ := one
  refine ⟨?_, ?_, ?_⟩
  · intro a inA b inB different tied
    exact (among.compares inA inB inA inB rfl rfl different).2
      ((uidOrder_eq a b).mpr tied)
  · intro a inA b inB a' inA' b' inB' nameA nameB different below
    have same := (among.compares inA inB inA' inB' nameA nameB different).1
    exact (uidOrder_lt a' b').mp (same.symm.trans ((uidOrder_lt a b).mpr below))
  · intro a inA b inB a' inA' b' inB' nameA nameB different below
    have same := (across.compares inA inB inA' inB' nameA nameB different).1
    exact (lockOrder_lt a' b').mp
      (same.symm.trans ((uidOrder_lt a b).mpr below))

/-- Python transactions lock in the order of each other and of JavaScript
exactly where the strings separate the elements in the order of the numbers. -/
theorem tmStart_one_order (sorting : JsSort) (entries : Set PyTmElement) :
    OneOrderAcrossLanguages sorting entries ↔ StringsSeparate entries := by
  constructor
  · exact OneOrderAcrossLanguages.separate
  · intro separate
    rw [oneOrderAcrossLanguages_iff]
    constructor
    · exact Party.sameOrder_of_agree separate.python_separates
        separate.python_separates
        separate.agree_python
    · exact Party.sameOrder_of_agree separate.python_separates
        (javaScript_separates sorting separate.numbers_apart)
        (separate.agree_javaScript sorting)

/-- An element of the array that is created first.  Buffer 0 is the domain. -/
def pyIndexed (n : Int) : PyTmElement :=
  ⟨⟨0, 1, false⟩, .integer n, false⟩

def jsIndexed (n : Nat) : TmElement :=
  ⟨⟨0, false, [1]⟩, .number (Float.ofNat n), false⟩

/-- Python locks the index 10 before the index 9, JavaScript the other way
round. -/
theorem tmStart_nine_ten :
    ¬ OneOrderAcrossLanguages mergeSortJs {pyIndexed 9, pyIndexed 10} := by
  intro one
  have named : ∀ n : Nat, (n = 9 ∨ n = 10) → (pyIndexed n).element =
      (jsIndexed n).element := by
    rintro n (rfl | rfl) <;> decide +kernel
  have spelled : ∀ n : Nat, (n = 9 ∨ n = 10) →
      jsIndexed n ∈ jsSpellings {pyIndexed 9, pyIndexed 10} := by
    intro n either
    refine ⟨.inl ⟨_, rfl⟩, pyIndexed n, ?_, named n either⟩
    rcases either with rfl | rfl <;> simp
  have before : getElemUID (pyIndexed 10) < getElemUID (pyIndexed 9) := by
    decide +kernel
  have swapped :=
    one.separate.numbers (pyIndexed 10) (by simp) (pyIndexed 9) (by simp)
    (jsIndexed 10) (spelled 10 (.inr rfl)) (jsIndexed 9) (spelled 9 (.inl rfl))
    (named 10 (.inr rfl)) (named 9 (.inl rfl)) (by decide +kernel) before
  have numeric : ¬ ((jsIndexed 10).lockNumber < (jsIndexed 9).lockNumber) := by
    decide +kernel
  exact numeric swapped

end EMS
