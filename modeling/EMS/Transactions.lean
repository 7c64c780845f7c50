import EMS.Interleaving
import EMS.LockOrder
import EMS.Memory
import Mathlib.Data.Fintype.Card
import Mathlib.Data.Fintype.Order

/-!
# Transactions are isolated and free of deadlock

`EMStmStart` acquires its locks one after the other in the sorted order, and
`EMStmEnd` gives them back.  A lock is an element left EMPTY, or a reader
counted under RW_LOCK.  The tag of an element says who holds it, and a process
that waits holds nothing behind what it waits for in the order of the locks.
-/

namespace EMS

open Interleaving Sorting Doubles

/-! ## Elements under locks -/

/-- An element as the atomic operations on it see it. -/
structure LockElement (V : Type) where
  fe : FE
  rw : Fin 8
  value : V

namespace LockElement

variable {V : Type} (element : LockElement V)

/-- `readFE` waits for FULL.  `readRW` waits for FULL, or for RW_LOCK with a
count that is not saturated. -/
def acquire : TmLock → Option (LockElement V)
  | .readFE =>
    if element.fe = .full then some { element with fe := .empty } else none
  | .readRW =>
      if (element.fe = .rwLock ∨ element.fe = .full) ∧ element.rw < 7 then
        some { element with fe := .rwLock, rw := element.rw + 1 }
      else none

/-- `releaseRW` waits while the element is BUSY. -/
def releaseRW : Option (LockElement V) :=
  match element.fe with
  | .rwLock =>
      -- "locked but Count already 0"
      if element.rw = 0 then some element
      else
        some { element with
          rw := element.rw - 1
          fe := if element.rw - 1 = 0 then .full else .rwLock }
  | .busy => none
  -- "The RW lock being released is in some other state"
  | _ => some element

def setTag (isFull : Bool) : LockElement V :=
  { element with fe := if isFull then .full else .empty }

/-- `writeEF` waits for EMPTY. -/
def writeEF (value : V) : Option (LockElement V) :=
  if element.fe = .empty then some ⟨.full, 0, value⟩ else none

end LockElement

/-! ## Transactions -/

/-- An entry of a handle: an entry of the list that the transaction was started
with, and the value that the read has returned that locked it. -/
structure TmHeld (V : Type) where
  entry : TmElement
  value : V

/-- What `EMStmEnd` does with an entry of the handle. -/
def endLock {V : Type} (doCommit : Bool) (held : TmHeld V)
    (element : LockElement V) :
    Option (LockElement V) :=
  if held.entry.isReadOnly then element.releaseRW
  else if doCommit then some (element.setTag true)
  else element.writeEF held.value

inductive TmPhase where
  | outside
  | starting
  | inside
  | ending (doCommit : Bool)
  deriving DecidableEq

/-- A process with the locks that its transaction has still to acquire and the
handle of those it has. -/
structure TmProcess (V : Type) where
  phase : TmPhase
  pending : List (TmElement × TmLock)
  handle : List (TmHeld V)

abbrev TmMemory (V : Type) := Nat × ElementKey → LockElement V

/-- The entry names an unmapped array and an index in its range, and its lock
number is below `2 ^ 53`. -/
structure IsIndexed (nElem : Nat → Nat) (entry : TmElement) : Prop where
  unmapped : entry.array.useMap = false
  index : ∃ idx : Nat, entry.index = .number (Float.ofNat idx) ∧
    idx < nElem entry.array.regionN ∧
    entry.array.regionN * MAX_ELEM_PER_REGION + idx < 2 ^ 53

inductive TmAct where
  | tmStart (emsElems : List TmElement)
  | acquire
  | started
  | tmEnd (doCommit : Bool)
  | release
  | ended

section Program

variable {N : Nat} {V : Type}

/-- The steps of one process: start a transaction on a list without
duplicates, acquire the next lock, end the transaction, give the next lock
back.  A value that a read returns to JavaScript and a write stores again is
stored as `roundTrip` of it; no write is refused. -/
inductive TmProgram (sorting : JsSort) (nElem : Nat → Nat) (roundTrip : V → V)
    (p : Fin N) :
    TmMemory V → TmProcess V → TmAct → TmMemory V → TmProcess V → Prop where
  | tmStart {memory : TmMemory V} {emsElems : List TmElement} :
      (∀ entry ∈ emsElems, IsIndexed nElem entry) →
      (emsElems.map TmElement.element).Nodup →
      TmProgram sorting nElem roundTrip p memory ⟨.outside, [], []⟩
        (.tmStart emsElems)
        memory ⟨.starting, EMStmStart sorting emsElems, []⟩
  | acquire {memory : TmMemory V} {entry : TmElement} {lock : TmLock}
      {pending : List (TmElement × TmLock)} {handle : List (TmHeld V)}
      {element : LockElement V} :
      (memory entry.element).acquire lock = some element →
      TmProgram sorting nElem roundTrip p memory
        ⟨.starting, (entry, lock) :: pending, handle⟩ .acquire
        (Function.update memory entry.element element)
        ⟨.starting, pending,
          handle ++ [⟨entry, roundTrip (memory entry.element).value⟩]⟩
  | started {memory : TmMemory V} {handle : List (TmHeld V)} :
      TmProgram sorting nElem roundTrip p memory
        ⟨.starting, [], handle⟩ .started
        memory ⟨.inside, [], handle⟩
  | tmEnd {memory : TmMemory V} {handle : List (TmHeld V)} (doCommit : Bool) :
      TmProgram sorting nElem roundTrip p memory ⟨.inside, [], handle⟩
        (.tmEnd doCommit)
        memory ⟨.ending doCommit, [], handle⟩
  | release {memory : TmMemory V} {held : TmHeld V} {handle : List (TmHeld V)}
      {doCommit : Bool} {element : LockElement V} :
      endLock doCommit held (memory held.entry.element) = some element →
      TmProgram sorting nElem roundTrip p memory
        ⟨.ending doCommit, [], held :: handle⟩ .release
        (Function.update memory held.entry.element element)
          ⟨.ending doCommit, [], handle⟩
  | ended {memory : TmMemory V} {doCommit : Bool} :
      TmProgram sorting nElem roundTrip p memory
        ⟨.ending doCommit, [], []⟩ .ended
        memory ⟨.outside, [], []⟩

abbrev TmConfig (N : Nat) (V : Type) :=
  Config (Fin N) (TmMemory V) (TmProcess V)

/-- Any process takes any of its steps. -/
def TmStep (sorting : JsSort) (nElem : Nat → Nat) (roundTrip : V → V)
    (config : TmConfig N V)
    (label : Fin N × TmAct) (next : TmConfig N V) : Prop :=
  Step (TmProgram sorting nElem roundTrip) config label next

/-- Nobody has started a transaction yet. -/
def initialTm (N : Nat) (memory : TmMemory V) : TmConfig N V :=
  ⟨memory, fun _ => ⟨.outside, [], []⟩⟩

/-- The transaction of the process holds the element, read-only or not. -/
def TmProcess.holds (process : TmProcess V) (name : Nat × ElementKey)
    (isReadOnly : Bool) : Bool :=
  process.handle.any fun held =>
    decide (held.entry.element = name) && held.entry.isReadOnly == isReadOnly

/-- Two transactions hold one element only if both hold it read-only. -/
def Isolated (config : TmConfig N V) : Prop :=
  ∀ p q, p ≠ q → ∀ name first second,
    (config.control p).holds name first = true →
    (config.control q).holds name second = true → first = true ∧ second = true

/-- While a transaction is unfinished, some process with an unfinished one can
take its next step. -/
def Progresses (sorting : JsSort) (nElem : Nat → Nat) (roundTrip : V → V)
    (config : TmConfig N V) : Prop :=
  (∃ p, (config.control p).phase ≠ .outside) →
    ∃ p, (config.control p).phase ≠ .outside ∧
      ∃ act next, TmStep sorting nElem roundTrip config (p, act) next

end Program

/-! ## The order of indexed elements -/

section Indexes

variable {nElem : Nat → Nat} {entry first second : TmElement}

theorem isNat_lockNumber {idx : Nat}
    (named : entry.index = .number (Float.ofNat idx))
    (below : entry.array.regionN * MAX_ELEM_PER_REGION + idx < 2 ^ 53) :
    IsNat entry.lockNumber
      (entry.array.regionN * MAX_ELEM_PER_REGION + idx) := by
  have small : entry.array.regionN < 2 ^ 53 := by
    have factor : entry.array.regionN ≤
        entry.array.regionN * MAX_ELEM_PER_REGION :=
      Nat.le_mul_of_pos_right _ (by decide)
    omega
  have product :=
    (isNat_ofNat small).mul (isNat_ofNat (n := MAX_ELEM_PER_REGION) (by decide))
    (by omega)
  have sum := product.add (isNat_ofNat (n := idx) (by omega)) below
  rw [TmElement.lockNumber, named]
  exact sum

theorem element_indexed {idx : Nat}
    (named : entry.index = .number (Float.ofNat idx))
    (below : idx < 2 ^ 53) :
    ∃ n : Int64, entry.element = (entry.array.regionN, .integer n) ∧
      n.toInt = idx := by
  have natural := isNat_ofNat below
  have low : Int64.minValue.toInt ≤ idx := by
    have : Int64.minValue.toInt ≤ 0 := by decide
    omega
  have high : (idx : Int) ≤ Int64.maxValue.toInt := by
    have : (2 ^ 53 : Int) ≤ Int64.maxValue.toInt := by decide
    omega
  have truncated : (Float.ofNat idx).toModel.toInt64.toInt = idx := by
    change (Int64.ofIntClamp _).toInt = _
    rw [IsNat.toInt natural, ← @Int64.ofIntLE_eq_ofIntClamp _ low high,
      Int64.toInt_ofIntLE]
  have integral : isInteger (Float.ofNat idx) = true := by
    rw [isInteger, truncated]
    exact beq_self natural.isNaN
  refine ⟨_, ?_, truncated⟩
  rw [TmElement.element, named]
  simp [EMSidx, napiKey, integral]

/-- Entries that name one element have one lock number, and entries that name
two have two, if the arrays are not larger than a region may be. -/
theorem lockNumber_indexed
    (bounded : ∀ regionN, nElem regionN ≤ MAX_ELEM_PER_REGION)
    (indexed₁ : IsIndexed nElem first) (indexed₂ : IsIndexed nElem second) :
    if first.element = second.element then first.lockNumber = second.lockNumber
    else first.lockNumber < second.lockNumber ∨
      second.lockNumber < first.lockNumber := by
  obtain ⟨idx₁, named₁, inside₁, below₁⟩ := indexed₁.index
  obtain ⟨idx₂, named₂, inside₂, below₂⟩ := indexed₂.index
  obtain ⟨n₁, element₁, value₁⟩ := element_indexed named₁ (by omega)
  obtain ⟨n₂, element₂, value₂⟩ := element_indexed named₂ (by omega)
  have room₁ := inside₁.trans_le (bounded _)
  have room₂ := inside₂.trans_le (bounded _)
  split
  case isTrue same =>
    rw [element₁, element₂] at same
    obtain ⟨region, key⟩ := Prod.mk.inj same
    obtain rfl := ElementKey.integer.inj key
    have index : idx₁ = idx₂ := by omega
    rw [TmElement.lockNumber, TmElement.lockNumber, named₁, named₂,
      region, index]
  case isFalse different =>
    rw [← lockOrder_ne_eq, lockOrder, compareLocks,
      (isNat_lockNumber named₁ below₁).sign_sub
        (isNat_lockNumber named₂ below₂)]
    intro tied
    have equal := Nat.compare_eq_eq.mp tied
    apply different
    have parts : first.array.regionN = second.array.regionN ∧ idx₁ = idx₂ := by
      simp only [MAX_ELEM_PER_REGION] at equal room₁ room₂
      omega
    have word : n₁ = n₂ := by
      apply Int64.toInt_inj.mp
      rw [value₁, value₂, parts.2]
    rw [element₁, element₂, parts.1, word]

end Indexes

/-! ## Who holds an element -/

section Holders

variable {N : Nat} {V : Type}

/-- The processes whose transactions hold the element, read-only or not. -/
def tmHolders (control : Fin N → TmProcess V) (name : Nat × ElementKey)
    (isReadOnly : Bool) :
    Finset (Fin N) :=
  Finset.univ.filter fun p => (control p).holds name isReadOnly = true

theorem mem_tmHolders {control : Fin N → TmProcess V} {name : Nat × ElementKey}
    {isReadOnly : Bool}
    {p : Fin N} :
    p ∈ tmHolders control name isReadOnly ↔
      (control p).holds name isReadOnly = true := by
  simp [tmHolders]

theorem tmHolders_update {control : Fin N → TmProcess V} {p : Fin N}
    {process : TmProcess V}
    {name : Nat × ElementKey} {isReadOnly : Bool} :
    tmHolders (Function.update control p process) name isReadOnly =
      if process.holds name isReadOnly then
        insert p (tmHolders control name isReadOnly)
      else (tmHolders control name isReadOnly).erase p := by
  ext q
  by_cases same : q = p
  · subst same
    split <;> simp_all [tmHolders]
  · split <;> simp [tmHolders, same]

theorem tmHolders_update_same {control : Fin N → TmProcess V} {p : Fin N}
    {process : TmProcess V}
    {name : Nat × ElementKey} {isReadOnly : Bool}
    (same : process.holds name isReadOnly = (control p).holds name isReadOnly) :
    tmHolders (Function.update control p process) name isReadOnly =
      tmHolders control name isReadOnly := by
  rw [tmHolders_update, same]
  split
  case isTrue held => exact Finset.insert_eq_of_mem (mem_tmHolders.mpr held)
  case isFalse notHeld =>
    exact Finset.erase_eq_of_notMem fun held =>
      notHeld (mem_tmHolders.mp held)

/-- The tag of an element agrees with who holds it. -/
inductive Owned (element : LockElement V)
    (writers readers : Finset (Fin N)) : Prop where
  | free : element.fe = .full → element.rw = 0 → writers = ∅ → readers = ∅ →
      Owned element writers readers
  | exclusive (p : Fin N) : element.fe = .empty → element.rw = 0 →
      writers = {p} →
      readers = ∅ → Owned element writers readers
  | shared : element.fe = .rwLock → element.rw.val = readers.card →
      readers.card ≠ 0 →
      writers = ∅ → Owned element writers readers

/-- A process that acquires an element is added to its holders. -/
theorem Owned.acquire {element element' : LockElement V}
    {writers readers : Finset (Fin N)}
    {p : Fin N} (owned : Owned element writers readers)
    (notReader : p ∉ readers)
    {isReadOnly : Bool}
    (acquired : element.acquire (if isReadOnly then .readRW else .readFE) =
      some element') :
    Owned element' (if isReadOnly then writers else insert p writers)
      (if isReadOnly then insert p readers else readers) := by
  cases isReadOnly with
  | false =>
      simp only [Bool.false_eq_true, if_false, LockElement.acquire,
        Option.ite_none_right_eq_some,
        Option.some.injEq] at acquired ⊢
      obtain ⟨full, rfl⟩ := acquired
      cases owned with
      | free _ count noWriters noReaders =>
          refine .exclusive p rfl count ?_ noReaders
          rw [noWriters]
          rfl
      | exclusive _ empty => simp [empty] at full
      | shared locked => simp [locked] at full
  | true =>
      simp only [if_true, LockElement.acquire, Option.ite_none_right_eq_some,
        Option.some.injEq] at acquired ⊢
      obtain ⟨⟨state, room⟩, rfl⟩ := acquired
      have counted : (insert p readers).card = readers.card + 1 :=
        Finset.card_insert_of_notMem notReader
      cases owned with
      | free full count noWriters noReaders =>
          refine .shared rfl ?_ (by omega) noWriters
          rw [counted, noReaders, count]
          rfl
      | exclusive _ empty => simp [empty] at state
      | shared locked count some noWriters =>
          refine .shared rfl ?_ (by omega) noWriters
          rw [counted, ← count]
          have next : (element.rw + 1).val = (element.rw.val + 1) % 8 := rfl
          have below : element.rw.val < 7 := room
          change (element.rw + 1).val = _
          omega

/-- A process that gives an element back is taken from its holders. -/
theorem Owned.release {element : LockElement V}
    {writers readers : Finset (Fin N)}
    {p : Fin N} (owned : Owned element writers readers) {doCommit : Bool}
    {held : TmHeld V}
    (holds : p ∈ if held.entry.isReadOnly then readers else writers) :
    ∃ element', endLock doCommit held element = some element' ∧
      Owned element' (if held.entry.isReadOnly then writers
        else writers.erase p)
        (if held.entry.isReadOnly then readers.erase p else readers) := by
  cases readOnly : held.entry.isReadOnly with
  | false =>
      simp only [readOnly, Bool.false_eq_true, if_false] at holds ⊢
      cases owned with
      | free _ _ noWriters => simp [noWriters] at holds
      | shared _ _ _ noWriters => simp [noWriters] at holds
      | exclusive q empty count writer noReaders =>
          obtain rfl : p = q := by simpa [writer] using holds
          have nobody : writers.erase p = ∅ := by simp [writer]
          cases doCommit with
          | true =>
              refine ⟨element.setTag true, ?_, .free rfl count nobody noReaders⟩
              simp [endLock, readOnly]
          | false =>
              refine ⟨⟨.full, 0, held.value⟩, ?_,
                .free rfl rfl nobody noReaders⟩
              simp [endLock, readOnly, LockElement.writeEF, empty]
  | true =>
      simp only [readOnly, if_true] at holds ⊢
      cases owned with
      | free _ _ _ noReaders => simp [noReaders] at holds
      | exclusive _ _ _ _ noReaders => simp [noReaders] at holds
      | shared locked count some noWriters =>
          have fewer : (readers.erase p).card = readers.card - 1 :=
            Finset.card_erase_of_mem holds
          have counted : element.rw ≠ 0 := by
            intro zero
            rw [zero] at count
            exact some count.symm
          have previous : (element.rw - 1).val = element.rw.val - 1 := by
            have positive : 1 ≤ element.rw := by
              rw [Fin.le_def]
              have : element.rw.val ≠ 0 := fun zero => counted (Fin.ext zero)
              change 1 ≤ element.rw.val
              omega
            exact Fin.sub_val_of_le positive
          refine
            ⟨_, by simp [endLock, readOnly, LockElement.releaseRW, locked, counted]; rfl, ?_⟩
          by_cases last : element.rw - 1 = 0
          · refine .free (by simp [last]) last noWriters ?_
            rw [← Finset.card_eq_zero, fewer, ← count, ← previous, last]
            rfl
          · refine .shared (by simp [last]) ?_ ?_ noWriters
            · rw [fewer, ← count]
              exact previous
            · rw [fewer, ← count, ← previous]
              exact fun zero => last (Fin.ext zero)

end Holders

/-! ## The invariant -/

section Invariant

variable {N : Nat} {V : Type} {sorting : JsSort} {nElem : Nat → Nat}
  {roundTrip : V → V}

/-- The entries whose locks the transaction has or will acquire, in order. -/
def TmProcess.entries (process : TmProcess V) : List TmElement :=
  process.handle.map TmHeld.entry ++ process.pending.map Prod.fst

/-- The locks are acquired in the order of the numbers, each element once. -/
structure TmProcess.Valid (nElem : Nat → Nat)
    (process : TmProcess V) : Prop where
  indexed : ∀ entry ∈ process.entries, IsIndexed nElem entry
  distinct : (process.entries.map TmElement.element).Nodup
  sorted : process.entries.Pairwise fun a b => a.lockNumber < b.lockNumber
  locks : ∀ lock ∈ process.pending, lock.2 = if lock.1.isReadOnly then .readRW
    else .readFE
  acquired : process.phase ≠ .starting → process.pending = []
  released : process.phase = .outside → process.handle = []

structure TmInvariant (nElem : Nat → Nat) (config : TmConfig N V) : Prop where
  valid : ∀ p, (config.control p).Valid nElem
  owned : ∀ name, Owned (config.shared name)
    (tmHolders config.control name false)
    (tmHolders config.control name true)

/-- `EMStmStart` locks each of its elements once, in the order of the
numbers. -/
theorem EMStmStart_valid
    (bounded : ∀ regionN, nElem regionN ≤ MAX_ELEM_PER_REGION)
    {emsElems : List TmElement}
    (indexed : ∀ entry ∈ emsElems, IsIndexed nElem entry)
    (distinct : (emsElems.map TmElement.element).Nodup) :
    TmProcess.Valid nElem
      (⟨.starting, EMStmStart sorting emsElems, []⟩ : TmProcess V) := by
  have sorts := lockedEntries_sorts sorting
  have permuted : ((EMStmStart sorting emsElems).map Prod.fst).Perm emsElems :=
    sorts.perm emsElems
  have apart : ∀ a ∈ {entry | IsIndexed nElem entry},
      ∀ b ∈ {entry | IsIndexed nElem entry},
      a.element ≠ b.element → a.lockNumber < b.lockNumber ∨
          b.lockNumber < a.lockNumber := by
    intro a inA b inB different
    have numbers := lockNumber_indexed bounded inA inB
    rwa [if_neg different] at numbers
  have separates := javaScript_separates sorting apart
  have consistent := separates.consistent emsElems ⟨indexed, distinct⟩
  have distinct' : (((EMStmStart sorting emsElems).map Prod.fst).map
      TmElement.element).Nodup :=
    (permuted.map _).nodup_iff.mpr distinct
  have increasing : ((EMStmStart sorting emsElems).map Prod.fst).Pairwise
      fun a b => lockOrder a b ≠ .gt := by
    have sorted := consistent.pairwise
    have same := sorts.stable emsElems consistent
    change lockedEntries sorting emsElems = _ at same
    change (lockedEntries sorting emsElems).Pairwise _
    rw [same]
    exact sorted
  refine ⟨?_, ?_, ?_, ?_, ?_, ?_⟩
  · intro entry member
    exact indexed entry
      (permuted.mem_iff.mp (by simpa [TmProcess.entries] using member))
  · simpa [TmProcess.entries] using distinct'
  · have both := increasing.and (List.pairwise_map.mp distinct')
    have strict :=
      both.imp_of_mem (S := fun a b => a.lockNumber < b.lockNumber) (by
      intro a b inA inB kept
      rcases apart a (indexed a (permuted.mem_iff.mp inA)) b
        (indexed b (permuted.mem_iff.mp inB))
        kept.2 with below | above
      · exact below
      · exact absurd ((lockOrder_gt a b).mpr above) kept.1)
    simpa [TmProcess.entries] using strict
  · intro lock member
    simp only [EMStmStart, List.mem_map] at member
    obtain ⟨e, -, rfl⟩ := member
    rfl
  · intro starting
    exact absurd rfl starting
  · intro outside
    cases outside

/-- A process that moves in a way that leaves the memory and what it holds
alone. -/
theorem TmInvariant.moves {memory : TmMemory V}
    {control : Fin N → TmProcess V} {p : Fin N}
    (invariant : TmInvariant nElem (⟨memory, control⟩ : TmConfig N V))
    {process : TmProcess V}
    (valid : process.Valid nElem)
    (same : ∀ name isReadOnly,
      process.holds name isReadOnly = (control p).holds name isReadOnly) :
    TmInvariant nElem (⟨memory, Function.update control p process⟩ :
      TmConfig N V) := by
  constructor
  · intro q
    by_cases moved : q = p
    · subst moved
      simpa using valid
    · simpa [moved] using invariant.valid q
  · intro name
    have owned := invariant.owned name
    simp only at owned ⊢
    rwa [tmHolders_update_same (same name false),
      tmHolders_update_same (same name true)]

/-- A process that changes one element and whether it holds it. -/
theorem TmInvariant.touches {memory : TmMemory V}
    {control : Fin N → TmProcess V} {p : Fin N}
    (invariant : TmInvariant nElem (⟨memory, control⟩ : TmConfig N V))
    {process : TmProcess V}
    {name : Nat × ElementKey} {element : LockElement V}
    (valid : process.Valid nElem)
    (same : ∀ other, other ≠ name → ∀ isReadOnly,
      process.holds other isReadOnly = (control p).holds other isReadOnly)
    (owned : Owned element
      (tmHolders (Function.update control p process) name false)
      (tmHolders (Function.update control p process) name true)) :
    TmInvariant nElem (⟨Function.update memory name element,
      Function.update control p process⟩ : TmConfig N V) := by
  constructor
  · intro q
    by_cases moved : q = p
    · subst moved
      simpa using valid
    · simpa [moved] using invariant.valid q
  · intro other
    by_cases touched : other = name
    · subst touched
      simpa using owned
    · have kept := invariant.owned other
      simp only at kept ⊢
      rw [Function.update_of_ne touched,
        tmHolders_update_same (same other touched false),
        tmHolders_update_same (same other touched true)]
      exact kept

theorem holds_append {phase : TmPhase} {pending : List (TmElement × TmLock)}
    {handle : List (TmHeld V)} {held : TmHeld V} {name : Nat × ElementKey}
    {isReadOnly : Bool} :
    (⟨phase, pending, handle ++ [held]⟩ : TmProcess V).holds name isReadOnly =
      ((⟨phase, pending, handle⟩ : TmProcess V).holds name isReadOnly ||
        (decide (held.entry.element = name) &&
          held.entry.isReadOnly == isReadOnly)) := by
  simp [TmProcess.holds]

theorem holds_cons {phase : TmPhase} {pending : List (TmElement × TmLock)}
    {handle : List (TmHeld V)} {held : TmHeld V} {name : Nat × ElementKey}
    {isReadOnly : Bool} :
    (⟨phase, pending, held :: handle⟩ : TmProcess V).holds name isReadOnly =
      ((decide (held.entry.element = name) &&
        held.entry.isReadOnly == isReadOnly) ||
        (⟨phase, pending, handle⟩ : TmProcess V).holds name isReadOnly) := by
  simp [TmProcess.holds]

theorem not_holds {phase : TmPhase} {pending : List (TmElement × TmLock)}
    {handle : List (TmHeld V)} {name : Nat × ElementKey} {isReadOnly : Bool}
    (absent : name ∉ handle.map fun held => held.entry.element) :
    (⟨phase, pending, handle⟩ : TmProcess V).holds name isReadOnly = false := by
  simp only [TmProcess.holds, List.any_eq_false, Bool.and_eq_true,
    decide_eq_true_eq]
  intro held member both
  exact absent (List.mem_map.mpr ⟨held, member, both.1⟩)

/-- The process that acquires a lock holds nothing of that element yet. -/
theorem TmInvariant.acquire {memory : TmMemory V}
    {control : Fin N → TmProcess V} {p : Fin N}
    (invariant : TmInvariant nElem (⟨memory, control⟩ : TmConfig N V))
    {entry : TmElement}
    {lock : TmLock} {pending : List (TmElement × TmLock)}
    {handle : List (TmHeld V)}
    {element : LockElement V} {value : V}
    (now : control p = ⟨.starting, (entry, lock) :: pending, handle⟩)
    (acquired : (memory entry.element).acquire lock = some element) :
    TmInvariant nElem (⟨Function.update memory entry.element element,
      Function.update control p
        ⟨.starting, pending, handle ++ [⟨entry, value⟩]⟩⟩ :
        TmConfig N V) := by
  have valid : (control p).Valid nElem := invariant.valid p
  rw [now] at valid
  have fresh : entry.element ∉ handle.map fun held => held.entry.element := by
    have distinct := valid.distinct
    simp only [TmProcess.entries, List.map_append, List.map_cons,
      List.map_map] at distinct
    intro member
    exact (List.nodup_append.mp distinct).2.2 _ member _
      (List.mem_cons_self ..) rfl
  have before : ∀ isReadOnly,
      (control p).holds entry.element isReadOnly = false := by
    intro isReadOnly
    rw [now]
    exact not_holds fresh
  have notHolder : ∀ isReadOnly,
      p ∉ tmHolders control entry.element isReadOnly := by
    intro isReadOnly
    rw [mem_tmHolders, before isReadOnly]
    decide
  have named : lock = if entry.isReadOnly then .readRW else .readFE :=
    valid.locks _ (List.mem_cons_self ..)
  rw [named] at acquired
  have same : ∀ value, TmProcess.entries
      (⟨.starting, pending, handle ++ [⟨entry, value⟩]⟩ : TmProcess V) =
        TmProcess.entries (⟨.starting, (entry, lock) :: pending, handle⟩ :
            TmProcess V) := by
    intro value
    simp [TmProcess.entries]
  apply invariant.touches
  · constructor
    · rw [same]
      exact valid.indexed
    · rw [same]
      exact valid.distinct
    · rw [same]
      exact valid.sorted
    · intro later member
      exact valid.locks later (List.mem_cons_of_mem _ member)
    · intro starting
      exact absurd rfl starting
    · intro outside
      cases outside
  · intro other different isReadOnly
    rw [now, holds_append, decide_eq_false (Ne.symm different)]
    simp [TmProcess.holds]
  · have owned :=
      (invariant.owned entry.element).acquire (notHolder true) acquired
    simp only [tmHolders_update, holds_append, not_holds fresh, decide_true,
      Bool.true_and,
      Bool.false_or]
    cases readOnly : entry.isReadOnly with
    | false =>
        simp only [readOnly, Bool.false_eq_true, if_false] at owned
        simpa [Finset.erase_eq_of_notMem (notHolder true)] using owned
    | true =>
        simp only [readOnly, if_true] at owned
        simpa [Finset.erase_eq_of_notMem (notHolder false)] using owned

/-- The process that gives an element back holds it, and no second time. -/
theorem TmInvariant.release {memory : TmMemory V}
    {control : Fin N → TmProcess V} {p : Fin N}
    (invariant : TmInvariant nElem (⟨memory, control⟩ : TmConfig N V))
    {held : TmHeld V}
    {handle : List (TmHeld V)} {doCommit : Bool}
    (now : control p = ⟨.ending doCommit, [], held :: handle⟩) :
    ∃ element, endLock doCommit held (memory held.entry.element) =
      some element ∧
      TmInvariant nElem (⟨Function.update memory held.entry.element element,
        Function.update control p ⟨.ending doCommit, [], handle⟩⟩ :
          TmConfig N V) := by
  have valid : (control p).Valid nElem := invariant.valid p
  rw [now] at valid
  have fresh : held.entry.element ∉ handle.map fun other =>
      other.entry.element := by
    have distinct := valid.distinct
    simp only [TmProcess.entries, List.map_cons, List.map_nil, List.append_nil,
      List.nodup_cons, List.map_map] at distinct
    exact distinct.1
  have before : ∀ isReadOnly, (control p).holds held.entry.element isReadOnly =
      (held.entry.isReadOnly == isReadOnly) := by
    intro isReadOnly
    rw [now, holds_cons, not_holds fresh]
    simp
  have holds : p ∈ if held.entry.isReadOnly then
      tmHolders control held.entry.element true
      else tmHolders control held.entry.element false := by
    cases readOnly : held.entry.isReadOnly <;> simp [mem_tmHolders,
      before, readOnly]
  obtain ⟨element, ended, owned⟩ :=
    @Owned.release _ _ _ _ _ _ (invariant.owned held.entry.element)
      doCommit held holds
  refine ⟨element, ended, ?_⟩
  apply invariant.touches
  · constructor
    · intro entry member
      apply valid.indexed
      simp only [TmProcess.entries, List.map_cons, List.map_nil,
        List.append_nil] at member ⊢
      exact List.mem_cons_of_mem _ member
    · have distinct := valid.distinct
      simp only [TmProcess.entries, List.map_cons, List.map_nil,
        List.append_nil] at distinct ⊢
      exact (List.nodup_cons.mp distinct).2
    · have sorted := valid.sorted
      simp only [TmProcess.entries, List.map_cons, List.map_nil,
        List.append_nil] at sorted ⊢
      exact (List.pairwise_cons.mp sorted).2
    · intro lock member
      cases member
    · intro _
      rfl
    · intro outside
      cases outside
  · intro other different isReadOnly
    rw [now, holds_cons, decide_eq_false (Ne.symm different)]
    simp
  · simp only [tmHolders_update, not_holds fresh, Bool.false_eq_true, if_false]
    cases readOnly : held.entry.isReadOnly with
    | false =>
        have notReader : p ∉ tmHolders control held.entry.element true := by
          simp [mem_tmHolders, before, readOnly]
        simp only [readOnly, Bool.false_eq_true, if_false] at owned
        rwa [Finset.erase_eq_of_notMem notReader]
    | true =>
        have notWriter : p ∉ tmHolders control held.entry.element false := by
          simp [mem_tmHolders, before, readOnly]
        simp only [readOnly, if_true] at owned
        rwa [Finset.erase_eq_of_notMem notWriter]

theorem TmInvariant.step
    (bounded : ∀ regionN, nElem regionN ≤ MAX_ELEM_PER_REGION)
    {config next : TmConfig N V} {label : Fin N × TmAct}
    (invariant : TmInvariant nElem config)
    (step : TmStep sorting nElem roundTrip config label next) :
    TmInvariant nElem next := by
  obtain ⟨memory, control⟩ := config
  cases step with
  | @mk p act memory' process' moved =>
      simp only at moved ⊢
      have valid : (control p).Valid nElem := invariant.valid p
      generalize now : control p = process at moved valid
      cases moved with
      | tmStart indexed distinct =>
          apply invariant.moves (EMStmStart_valid bounded indexed distinct)
          intro name isReadOnly
          rw [now]
          rfl
      | acquire acquired => exact invariant.acquire now acquired
      | started =>
          apply invariant.moves
          · exact ⟨valid.indexed, valid.distinct, valid.sorted, valid.locks,
              fun _ => rfl,
              fun outside => nomatch outside⟩
          · intro name isReadOnly
            rw [now]
            rfl
      | tmEnd doCommit =>
          apply invariant.moves
          · exact ⟨valid.indexed, valid.distinct, valid.sorted, valid.locks,
              fun _ => rfl,
              fun outside => nomatch outside⟩
          · intro name isReadOnly
            rw [now]
            rfl
      | @release held handle doCommit element ended =>
          obtain ⟨element', ended', kept⟩ := invariant.release now
          rw [ended] at ended'
          obtain rfl := Option.some.inj ended'
          exact kept
      | ended =>
          apply invariant.moves
          · exact ⟨valid.indexed, valid.distinct, valid.sorted, valid.locks,
              fun _ => rfl,
              fun _ => rfl⟩
          · intro name isReadOnly
            rw [now]
            rfl

theorem initialTm_invariant {memory : TmMemory V}
    (full : ∀ name, (memory name).fe = .full ∧ (memory name).rw = 0) :
    TmInvariant nElem (initialTm N memory) := by
  constructor
  · intro p
    constructor
    · intro entry member
      cases member
    · exact List.nodup_nil
    · exact List.Pairwise.nil
    · intro lock member
      cases member
    · intro _
      rfl
    · intro _
      rfl
  · intro name
    have nobody : ∀ isReadOnly,
        tmHolders (initialTm N memory).control name isReadOnly = ∅ := by
      intro isReadOnly
      ext p
      simp [mem_tmHolders, initialTm, TmProcess.holds]
    exact .free (full name).1 (full name).2 (nobody false) (nobody true)

private theorem tm_invariant
    (bounded : ∀ regionN, nElem regionN ≤ MAX_ELEM_PER_REGION)
    {memory : TmMemory V}
    (full : ∀ name, (memory name).fe = .full ∧ (memory name).rw = 0)
    {config : TmConfig N V} {trace : List (Fin N × TmAct)}
    (run : Run (TmStep sorting nElem roundTrip)
      (initialTm N memory) trace config) :
    TmInvariant nElem config :=
  run.invariant (TmInvariant nElem)
    (fun _ _ _ holds step => holds.step bounded step)
    (initialTm_invariant full)

theorem TmInvariant.isolated {config : TmConfig N V}
    (invariant : TmInvariant nElem config) :
    Isolated config := by
  intro p q different name first second holdsP holdsQ
  have inP := mem_tmHolders.mpr holdsP
  have inQ := mem_tmHolders.mpr holdsQ
  cases invariant.owned name with
  | free _ _ noWriters noReaders =>
      cases first with
      | false => simp [noWriters] at inP
      | true => simp [noReaders] at inP
  | exclusive writer _ _ writers noReaders =>
      cases first with
      | true => simp [noReaders] at inP
      | false =>
          cases second with
          | true => simp [noReaders] at inQ
          | false =>
              simp only [writers, Finset.mem_singleton] at inP inQ
              exact absurd (inP.trans inQ.symm) different
  | shared _ _ _ noWriters =>
      constructor
      · cases first with
        | false => simp [noWriters] at inP
        | true => rfl
      · cases second with
        | false => simp [noWriters] at inQ
        | true => rfl

end Invariant

/-! ## Nobody waits for ever -/

section Deadlock

variable {N : Nat} {V : Type} {sorting : JsSort} {nElem : Nat → Nat}
  {roundTrip : V → V}

theorem Owned.blocked {element : LockElement V}
    {writers readers : Finset (Fin N)}
    (owned : Owned element writers readers) {lock : TmLock}
    (blocked : element.acquire lock = none) :
    ∃ q, q ∈ writers ∨ q ∈ readers := by
  cases owned with
  | free full count =>
      cases lock <;> simp [LockElement.acquire, full, count] at blocked
  | exclusive q _ _ writer =>
      refine ⟨q, .inl ?_⟩
      rw [writer]
      exact Finset.mem_singleton_self q
  | shared _ _ some =>
      obtain ⟨q, member⟩ := Finset.card_ne_zero.mp some
      exact ⟨q, .inr member⟩

/-- The process waits for a lock with this number. -/
def WaitsAt (config : TmConfig N V) (p : Fin N) (number : Float) : Prop :=
  ∃ entry lock pending, (config.control p).pending = (entry, lock) :: pending ∧
    entry.lockNumber = number

/-- The second process waits for a later lock than the first one. -/
def WaitsLater (config : TmConfig N V) (q p : Fin N) : Prop :=
  ∃ mine hers, WaitsAt config p mine ∧ WaitsAt config q hers ∧ mine < hers

theorem WaitsAt.unique {config : TmConfig N V} {p : Fin N}
    {first second : Float}
    (waits₁ : WaitsAt config p first) (waits₂ : WaitsAt config p second) :
    first = second := by
  obtain ⟨entry₁, lock₁, pending₁, first₁, rfl⟩ := waits₁
  obtain ⟨entry₂, lock₂, pending₂, first₂, rfl⟩ := waits₂
  rw [first₁] at first₂
  injection first₂ with head
  rw [(Prod.mk.inj head).1]

private theorem waitsLater_wellFounded (config : TmConfig N V) :
    WellFounded (WaitsLater config) := by
  have irreflexive : Std.Irrefl (WaitsLater config) := by
    constructor
    rintro p ⟨mine, hers, waitsMine, waitsHers, below⟩
    rw [waitsMine.unique waitsHers] at below
    exact Doubles.lt_irrefl _ below
  have transitive : IsTrans (Fin N) (WaitsLater config) := by
    constructor
    intro c b a later later'
    obtain ⟨numberB, numberC, waitsB, waitsC, below'⟩ := later
    obtain ⟨numberA, numberB', waitsA, waitsB', below⟩ := later'
    rw [waitsB'.unique waitsB] at below
    exact ⟨numberA, numberC, waitsA, waitsC, lt_trans below below'⟩
  exact Finite.wellFounded_of_trans_of_irrefl _

theorem holds_iff {process : TmProcess V} {name : Nat × ElementKey}
    {isReadOnly : Bool} :
    process.holds name isReadOnly = true ↔
      ∃ held ∈ process.handle, held.entry.element = name ∧
        held.entry.isReadOnly = isReadOnly := by
  simp [TmProcess.holds]

theorem TmInvariant.waits_later
    (bounded : ∀ regionN, nElem regionN ≤ MAX_ELEM_PER_REGION)
    {config : TmConfig N V} (invariant : TmInvariant nElem config) {p q : Fin N}
    {entry later : TmElement} {lock laterLock : TmLock}
    {pending rest : List (TmElement × TmLock)}
    (waits : (config.control p).pending = (entry, lock) :: pending)
    (waits' : (config.control q).pending = (later, laterLock) :: rest)
    {isReadOnly : Bool}
    (holds : (config.control q).holds entry.element isReadOnly = true) :
    WaitsLater config q p := by
  obtain ⟨held, member, named, -⟩ := holds_iff.mp holds
  refine ⟨_, _, ⟨entry, lock, pending, waits, rfl⟩,
    ⟨later, laterLock, rest, waits', rfl⟩, ?_⟩
  have inHandle : held.entry ∈ (config.control q).handle.map TmHeld.entry :=
    List.mem_map_of_mem member
  have inPending : later ∈ (config.control q).pending.map Prod.fst := by
    rw [waits']
    exact List.mem_cons_self ..
  have below : held.entry.lockNumber < later.lockNumber :=
    (List.pairwise_append.mp (invariant.valid q).sorted).2.2 _
      inHandle _ inPending
  have wanted : IsIndexed nElem entry := by
    apply (invariant.valid p).indexed
    simp [TmProcess.entries, waits]
  have taken : IsIndexed nElem held.entry :=
    (invariant.valid q).indexed _ (List.mem_append_left _ inHandle)
  have numbers := lockNumber_indexed bounded taken wanted
  rw [if_pos named] at numbers
  rwa [numbers] at below

theorem blocked_waits {memory : TmMemory V}
    {control : Fin N → TmProcess V} {p : Fin N}
    {entry : TmElement} {lock : TmLock} {pending : List (TmElement × TmLock)}
    {handle : List (TmHeld V)}
    (now : control p = ⟨.starting, (entry, lock) :: pending, handle⟩)
    (blocked : (memory entry.element).acquire lock = none) {act : TmAct}
    {next : TmConfig N V} :
    ¬ TmStep sorting nElem roundTrip (⟨memory, control⟩ : TmConfig N V)
      (p, act) next := by
  intro step
  cases step with
  | mk moved =>
      simp only [now] at moved
      cases moved with
      | acquire acquired =>
          rw [blocked] at acquired
          cases acquired

theorem can_step {memory memory' : TmMemory V}
    {control : Fin N → TmProcess V} {p : Fin N}
    {process process' : TmProcess V} {act : TmAct} (now : control p = process)
    (moved : TmProgram sorting nElem roundTrip p memory process act
      memory' process') :
    ∃ act next, TmStep sorting nElem roundTrip
      (⟨memory, control⟩ : TmConfig N V) (p, act) next := by
  subst now
  exact ⟨act, _, .mk moved⟩

theorem TmInvariant.moves_on {config : TmConfig N V}
    (invariant : TmInvariant nElem config)
    {p : Fin N} (unfinished : (config.control p).phase ≠ .outside)
    (nothing : (config.control p).pending = []) :
    ∃ act next, TmStep sorting nElem roundTrip config (p, act) next := by
  obtain ⟨memory, control⟩ := config
  simp only at unfinished nothing
  generalize now : control p = process at unfinished nothing
  obtain ⟨phase, pending, handle⟩ := process
  subst nothing
  cases phase with
  | outside => exact absurd rfl unfinished
  | starting => exact can_step now .started
  | inside => exact can_step now (.tmEnd true)
  | ending doCommit =>
      cases handle with
      | nil => exact can_step now .ended
      | cons held handle =>
          obtain ⟨element, ended, -⟩ := invariant.release now
          exact can_step now (.release ended)

/-- Of the processes that wait, one that waits for the last lock is not
blocked. -/
theorem TmInvariant.progresses
    (bounded : ∀ regionN, nElem regionN ≤ MAX_ELEM_PER_REGION)
    {config : TmConfig N V} (invariant : TmInvariant nElem config) :
    Progresses sorting nElem roundTrip config := by
  intro unfinished
  by_cases free : ∃ p, (config.control p).phase ≠ .outside ∧
    (config.control p).pending = []
  · obtain ⟨p, open_, nothing⟩ := free
    exact ⟨p, open_, invariant.moves_on open_ nothing⟩
  · push Not at free
    obtain ⟨some, open_⟩ := unfinished
    obtain ⟨p, openP, last⟩ := (waitsLater_wellFounded config).has_min
      {p | (config.control p).phase ≠ .outside} ⟨some, open_⟩
    refine ⟨p, openP, ?_⟩
    obtain ⟨⟨entry, lock⟩, pending, waits⟩ :=
      List.exists_cons_of_ne_nil (free p openP)
    have starting : (config.control p).phase = .starting := by
      by_contra other
      exact free p openP ((invariant.valid p).acquired other)
    cases acquired : (config.shared entry.element).acquire lock with
    | some element =>
        obtain ⟨memory, control⟩ := config
        simp only at waits starting
        generalize now : control p = process at waits starting
        obtain ⟨phase, pending', handle⟩ := process
        simp only at waits starting
        subst waits starting
        exact can_step now (.acquire acquired)
    | none =>
        obtain ⟨q, holder⟩ := (invariant.owned entry.element).blocked acquired
        obtain ⟨isReadOnly, holds⟩ :
            ∃ isReadOnly, (config.control q).holds entry.element
                isReadOnly = true := by
          rcases holder with writer | reader
          · exact ⟨false, mem_tmHolders.mp writer⟩
          · exact ⟨true, mem_tmHolders.mp reader⟩
        have openQ : (config.control q).phase ≠ .outside := by
          intro outside
          obtain ⟨held, member, -⟩ := holds_iff.mp holds
          rw [(invariant.valid q).released outside] at member
          cases member
        obtain ⟨⟨later, laterLock⟩, rest, waits'⟩ :=
          List.exists_cons_of_ne_nil (free q openQ)
        exact absurd (invariant.waits_later bounded waits waits' holds)
          (last q openQ)

/-- Transactions on indexed elements of arrays within the size that the order
of the locks allows for are isolated, and never all blocked. -/
theorem EMStm_isolated_and_live (sorting : JsSort) (roundTrip : V → V)
    {nElem : Nat → Nat}
    (bounded : ∀ regionN, nElem regionN ≤ MAX_ELEM_PER_REGION)
    {memory : TmMemory V}
    (full : ∀ name, (memory name).fe = .full ∧ (memory name).rw = 0)
    {config : TmConfig N V} {trace : List (Fin N × TmAct)}
    (run : Run (TmStep sorting nElem roundTrip)
      (initialTm N memory) trace config) :
    Isolated config ∧ Progresses sorting nElem roundTrip config :=
  have invariant := tm_invariant bounded full run
  ⟨invariant.isolated, invariant.progresses bounded⟩

theorem EMStmStart_eq (sorting : JsSort) (emsElems : List TmElement) :
    EMStmStart sorting emsElems =
      (lockedEntries sorting emsElems).map fun entry =>
      (entry, if entry.isReadOnly then .readRW else .readFE) := by
  simp [lockedEntries, EMStmStart, Function.comp_def]

theorem EMStmStart_pair (sorting : JsSort) {a b : TmElement}
    (consistent : Consistent lockOrder [a, b]) (kept : lockOrder a b ≠ .gt) :
    EMStmStart sorting [a, b] =
      [(a, if a.isReadOnly then .readRW else .readFE),
        (b, if b.isReadOnly then .readRW else .readFE)] := by
  rw [EMStmStart_eq, (lockedEntries_sorts sorting).pair consistent kept]
  rfl

theorem run_tm_snoc {start : TmConfig N V} {trace : List (Fin N × TmAct)}
    {memory memory' : TmMemory V} {control : Fin N → TmProcess V}
    {process process' : TmProcess V}
    {act : TmAct} (p : Fin N)
    (run : Run (TmStep sorting nElem roundTrip) start trace ⟨memory, control⟩)
    (now : control p = process)
    (moved : TmProgram sorting nElem roundTrip p memory process act
      memory' process') :
    Run (TmStep sorting nElem roundTrip) start (trace ++ [(p, act)])
      ⟨memory', Function.update control p process'⟩ := by
  subst now
  exact run.snoc (.mk moved)

/-- Three elements of an array, the last of them named read-only. -/
def firstOfThree : TmElement :=
  ⟨⟨0, false, [100]⟩, .number (Float.ofNat 1), false⟩

def secondOfThree : TmElement :=
  ⟨⟨0, false, [100]⟩, .number (Float.ofNat 3), false⟩

def thirdOfThree : TmElement :=
  ⟨⟨0, false, [100]⟩, .number (Float.ofNat 5), true⟩

private theorem three_indexed (nElem : Nat → Nat) (large : nElem 0 = 100) :
    ∀ entry ∈ [firstOfThree, secondOfThree, thirdOfThree],
      IsIndexed nElem entry := by
  have below : ∀ entry : TmElement, entry.array = ⟨0, false, [100]⟩ →
      (∃ idx : Nat, entry.index = .number (Float.ofNat idx) ∧ idx < 100) →
      IsIndexed nElem entry := by
    rintro entry array ⟨idx, named, small⟩
    refine ⟨by rw [array], idx, named, ?_, ?_⟩
    · rw [array, large]
      exact small
    · simp only [array, Nat.zero_mul]
      omega
  simp only [List.mem_cons, List.not_mem_nil, or_false,
    forall_eq_or_imp, forall_eq]
  exact ⟨below _ rfl ⟨1, rfl, by decide⟩, below _ rfl ⟨3, rfl, by decide⟩,
    below _ rfl ⟨5, rfl, by decide⟩⟩

/-- Process 0 is inside a transaction that holds one element exclusively and
one read-only.  Process 1 has locked an element of its own and waits for the
one that process 0 holds exclusively. -/
theorem EMStm_isolated_and_live_waiting :
    ∃ (trace : List (Fin 2 × TmAct)) (config : TmConfig 2 Unit),
      Run (TmStep mergeSortJs (fun _ => 100) id)
        (initialTm 2 (fun _ => ⟨.full, 0, ()⟩)) trace config ∧
        (config.control 0).phase = .inside ∧
        (config.control 0).holds secondOfThree.element false = true ∧
        (config.control 0).holds thirdOfThree.element true = true ∧
        (config.control 1).holds firstOfThree.element false = true ∧
        (∀ act next, ¬ TmStep mergeSortJs (fun _ => 100) id config
          (1, act) next) ∧
        Isolated config ∧ Progresses mergeSortJs (fun _ => 100) id config := by
  have indexed := three_indexed (fun _ => 100) rfl
  simp only [List.mem_cons, List.not_mem_nil, or_false, forall_eq_or_imp,
    forall_eq] at indexed
  obtain ⟨indexed₁, indexed₂, indexed₃⟩ := indexed
  have elements : firstOfThree.element ≠ secondOfThree.element ∧
      firstOfThree.element ≠ thirdOfThree.element ∧
      secondOfThree.element ≠ thirdOfThree.element := by
    decide +kernel
  obtain ⟨different₁₂, different₁₃, different₂₃⟩ := elements
  have first : EMStmStart mergeSortJs [secondOfThree, thirdOfThree] =
      [(secondOfThree, .readFE), (thirdOfThree, .readRW)] :=
    EMStmStart_pair mergeSortJs
      ⟨by decide +kernel, by decide +kernel, by decide +kernel⟩
        (by decide +kernel)
  have second : EMStmStart mergeSortJs [firstOfThree, secondOfThree] =
      [(firstOfThree, .readFE), (secondOfThree, .readFE)] :=
    EMStmStart_pair mergeSortJs
      ⟨by decide +kernel, by decide +kernel, by decide +kernel⟩
        (by decide +kernel)
  have run : Run (TmStep mergeSortJs (fun _ => 100) id)
      (initialTm 2 (fun _ => (⟨.full, 0, ()⟩ : LockElement Unit))) []
        (initialTm 2 _) := .nil
  have started := run_tm_snoc 0 run rfl (@TmProgram.tmStart _ _ _ _ _ _ _
    [secondOfThree, thirdOfThree] (by simpa using ⟨indexed₂, indexed₃⟩)
      (by simpa using different₂₃))
  rw [first] at started
  have locked := run_tm_snoc 0 started rfl (.acquire rfl)
  have shared := run_tm_snoc 0 locked rfl (.acquire (by
    rw [Function.update_of_ne different₂₃.symm]
    rfl))
  have inside := run_tm_snoc 0 shared rfl .started
  have other := run_tm_snoc 1 inside rfl (@TmProgram.tmStart _ _ _ _ _ _ _
    [firstOfThree, secondOfThree] (by simpa using ⟨indexed₁, indexed₂⟩)
      (by simpa using different₁₂))
  rw [second] at other
  have holds := run_tm_snoc 1 other rfl (.acquire (by
    rw [Function.update_of_ne different₁₃, Function.update_of_ne different₁₂]
    rfl))
  refine ⟨_, _, holds, rfl, ?_, ?_, ?_, ?_,
    EMStm_isolated_and_live mergeSortJs id (fun _ => by decide)
      (fun _ => ⟨rfl, rfl⟩) holds⟩
  · decide +kernel
  · decide +kernel
  · decide +kernel
  · intro act next
    apply blocked_waits rfl
    rw [Function.update_of_ne different₁₂.symm,
      Function.update_of_ne different₂₃,
      Function.update_self]
    rfl

/-- An element that an array has only if it is larger than the order of the
locks allows for, and the element of the next region with the same number. -/
def pastRegion : TmElement :=
  ⟨⟨0, false, [1]⟩, .number (Float.ofNat MAX_ELEM_PER_REGION), false⟩

def nextRegion : TmElement :=
  ⟨⟨1, false, [1]⟩, .number (Float.ofNat 0), false⟩

/-- The two are locked in the order in which they are named. -/
theorem EMStmStart_tied {a b : TmElement}
    (fromA : a = pastRegion ∨ a = nextRegion)
    (fromB : b = pastRegion ∨ b = nextRegion) :
    EMStmStart mergeSortJs [a, b] = [(a, .readFE), (b, .readFE)] := by
  have tied : ∀ x ∈ [pastRegion, nextRegion], ∀ y ∈ [pastRegion, nextRegion],
      lockOrder x y = .eq ∧ x.isReadOnly = false := by
    decide +kernel
  have inA : a ∈ [pastRegion, nextRegion] := by simpa using fromA
  have inB : b ∈ [pastRegion, nextRegion] := by simpa using fromB
  have known : ∀ x ∈ [a, b], x ∈ [pastRegion, nextRegion] := by
    simp only [List.mem_cons, List.not_mem_nil, or_false,
      forall_eq_or_imp, forall_eq]
    exact ⟨fromA, fromB⟩
  have consistent : Consistent lockOrder [a, b] := by
    constructor
    · intro x inX
      exact (tied x (known x inX) x (known x inX)).1
    · intro x inX y inY
      rw [(tied x (known x inX) y (known y inY)).1,
        (tied y (known y inY) x (known x inX)).1]
      rfl
    · intro x inX y inY z inZ _ _
      rw [(tied x (known x inX) z (known z inZ)).1]
      decide
  have kept : lockOrder a b ≠ .gt := by
    rw [(tied a inA b inB).1]
    decide
  rw [EMStmStart_pair mergeSortJs consistent kept]
  simp [(tied a inA b inB).2, (tied b inB a inA).2]

/-- With an array larger than the order of the locks allows for, two
transactions that name the two elements in opposite orders wait for each other
for ever. -/
theorem EMStm_deadlock :
    ∃ (trace : List (Fin 2 × TmAct)) (config : TmConfig 2 Unit),
      Run (TmStep mergeSortJs (fun _ => MAX_ELEM_PER_REGION + 1) id)
        (initialTm 2 (fun _ => ⟨.full, 0, ()⟩)) trace config ∧
      ¬ Progresses mergeSortJs (fun _ => MAX_ELEM_PER_REGION + 1) id
        config := by
  have indexed : ∀ entry, entry = pastRegion ∨ entry = nextRegion →
      IsIndexed (fun _ => MAX_ELEM_PER_REGION + 1) entry := by
    rintro entry (rfl | rfl)
    · exact ⟨rfl, MAX_ELEM_PER_REGION, rfl, by decide, by decide⟩
    · exact ⟨rfl, 0, rfl, by decide, by decide⟩
  have different : pastRegion.element ≠ nextRegion.element := by decide +kernel
  have first := EMStmStart_tied (.inl rfl) (.inr rfl)
  have second := EMStmStart_tied (.inr rfl) (.inl rfl)
  have run : Run (TmStep mergeSortJs (fun _ => MAX_ELEM_PER_REGION + 1) id)
      (initialTm 2 (fun _ => (⟨.full, 0, ()⟩ : LockElement Unit))) []
        (initialTm 2 _) := .nil
  have started :=
    run_tm_snoc 0 run rfl
      (@TmProgram.tmStart _ _ _ _ _ _ _ [pastRegion, nextRegion]
    (by simpa using indexed) (by simpa using different))
  have both :=
    run_tm_snoc 1 started rfl
      (@TmProgram.tmStart _ _ _ _ _ _ _ [nextRegion, pastRegion]
    (by simpa using ⟨indexed _ (.inr rfl), indexed _ (.inl rfl)⟩)
      (by simpa using different.symm))
  rw [first, second] at both
  have held := run_tm_snoc 0 both rfl (.acquire rfl)
  have crossed := run_tm_snoc 1 held rfl (.acquire (by
    rw [Function.update_of_ne different.symm]
    rfl))
  refine ⟨_, _, crossed, ?_⟩
  intro progresses
  obtain ⟨p, -, act, next, step⟩ := progresses ⟨0, by decide⟩
  match p with
  | 0 =>
      apply blocked_waits rfl _ step
      rw [Function.update_self]
      rfl
  | 1 =>
      apply blocked_waits rfl _ step
      rw [Function.update_of_ne different, Function.update_self]
      rfl

end Deadlock

end EMS
