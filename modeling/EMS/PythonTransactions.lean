import EMS.BulkSynchronous
import EMS.Transactions

/-!
# Transactions of Python

`tmStart` of the Python binding takes an entry with a third item for a read-only
one, whatever the item is, where `EMStmStart` of the JavaScript binding looks
whether it is true.  As long as nobody writes `False` there, the two agree, what
is not read-only is locked exclusively, and no increment of it is lost.
-/

namespace EMS

open Interleaving Sorting BulkSynchronous

/-! ## Entries and their locks -/

/-- `[array, index]` or `[array, index, isReadOnly]`. -/
structure PyTmEntry where
  array : PyArray
  index : PyKey
  isReadOnly : Option Bool

namespace PyTmEntry

/-- `len(elem) > 2` -/
def readonly (elem : PyTmEntry) : Bool := elem.isReadOnly.isSome

/-- What the order of the locks depends on. -/
def item (elem : PyTmEntry) : PyTmElement :=
  ⟨elem.array, elem.index, elem.readonly⟩

/-- The element that an entry names. -/
def element (elem : PyTmEntry) : Nat × ElementKey := elem.item.element

end PyTmEntry

def PyKey.toJs : PyKey → JsKey
  | .integer n => .number (Float.ofInt n)
  | .string text => .string text

/-- The same entry in JavaScript, of which `emsElems[e][2] === true` is
asked. -/
def PyTmEntry.toJs (dimStride : PyArray → List Nat) (elem : PyTmEntry) :
    TmElement :=
  ⟨⟨elem.array.created, elem.array.useMap, dimStride elem.array⟩,
    elem.index.toJs,
    elem.isReadOnly == some true⟩

/-- Start a transaction: the locks in the order in which they are acquired. -/
def tmStartLocks (emsElems : List PyTmEntry) : List (PyTmEntry × TmLock) :=
  let sortedElems :=
    emsElems.mergeSort fun a b => decide (getElemUID a.item ≤ getElemUID b.item)
  sortedElems.map fun elem => (elem, if elem.readonly then .readRW else .readFE)

theorem tmStartLocks_perm (emsElems : List PyTmEntry) :
    (tmStartLocks emsElems).Perm
      (emsElems.map fun elem =>
        (elem, if elem.readonly then .readRW else .readFE)) :=
  (List.mergeSort_perm emsElems _).map _

/-- Both languages lock the entries of the list in the same modes. -/
def SameModes (sorting : JsSort) (dimStride : PyArray → List Nat)
    (emsElems : List PyTmEntry) :
    Prop :=
  ((tmStartLocks emsElems).map fun lock => (lock.1.toJs dimStride, lock.2)).Perm
    (EMStmStart sorting (emsElems.map (PyTmEntry.toJs dimStride)))

/-- No entry says that it is not read-only. -/
def NoneFalse (emsElems : List PyTmEntry) : Prop :=
  ∀ elem ∈ emsElems, elem.isReadOnly ≠ some false

theorem sameModes_iff (sorting : JsSort) (dimStride : PyArray → List Nat)
    (emsElems : List PyTmEntry) : SameModes sorting dimStride emsElems ↔
      NoneFalse emsElems := by
  have python : ((tmStartLocks emsElems).map fun lock =>
      (lock.1.toJs dimStride, lock.2)).Perm
      (emsElems.map fun elem =>
        (elem.toJs dimStride, if elem.readonly then .readRW else .readFE)) := by
    have mapped := (tmStartLocks_perm emsElems).map fun lock =>
      (lock.1.toJs dimStride, lock.2)
    rwa [List.map_map] at mapped
  have javaScript : (EMStmStart sorting
      (emsElems.map (PyTmEntry.toJs dimStride))).Perm
      (emsElems.map fun elem => (elem.toJs dimStride,
        if (elem.toJs dimStride).isReadOnly then .readRW else .readFE)) := by
    have permuted : (lockedEntries sorting
        (emsElems.map (PyTmEntry.toJs dimStride))).Perm
        (emsElems.map (PyTmEntry.toJs dimStride)) :=
          (lockedEntries_sorts sorting).perm _
    have mapped := permuted.map fun entry : TmElement =>
      (entry, if entry.isReadOnly then TmLock.readRW else .readFE)
    rwa [List.map_map, ← EMStmStart_eq] at mapped
  constructor
  · intro same elem member marked
    have locked : (elem.toJs dimStride, TmLock.readRW) ∈
        emsElems.map fun elem =>
          (elem.toJs dimStride, if elem.readonly then TmLock.readRW
              else .readFE) := by
      refine List.mem_map.mpr ⟨elem, member, ?_⟩
      simp [PyTmEntry.readonly, marked]
    have both := (python.symm.trans (same.trans javaScript)).mem_iff.mp locked
    obtain ⟨other, -, equal⟩ := List.mem_map.mp both
    obtain ⟨entries, modes⟩ := Prod.mk.inj equal
    rw [entries] at modes
    simp [PyTmEntry.toJs, marked] at modes
  · intro noneFalse
    have modes : (emsElems.map fun elem =>
          (elem.toJs dimStride, if elem.readonly then TmLock.readRW
            else .readFE)) =
        emsElems.map fun elem => (elem.toJs dimStride,
          if (elem.toJs dimStride).isReadOnly then .readRW else .readFE) := by
      apply List.map_congr_left
      intro elem member
      have marked := noneFalse elem member
      cases third : elem.isReadOnly with
      | none => simp [PyTmEntry.readonly, PyTmEntry.toJs, third]
      | some isReadOnly =>
          cases isReadOnly with
          | false => exact absurd third marked
          | true => simp [PyTmEntry.readonly, PyTmEntry.toJs, third]
    exact (python.trans (.of_eq modes)).trans javaScript.symm

/-! ## Transactions that increment -/

/-- An entry of a handle: `[elem[0], elem[1], readonly, val]`. -/
structure PyHeld (V : Type) where
  elem : PyTmEntry
  readonly : Bool
  value : V

/-- What `tmEnd` does with an entry of the handle. -/
def tmEndLock {V : Type} (doCommit : Bool) (held : PyHeld V)
    (element : LockElement V) :
    Option (LockElement V) :=
  if doCommit then
    if held.readonly then element.releaseRW else some (element.setTag true)
  else
    if held.readonly then element.releaseRW else element.writeEF held.value

/-- A process, with what it has read inside of its transaction and the number of
transactions it has started. -/
structure PyTmProcess (V : Type) where
  phase : TmPhase
  pending : List (PyTmEntry × TmLock)
  handle : List (PyHeld V)
  temps : Nat × ElementKey → Option V
  started : Nat

/-- The elements, and the increments in effect on each.  An increment is named
by its process and the number of its transaction. -/
structure PyTmMemory (N : Nat) (V : Type) where
  elements : Nat × ElementKey → LockElement V
  increments : Nat × ElementKey → List (Fin N × Nat)

inductive PyTmAct where
  | tmStart (emsElems : List PyTmEntry)
  | acquire
  | started
  | read (name : Nat × ElementKey)
  | write (name : Nat × ElementKey)
  | tmEnd (doCommit : Bool)
  | release
  | ended

section Program

variable {N : Nat} {V : Type}

/-- The steps of one process.  Inside of its transaction it increments elements
that it has not marked as read-only, in two steps. -/
inductive PyTmProgram (increment : V → V) (p : Fin N) :
    PyTmMemory N V → PyTmProcess V → PyTmAct → PyTmMemory N V →
      PyTmProcess V → Prop where
  | tmStart {memory : PyTmMemory N V} {k : Nat} (emsElems : List PyTmEntry) :
      PyTmProgram increment p memory ⟨.outside, [], [], fun _ => none, k⟩
        (.tmStart emsElems)
        memory ⟨.starting, tmStartLocks emsElems, [], fun _ => none, k + 1⟩
  | acquire {memory : PyTmMemory N V} {elem : PyTmEntry} {lock : TmLock}
      {pending : List (PyTmEntry × TmLock)} {handle : List (PyHeld V)}
      {temps : Nat × ElementKey → Option V} {k : Nat}
      {element : LockElement V} :
      (memory.elements elem.element).acquire lock = some element →
      PyTmProgram increment p memory ⟨.starting, (elem, lock) :: pending,
        handle, temps, k⟩ .acquire
        { memory with elements :=
          Function.update memory.elements elem.element element }
        ⟨.starting, pending,
          handle ++ [⟨elem, elem.readonly,
            (memory.elements elem.element).value⟩], temps, k⟩
  | started {memory : PyTmMemory N V} {handle : List (PyHeld V)}
      {temps : Nat × ElementKey → Option V} {k : Nat} :
      PyTmProgram increment p memory ⟨.starting, [], handle, temps, k⟩ .started
        memory ⟨.inside, [], handle, temps, k⟩
  | read {memory : PyTmMemory N V} {handle : List (PyHeld V)}
      {temps : Nat × ElementKey → Option V} {k : Nat} {held : PyHeld V} :
      held ∈ handle → held.elem.isReadOnly ≠ some true →
      PyTmProgram increment p memory ⟨.inside, [], handle, temps, k⟩
        (.read held.elem.element)
        memory ⟨.inside, [], handle,
          Function.update temps held.elem.element
            (memory.elements held.elem.element).value, k⟩
  -- the tag keeps its full/empty state
  | write {memory : PyTmMemory N V} {handle : List (PyHeld V)}
      {temps : Nat × ElementKey → Option V} {k : Nat} {name : Nat × ElementKey}
      {value : V} :
      temps name = some value →
      PyTmProgram increment p memory ⟨.inside, [], handle, temps, k⟩
        (.write name)
        ⟨Function.update memory.elements name
            { memory.elements name with value := increment value },
          Function.update memory.increments name
            (memory.increments name ++ [(p, k)])⟩
        ⟨.inside, [], handle, Function.update temps name none, k⟩
  | tmEnd {memory : PyTmMemory N V} {handle : List (PyHeld V)}
      {temps : Nat × ElementKey → Option V} {k : Nat} (doCommit : Bool) :
      PyTmProgram increment p memory ⟨.inside, [], handle, temps, k⟩
        (.tmEnd doCommit)
        memory ⟨.ending doCommit, [], handle, fun _ => none, k⟩
  -- an abort takes back the increments of its own transaction
  | release {memory : PyTmMemory N V} {held : PyHeld V}
      {handle : List (PyHeld V)}
      {doCommit : Bool} {k : Nat} {element : LockElement V} :
      tmEndLock doCommit held (memory.elements held.elem.element) =
        some element →
      PyTmProgram increment p memory
        ⟨.ending doCommit, [], held :: handle, fun _ => none, k⟩ .release
        ⟨Function.update memory.elements held.elem.element element,
          if doCommit || held.readonly then memory.increments
          else Function.update memory.increments held.elem.element
            ((memory.increments held.elem.element).filter fun by_ =>
              by_ ≠ (p, k))⟩
        ⟨.ending doCommit, [], handle, fun _ => none, k⟩
  | ended {memory : PyTmMemory N V} {doCommit : Bool} {k : Nat} :
      PyTmProgram increment p memory ⟨.ending doCommit, [], [],
        fun _ => none, k⟩ .ended
        memory ⟨.outside, [], [], fun _ => none, k⟩

abbrev PyTmConfig (N : Nat) (V : Type) :=
  Config (Fin N) (PyTmMemory N V) (PyTmProcess V)

/-- Any process takes any of its steps. -/
def PyTmStep (increment : V → V) (config : PyTmConfig N V)
    (label : Fin N × PyTmAct)
    (next : PyTmConfig N V) : Prop :=
  Step (PyTmProgram increment) config label next

/-- As `PyTmStep`, where no transaction is started with an entry that says
`False`. -/
def MarkedStep (increment : V → V) (config : PyTmConfig N V)
    (label : Fin N × PyTmAct)
    (next : PyTmConfig N V) : Prop :=
  (∀ emsElems, label.2 = .tmStart emsElems → NoneFalse emsElems) ∧
    PyTmStep increment config label next

/-- Nobody has started a transaction yet. -/
def initialPyTm (N : Nat) (elements : Nat × ElementKey → LockElement V) :
    PyTmConfig N V :=
  ⟨⟨elements, fun _ => []⟩, fun _ => ⟨.outside, [], [], fun _ => none, 0⟩⟩

/-- Nobody else holds, in any mode, what a transaction holds and has not marked
as read-only. -/
def HoldsAlone (config : PyTmConfig N V) : Prop :=
  ∀ p q, p ≠ q → ∀ held ∈ (config.control p).handle,
    held.elem.isReadOnly ≠ some true →
    ∀ other ∈ (config.control q).handle, other.elem.element ≠ held.elem.element

/-- The value of each element is that of all the increments in effect on it. -/
def NoneLost (increment : V → V) (elements : Nat × ElementKey → LockElement V)
    (config : PyTmConfig N V) : Prop :=
  ∀ name, (config.shared.elements name).value =
    increment^[(config.shared.increments name).length] (elements name).value

end Program

/-! ## Who holds an element -/

section Holders

variable {N : Nat} {V : Type}

/-- How often the handle names the element, read-only or not. -/
def PyTmProcess.count (name : Nat × ElementKey) (readonly : Bool)
    (process : PyTmProcess V) : Nat :=
  process.handle.countP fun held => held.elem.element = name ∧
    held.readonly = readonly

/-- The tag of an element agrees with how often it is held. -/
inductive PyOwned (element : LockElement V) (writers readers : Nat) : Prop where
  | free : element.fe = .full → element.rw = 0 → writers = 0 → readers = 0 →
      PyOwned element writers readers
  | exclusive : element.fe = .empty → element.rw = 0 → writers = 1 →
      readers = 0 →
      PyOwned element writers readers
  | shared : element.fe = .rwLock → element.rw.val = readers → readers ≠ 0 →
      writers = 0 →
      PyOwned element writers readers

variable {element element' : LockElement V}
  {writers readers writers' readers' : Nat}

theorem PyOwned.acquire {readonly : Bool}
    (owned : PyOwned element writers readers)
    (acquired : element.acquire (if readonly then .readRW else .readFE) =
      some element')
    (moreWriters : writers' = writers + if readonly then 0 else 1)
    (moreReaders : readers' = readers + if readonly then 1 else 0) :
    PyOwned element' writers' readers' := by
  cases readonly with
  | false =>
      simp only [Bool.false_eq_true, if_false, LockElement.acquire,
        Option.ite_none_right_eq_some,
        Option.some.injEq] at acquired moreWriters moreReaders
      obtain ⟨full, rfl⟩ := acquired
      cases owned with
      | free _ count noWriters noReaders =>
          exact .exclusive rfl count (by omega) (by omega)
      | exclusive empty => simp [empty] at full
      | shared locked => simp [locked] at full
  | true =>
      simp only [if_true, LockElement.acquire, Option.ite_none_right_eq_some,
        Option.some.injEq] at acquired moreWriters moreReaders
      obtain ⟨⟨state, room⟩, rfl⟩ := acquired
      have next : (element.rw + 1).val = element.rw.val + 1 := by
        have below : element.rw.val < 7 := room
        have wraps : (element.rw + 1).val = (element.rw.val + 1) % 8 := rfl
        omega
      cases owned with
      | free full count noWriters noReaders =>
          refine .shared rfl (next.trans ?_) (by omega) (by omega)
          rw [count, moreReaders, noReaders]
          rfl
      | exclusive empty => simp [empty] at state
      | shared locked count some noWriters =>
          exact .shared rfl (next.trans (by omega)) (by omega) (by omega)

theorem PyOwned.release {doCommit : Bool} {held : PyHeld V}
    (owned : PyOwned element writers readers)
    (ended : tmEndLock doCommit held element = some element')
    (fewerWriters : writers = writers' + if held.readonly then 0 else 1)
    (fewerReaders : readers = readers' + if held.readonly then 1 else 0) :
    PyOwned element' writers' readers' := by
  cases mode : held.readonly with
  | false =>
      simp only [mode, Bool.false_eq_true,
        if_false] at ended fewerWriters fewerReaders
      cases owned with
      | free _ _ noWriters => omega
      | shared _ _ _ noWriters => omega
      | exclusive empty count writer noReaders =>
          cases doCommit with
          | true =>
              simp only [tmEndLock, mode, if_true, Bool.false_eq_true, if_false,
                Option.some.injEq] at ended
              subst ended
              exact .free rfl count (by omega) (by omega)
          | false =>
              simp only [tmEndLock, mode, Bool.false_eq_true, if_false,
                LockElement.writeEF, empty,
                if_true, Option.some.injEq] at ended
              subst ended
              exact .free rfl rfl (by omega) (by omega)
  | true =>
      simp only [mode, if_true] at fewerWriters fewerReaders
      have released : element.releaseRW = some element' := by
        simpa [tmEndLock, mode] using ended
      cases owned with
      | free _ _ _ noReaders => omega
      | exclusive _ _ _ noReaders => omega
      | shared locked count some noWriters =>
          have counted : element.rw ≠ 0 := by
            intro zero
            rw [zero] at count
            exact some count.symm
          have previous : (element.rw - 1).val = element.rw.val - 1 := by
            have positive : 1 ≤ element.rw := by
              rw [Fin.le_def]
              change 1 ≤ element.rw.val
              omega
            exact Fin.sub_val_of_le positive
          simp only [LockElement.releaseRW, locked, if_neg counted,
            Option.some.injEq] at released
          subst released
          by_cases last : element.rw - 1 = 0
          · have zero : (element.rw - 1).val = 0 := by
              rw [last]
              rfl
            exact .free (by simp [last]) last (by omega) (by omega)
          · have more : (element.rw - 1).val ≠ 0 :=
              fun zero => last (Fin.ext zero)
            refine .shared (by simp [last]) ?_ (by omega) (by omega)
            change (element.rw - 1).val = readers'
            omega

end Holders

/-! ## The invariant -/

section Invariant

variable {N : Nat} {V : Type} {increment : V → V}
  {elements : Nat × ElementKey → LockElement V}

/-- What holds of a process by itself. -/
structure PyTmProcess.Marked (process : PyTmProcess V) : Prop where
  locks : ∀ lock ∈ process.pending, lock.2 = if lock.1.readonly then .readRW
    else .readFE
  pending : ∀ lock ∈ process.pending, lock.1.isReadOnly ≠ some false
  handle : ∀ held ∈ process.handle, held.elem.isReadOnly ≠ some false
  modes : ∀ held ∈ process.handle, held.readonly = held.elem.readonly
  temps : ∀ name value, process.temps name = some value →
    process.phase = .inside ∧ 0 < process.count name false

/-- What the transactions hold, and what they have read and saved of it. -/
structure PyTmInvariant (increment : V → V)
    (elements : Nat × ElementKey → LockElement V)
    (config : PyTmConfig N V) : Prop where
  marked : ∀ p, (config.control p).Marked
  owned : ∀ name, PyOwned (config.shared.elements name)
    (tally (PyTmProcess.count name false) config.control)
    (tally (PyTmProcess.count name true) config.control)
  current : ∀ p name value, (config.control p).temps name = some value →
    (config.shared.elements name).value = value
  counted : NoneLost increment elements config
  saved : ∀ p, ∀ held ∈ (config.control p).handle, held.readonly = false →
    held.value = increment^[((config.shared.increments held.elem.element).filter
      fun by_ => by_ ≠ (p, (config.control p).started)).length]
      (elements held.elem.element).value
  recent : ∀ name q k, (q, k) ∈ config.shared.increments name →
    k ≤ (config.control q).started ∧
      (k = (config.control q).started → (config.control q).phase ≠ .starting)

variable {config : PyTmConfig N V} {p q : Fin N} {name : Nat × ElementKey}
  {held : PyHeld V}

theorem PyTmProcess.count_pos {process : PyTmProcess V}
    (member : held ∈ process.handle) :
    0 < process.count held.elem.element held.readonly :=
  List.countP_pos_iff.mpr ⟨held, member, by simp⟩

/-- An element that somebody holds exclusively is not held by anybody else. -/
theorem PyTmInvariant.alone
    (invariant : PyTmInvariant increment elements config)
    (exclusive : 0 < (config.control p).count name false) (different : p ≠ q)
    (readonly : Bool) :
    (config.control q).count name readonly = 0 := by
  have mine := le_tally (PyTmProcess.count name false) config.control p
  have reads := le_tally (PyTmProcess.count name true) config.control q
  have both :=
    add_le_tally (PyTmProcess.count name false) config.control different
  cases invariant.owned name with
  | free _ _ noWriters => omega
  | shared _ _ _ noWriters => omega
  | exclusive _ _ writer noReaders =>
      cases readonly with
      | false => omega
      | true => omega

/-- What is not marked as read-only is held exclusively. -/
theorem PyTmProcess.Marked.exclusive {process : PyTmProcess V}
    (marked : process.Marked)
    (member : held ∈ process.handle)
    (notTrue : held.elem.isReadOnly ≠ some true) :
    held.readonly = false := by
  have notFalse := marked.handle held member
  rw [marked.modes held member]
  cases third : held.elem.isReadOnly with
  | none => simp [PyTmEntry.readonly, third]
  | some isReadOnly =>
      cases isReadOnly with
      | false => exact absurd third notFalse
      | true => exact absurd third notTrue

theorem PyTmInvariant.holdsAlone
    (invariant : PyTmInvariant increment elements config) :
    HoldsAlone config := by
  intro p q different held member notTrue other otherMember same
  have exclusive := PyTmProcess.count_pos member
  rw [(invariant.marked p).exclusive member notTrue] at exclusive
  have nothing := invariant.alone exclusive different other.readonly
  have some := PyTmProcess.count_pos otherMember
  rw [same] at some
  omega

variable {memory : PyTmMemory N V} {control : Fin N → PyTmProcess V}
  {process : PyTmProcess V}
  {element : LockElement V}

/-- A process that changes its locks, or what it has read, but no value. -/
theorem PyTmInvariant.relocks
    (invariant : PyTmInvariant increment elements
      (⟨memory, control⟩ : PyTmConfig N V))
    (marked : process.Marked)
    (value : element.value = (memory.elements name).value)
    (owned : ∀ other, PyOwned
      (Function.update memory.elements name element other)
      (tally (PyTmProcess.count other false)
        (Function.update control p process))
      (tally (PyTmProcess.count other true)
        (Function.update control p process)))
    (current : ∀ other v, process.temps other = some v →
      (memory.elements other).value = v)
    (saved : ∀ held ∈ process.handle, held.readonly = false →
      held.value = increment^[((memory.increments held.elem.element).filter
        fun by_ => by_ ≠ (p, process.started)).length]
          (elements held.elem.element).value)
    (recent : ∀ other k, (p, k) ∈ memory.increments other →
      k ≤ process.started ∧ (k = process.started → process.phase ≠ .starting)) :
    PyTmInvariant increment elements
      (⟨{ memory with elements :=
        Function.update memory.elements name element },
        Function.update control p process⟩ : PyTmConfig N V) := by
  have values : ∀ other,
      (Function.update memory.elements name element other).value =
      (memory.elements other).value := by
    intro other
    by_cases same : other = name
    · subst same
      simpa using value
    · simp [same]
  constructor
  · intro q
    by_cases moved : q = p
    · subst moved
      simpa using marked
    · simpa [moved] using invariant.marked q
  · exact owned
  · intro q other v temp
    simp only [values]
    by_cases moved : q = p
    · subst moved
      exact current other v (by simpa using temp)
    · exact invariant.current q other v (by simpa [moved] using temp)
  · intro other
    exact (values other).trans (invariant.counted other)
  · intro q
    by_cases moved : q = p
    · subst moved
      simpa using saved
    · simpa [moved] using invariant.saved q
  · intro other q k applied
    by_cases moved : q = p
    · subst moved
      simpa using recent other k applied
    · simpa [moved] using invariant.recent other q k applied

/-- A process that moves and leaves the memory and its handle alone. -/
theorem PyTmInvariant.moves
    (invariant : PyTmInvariant increment elements
      (⟨memory, control⟩ : PyTmConfig N V))
    (marked : process.Marked) (sameHandle : process.handle = (control p).handle)
    (current : ∀ other v, process.temps other = some v →
      (memory.elements other).value = v)
    (saved : process.handle = [] ∨ process.started = (control p).started)
    (recent : ∀ other k, (p, k) ∈ memory.increments other →
      k ≤ process.started ∧ (k = process.started → process.phase ≠ .starting)) :
    PyTmInvariant increment elements
      (⟨memory, Function.update control p process⟩ : PyTmConfig N V) := by
  have same : ∀ other readonly, tally (PyTmProcess.count other readonly)
      (Function.update control p process) =
          tally (PyTmProcess.count other readonly) control := by
    intro other readonly
    apply tally_update_same
    rw [PyTmProcess.count, PyTmProcess.count, sameHandle]
  have relocked :=
    @PyTmInvariant.relocks N V increment elements p (0, .integer 0)
      memory control
    process (memory.elements (0, .integer 0)) invariant marked rfl
  rw [Function.update_eq_self] at relocked
  apply relocked
  · intro other
    rw [same, same]
    exact invariant.owned other
  · exact current
  · intro held member exclusive
    rcases saved with nothing | sameStarted
    · rw [nothing] at member
      cases member
    · rw [sameHandle] at member
      rw [sameStarted]
      exact invariant.saved p held member exclusive
  · exact recent

/-- A process that changes the value of an element that it holds exclusively. -/
theorem PyTmInvariant.rewrites {increments : List (Fin N × Nat)}
    (invariant : PyTmInvariant increment elements
      (⟨memory, control⟩ : PyTmConfig N V))
    (exclusive : 0 < (control p).count name false) (marked : process.Marked)
    (value : element.value = increment^[increments.length]
      (elements name).value)
    (owned : ∀ other, PyOwned
      (Function.update memory.elements name element other)
      (tally (PyTmProcess.count other false)
        (Function.update control p process))
      (tally (PyTmProcess.count other true)
        (Function.update control p process)))
    (current : ∀ other v, process.temps other = some v →
      other ≠ name ∧ (memory.elements other).value = v)
    (handle : ∀ held ∈ process.handle, held ∈ (control p).handle)
    (sameStarted : process.started = (control p).started)
    (others : increments.filter (fun by_ => by_ ≠ (p, process.started)) =
      (memory.increments name).filter fun by_ => by_ ≠ (p, process.started))
    (recent : ∀ q k, (q, k) ∈ increments → (q, k) ∈ memory.increments name ∨
      q = p ∧ k = process.started)
    (notStarting : process.phase ≠ .starting) :
    PyTmInvariant increment elements
      (⟨⟨Function.update memory.elements name element,
          Function.update memory.increments name increments⟩,
        Function.update control p process⟩ : PyTmConfig N V) := by
  have away : ∀ q, q ≠ p → ∀ readonly, (control q).count name readonly = 0 := by
    intro q different readonly
    exact invariant.alone exclusive (Ne.symm different) readonly
  constructor
  · intro q
    by_cases moved : q = p
    · subst moved
      simpa using marked
    · simpa [moved] using invariant.marked q
  · exact owned
  · intro q other v temp
    by_cases moved : q = p
    · subst moved
      obtain ⟨different, same⟩ := current other v (by simpa using temp)
      simpa [different] using same
    · have before : (control q).temps other = some v := by
        simpa [moved] using temp
      have different : other ≠ name := by
        intro same
        subst same
        have holds := ((invariant.marked q).temps other v before).2
        rw [away q moved false] at holds
        exact Nat.lt_irrefl _ holds
      simpa [different] using invariant.current q other v before
  · intro other
    by_cases same : other = name
    · subst same
      simpa using value
    · simpa [same] using invariant.counted other
  · intro q held member readonly
    by_cases moved : q = p
    · subst moved
      simp only [Function.update_self] at member ⊢
      have before := invariant.saved q held (handle held member) readonly
      by_cases same : held.elem.element = name
      · subst same
        rw [Function.update_self, others, sameStarted]
        exact before
      · rw [Function.update_of_ne same, sameStarted]
        exact before
    · simp only [ne_eq, moved, not_false_eq_true,
        Function.update_of_ne] at member ⊢
      have different : held.elem.element ≠ name := by
        intro same
        have holds := PyTmProcess.count_pos member
        rw [same, away q moved] at holds
        exact Nat.lt_irrefl _ holds
      rw [Function.update_of_ne different]
      exact invariant.saved q held member readonly
  · intro other q k applied
    have before : (q, k) ∈ memory.increments other ∨ q = p ∧
        k = process.started := by
      by_cases same : other = name
      · subst same
        exact recent q k (by simpa using applied)
      · exact .inl (by simpa [same] using applied)
    by_cases moved : q = p
    · subst moved
      simp only [Function.update_self]
      refine ⟨?_, fun _ => notStarting⟩
      rcases before with old | ⟨-, rfl⟩
      · rw [sameStarted]
        exact (invariant.recent other q k old).1
      · exact Nat.le_refl _
    · rcases before with old | ⟨same, -⟩
      · simpa [moved] using invariant.recent other q k old
      · exact absurd same moved

/-- The process that acquires a lock adds it to its handle. -/
theorem PyTmInvariant.acquire {elem : PyTmEntry} {lock : TmLock}
    {pending : List (PyTmEntry × TmLock)} {handle : List (PyHeld V)}
    {temps : Nat × ElementKey → Option V} {k : Nat}
    (invariant : PyTmInvariant increment elements
      (⟨memory, control⟩ : PyTmConfig N V))
    (here : control p = ⟨.starting, (elem, lock) :: pending, handle, temps, k⟩)
    (acquired : (memory.elements elem.element).acquire lock = some element) :
    PyTmInvariant increment elements
      (⟨{ memory with elements :=
        Function.update memory.elements elem.element element },
        Function.update control p ⟨.starting, pending,
          handle ++ [⟨elem, elem.readonly,
            (memory.elements elem.element).value⟩], temps, k⟩⟩ :
        PyTmConfig N V) := by
  have marked : (control p).Marked := invariant.marked p
  rw [here] at marked
  have noTemps : ∀ other value, temps other ≠ some value := by
    intro other value temp
    cases (marked.temps other value temp).1
  have mode : lock = if elem.readonly then .readRW else .readFE :=
    marked.locks _ (List.mem_cons_self ..)
  rw [mode] at acquired
  have counts : ∀ other readonly, PyTmProcess.count other readonly
      (⟨.starting, pending,
        handle ++ [⟨elem, elem.readonly, (memory.elements elem.element).value⟩],
        temps, k⟩ :
        PyTmProcess V) = (control p).count other readonly +
        if elem.element = other ∧ elem.readonly = readonly then 1 else 0 := by
    intro other readonly
    simp [PyTmProcess.count, here, List.countP_append, List.countP_singleton]
  have tallies : ∀ other readonly, tally (PyTmProcess.count other readonly)
      (Function.update control p ⟨.starting, pending,
        handle ++ [⟨elem, elem.readonly, (memory.elements elem.element).value⟩],
        temps, k⟩) =
      tally (PyTmProcess.count other readonly) control +
        if elem.element = other ∧ elem.readonly = readonly then 1 else 0 := by
    intro other readonly
    have updated := tally_update (PyTmProcess.count other readonly) control p
      ⟨.starting, pending,
        handle ++ [⟨elem, elem.readonly, (memory.elements elem.element).value⟩],
        temps, k⟩
    rw [counts] at updated
    omega
  apply invariant.relocks
  · refine ⟨fun later member => marked.locks later
      (List.mem_cons_of_mem _ member),
      fun later member => marked.pending later
        (List.mem_cons_of_mem _ member), ?_, ?_, ?_⟩
    · intro held member
      rcases List.mem_append.mp member with old | new
      · exact marked.handle held old
      · obtain rfl := List.mem_singleton.mp new
        exact marked.pending _ (List.mem_cons_self ..)
    · intro held member
      rcases List.mem_append.mp member with old | new
      · exact marked.modes held old
      · obtain rfl := List.mem_singleton.mp new
        rfl
    · intro other value temp
      exact absurd temp (noTemps other value)
  · cases readonly : elem.readonly with
    | false =>
        simp only [readonly, Bool.false_eq_true, if_false, LockElement.acquire,
          Option.ite_none_right_eq_some, Option.some.injEq] at acquired
        rw [← acquired.2]
    | true =>
        simp only [readonly, if_true, LockElement.acquire,
          Option.ite_none_right_eq_some,
          Option.some.injEq] at acquired
        rw [← acquired.2]
  · intro other
    have owned := invariant.owned other
    rw [tallies, tallies]
    by_cases same : other = elem.element
    · subst same
      rw [Function.update_self]
      apply owned.acquire acquired
      · cases elem.readonly <;> simp
      · cases elem.readonly <;> simp
    · have different : elem.element ≠ other := Ne.symm same
      simpa [same, different] using owned
  · intro other value temp
    exact absurd temp (noTemps other value)
  · intro held member exclusive
    rcases List.mem_append.mp member with old | new
    · have saved := invariant.saved p held
      simp only [here] at saved
      exact saved old exclusive
    · obtain rfl := List.mem_singleton.mp new
      have none : (memory.increments elem.element).filter
          (fun by_ => by_ ≠ (p, k)) =
          memory.increments elem.element := by
        apply List.filter_eq_self.mpr
        intro by_ applied
        rw [decide_eq_true_iff]
        rintro rfl
        have starting := (invariant.recent elem.element p k applied).2
        simp [here] at starting
      simp only [none]
      exact invariant.counted elem.element
  · intro other k' applied
    have recent := invariant.recent other p k' applied
    simp only [here] at recent
    exact recent

/-- An increment of an element that has not changed since it was read. -/
theorem PyTmInvariant.write {handle : List (PyHeld V)}
    {temps : Nat × ElementKey → Option V}
    {k : Nat} {value : V}
    (invariant : PyTmInvariant increment elements
      (⟨memory, control⟩ : PyTmConfig N V))
    (here : control p = ⟨.inside, [], handle, temps, k⟩)
    (temp : temps name = some value) :
    PyTmInvariant increment elements
      (⟨⟨Function.update memory.elements name
            { memory.elements name with value := increment value },
          Function.update memory.increments name
            (memory.increments name ++ [(p, k)])⟩,
        Function.update control p
          ⟨.inside, [], handle, Function.update temps name none, k⟩⟩ :
        PyTmConfig N V) := by
  have marked : (control p).Marked := invariant.marked p
  have current : ∀ other v, temps other = some v →
      (memory.elements other).value = v := by
    intro other v read
    apply invariant.current p other v
    simp only [here]
    exact read
  have later : ∀ other v, Function.update temps name none other = some v →
      other ≠ name ∧ temps other = some v := by
    intro other v read
    by_cases same : other = name
    · subst same
      simp at read
    · exact ⟨same, by simpa [same] using read⟩
  have exclusive : 0 < (control p).count name false := by
    apply (marked.temps name value _).2
    rw [here]
    exact temp
  rw [here] at marked
  have counts : ∀ other readonly, tally (PyTmProcess.count other readonly)
      (Function.update control p
        ⟨.inside, [], handle, Function.update temps name none, k⟩) =
      tally (PyTmProcess.count other readonly) control := by
    intro other readonly
    apply tally_update_same
    rw [here]
    rfl
  apply invariant.rewrites exclusive
  · refine ⟨marked.locks, marked.pending, marked.handle, marked.modes, ?_⟩
    intro other v read
    exact marked.temps other v (later other v read).2
  · have counted := invariant.counted name
    simp only at counted
    simp only [List.length_append, List.length_singleton,
      Function.iterate_succ_apply', ← counted,
      current name value temp]
  · intro other
    rw [counts, counts]
    have owned := invariant.owned other
    by_cases same : other = name
    · subst same
      rw [Function.update_self]
      cases owned with
      | free full count noWriters noReaders =>
          exact .free full count noWriters noReaders
      | exclusive empty count writer noReaders =>
          exact .exclusive empty count writer noReaders
      | shared locked count some noWriters =>
          exact .shared locked count some noWriters
    · rwa [Function.update_of_ne same]
  · intro other v read
    obtain ⟨different, before⟩ := later other v read
    exact ⟨different, current other v before⟩
  · rw [here]
    exact fun _ member => member
  · rw [here]
  · simp [List.filter_append]
  · intro q k' applied
    rcases List.mem_append.mp applied with old | new
    · exact .inl old
    · obtain ⟨rfl, rfl⟩ := Prod.mk.inj (List.mem_singleton.mp new)
      exact .inr ⟨rfl, rfl⟩
  · simp

/-- The process that gives an element back takes it from its handle. -/
theorem PyTmInvariant.release {held : PyHeld V} {handle : List (PyHeld V)}
    {doCommit : Bool}
    {k : Nat} (invariant : PyTmInvariant increment elements
      (⟨memory, control⟩ : PyTmConfig N V))
    (here : control p =
      ⟨.ending doCommit, [], held :: handle, fun _ => none, k⟩)
    (ended : tmEndLock doCommit held (memory.elements held.elem.element) =
      some element) :
    PyTmInvariant increment elements
      (⟨⟨Function.update memory.elements held.elem.element element,
          if doCommit || held.readonly then memory.increments
          else Function.update memory.increments held.elem.element
            ((memory.increments held.elem.element).filter fun by_ =>
              by_ ≠ (p, k))⟩,
        Function.update control p ⟨.ending doCommit, [], handle,
          fun _ => none, k⟩⟩ :
        PyTmConfig N V) := by
  have marked : (control p).Marked := invariant.marked p
  have exclusive : held.readonly = false →
      0 < (control p).count held.elem.element false := by
    intro mode
    have positive : 0 < (control p).count held.elem.element held.readonly :=
      PyTmProcess.count_pos (by simp [here])
    rwa [mode] at positive
  have saved := invariant.saved p
  simp only [here] at saved
  rw [here] at marked
  have stays : PyTmProcess.Marked
      (⟨.ending doCommit, [], handle, fun _ => none, k⟩ :
      PyTmProcess V) := by
    refine ⟨marked.locks, marked.pending, ?_, ?_, ?_⟩
    · intro other member
      exact marked.handle other (List.mem_cons_of_mem _ member)
    · intro other member
      exact marked.modes other (List.mem_cons_of_mem _ member)
    · intro other value temp
      cases temp
  have tallies : ∀ other readonly,
      tally (PyTmProcess.count other readonly) control =
      tally (PyTmProcess.count other readonly)
        (Function.update control p ⟨.ending doCommit, [], handle,
          fun _ => none, k⟩) +
        if held.elem.element = other ∧ held.readonly = readonly then 1
            else 0 := by
    intro other readonly
    have updated := tally_update (PyTmProcess.count other readonly) control p
      ⟨.ending doCommit, [], handle, fun _ => none, k⟩
    have counts : (control p).count other readonly =
        PyTmProcess.count other readonly
          (⟨.ending doCommit, [], handle, fun _ => none, k⟩ : PyTmProcess V) +
        if held.elem.element = other ∧ held.readonly = readonly then 1
            else 0 := by
      simp [PyTmProcess.count, here, List.countP_cons]
    omega
  have owned : ∀ other, PyOwned
      (Function.update memory.elements held.elem.element element other)
      (tally (PyTmProcess.count other false)
        (Function.update control p ⟨.ending doCommit, [], handle,
          fun _ => none, k⟩))
      (tally (PyTmProcess.count other true)
        (Function.update control p ⟨.ending doCommit, [], handle,
            fun _ => none, k⟩)) := by
    intro other
    have before : PyOwned (memory.elements other) _ _ := invariant.owned other
    rw [tallies other false, tallies other true] at before
    by_cases same : other = held.elem.element
    · subst same
      rw [Function.update_self]
      apply before.release ended
      · cases held.readonly <;> simp
      · cases held.readonly <;> simp
    · have different : held.elem.element ≠ other := Ne.symm same
      simpa [same, different] using before
  have recent : ∀ other k', (p, k') ∈ memory.increments other →
      k' ≤ k ∧ (k' = k → TmPhase.ending doCommit ≠ .starting) := by
    intro other k' applied
    have before := invariant.recent other p k' applied
    simp only [here] at before
    exact before
  cases rollsBack : doCommit || held.readonly with
  | true =>
      simp only [if_true]
      refine invariant.relocks stays ?_ owned ?_ ?_ recent
      · cases readonly : held.readonly with
        | true =>
            have released : (memory.elements held.elem.element).releaseRW =
                some element := by
              simpa [tmEndLock, readonly] using ended
            unfold LockElement.releaseRW at released
            split at released
            · split at released
              · rw [← Option.some.inj released]
              · rw [← Option.some.inj released]
            · cases released
            · rw [← Option.some.inj released]
        | false =>
            have commits : doCommit = true := by
              simpa [readonly] using rollsBack
            have full : (memory.elements held.elem.element).setTag true =
                element := by
              simpa [tmEndLock, readonly, commits] using ended
            rw [← full]
            rfl
      · intro other value temp
        cases temp
      · intro other member mode
        exact saved other (List.mem_cons_of_mem _ member) mode
  | false =>
      obtain ⟨aborts, mode⟩ : doCommit = false ∧ held.readonly = false := by
        simpa using rollsBack
      simp only [Bool.false_eq_true, if_false]
      refine invariant.rewrites (exclusive mode) stays ?_ owned ?_
        ?_ ?_ ?_ ?_ ?_
      · simp only [tmEndLock, aborts, mode, Bool.false_eq_true, if_false,
          LockElement.writeEF,
          Option.ite_none_right_eq_some, Option.some.injEq] at ended
        rw [← ended.2]
        exact saved held (List.mem_cons_self ..) mode
      · intro other value temp
        cases temp
      · rw [here]
        exact fun other member => List.mem_cons_of_mem _ member
      · rw [here]
      · simp [List.filter_filter]
      · intro q k' applied
        exact .inl (List.mem_filter.mp applied).1
      · simp

/-- Every step keeps the invariant. -/
theorem PyTmInvariant.step {next : PyTmConfig N V} {label : Fin N × PyTmAct}
    (invariant : PyTmInvariant increment elements config)
    (step : MarkedStep increment config label next) :
    PyTmInvariant increment elements next := by
  obtain ⟨noneFalse, step⟩ := step
  obtain ⟨memory, control⟩ := config
  cases step with
  | @mk p act memory' process' moved =>
      simp only at moved ⊢
      have marked : (control p).Marked := invariant.marked p
      have recent : ∀ other k, (p, k) ∈ memory.increments other →
          k ≤ (control p).started ∧
              (k = (control p).started → (control p).phase ≠ .starting) :=
        fun other k => invariant.recent other p k
      generalize here : control p = process at moved marked recent
      cases moved with
      | @tmStart k emsElems =>
          apply invariant.moves
          · have locked := tmStartLocks_perm emsElems
            refine ⟨?_, ?_, ?_, ?_, ?_⟩
            · intro lock member
              obtain ⟨elem, -, rfl⟩ :=
                List.mem_map.mp (locked.mem_iff.mp member)
              rfl
            · intro lock member
              obtain ⟨elem, inList, rfl⟩ :=
                List.mem_map.mp (locked.mem_iff.mp member)
              exact noneFalse emsElems rfl elem inList
            · intro held member
              cases member
            · intro held member
              cases member
            · intro name value temp
              cases temp
          · rw [here]
          · intro other v temp
            cases temp
          · exact .inl rfl
          · intro other k' applied
            have earlier := (recent other k' applied).1
            simp only at earlier ⊢
            omega
      | acquire acquired => exact invariant.acquire here acquired
      | @started handle temps k =>
          apply invariant.moves
          · refine ⟨marked.locks, marked.pending, marked.handle,
              marked.modes, ?_⟩
            intro name value temp
            cases (marked.temps name value temp).1
          · rw [here]
          · intro other v temp
            cases (marked.temps other v temp).1
          · rw [here]
            exact .inr rfl
          · intro other k' applied
            exact ⟨(recent other k' applied).1, fun _ => by simp⟩
      | @read handle temps k held member notTrue =>
          have exclusive := marked.exclusive member notTrue
          apply invariant.moves
          · refine ⟨marked.locks, marked.pending, marked.handle,
              marked.modes, ?_⟩
            intro name value temp
            by_cases same : name = held.elem.element
            · subst same
              refine ⟨rfl, ?_⟩
              rw [← exclusive]
              exact PyTmProcess.count_pos member
            · simp only [ne_eq, same, not_false_eq_true,
                Function.update_of_ne] at temp
              exact marked.temps name value temp
          · rw [here]
          · intro other v temp
            by_cases same : other = held.elem.element
            · subst same
              simpa using temp
            · simp only [ne_eq, same, not_false_eq_true,
                Function.update_of_ne] at temp
              apply invariant.current p other v
              simp only [here]
              exact temp
          · rw [here]
            exact .inr rfl
          · exact recent
      | write temp => exact invariant.write here temp
      | @tmEnd handle temps k doCommit =>
          apply invariant.moves
          · refine ⟨marked.locks, marked.pending, marked.handle,
              marked.modes, ?_⟩
            intro name value temp
            cases temp
          · rw [here]
          · intro other v temp
            cases temp
          · rw [here]
            exact .inr rfl
          · intro other k' applied
            exact ⟨(recent other k' applied).1, fun _ => by simp⟩
      | release ended => exact invariant.release here ended
      | @ended doCommit k =>
          apply invariant.moves
          · refine ⟨marked.locks, marked.pending, marked.handle,
              marked.modes, ?_⟩
            intro name value temp
            cases temp
          · rw [here]
          · intro other v temp
            cases temp
          · exact .inl rfl
          · intro other k' applied
            exact ⟨(recent other k' applied).1, fun _ => by simp⟩

theorem initialPyTm_invariant
    (full : ∀ name, (elements name).fe = .full ∧ (elements name).rw = 0) :
    PyTmInvariant increment elements (initialPyTm N elements) := by
  have nothing : ∀ name readonly, tally (PyTmProcess.count name readonly)
      (initialPyTm N elements).control = 0 := by
    intro name readonly
    apply tally_zero
    intro p
    rfl
  constructor
  · intro p
    refine ⟨?_, ?_, ?_, ?_, ?_⟩
    · intro lock member
      cases member
    · intro lock member
      cases member
    · intro held member
      cases member
    · intro held member
      cases member
    · intro name value temp
      cases temp
  · intro name
    exact .free (full name).1 (full name).2 (nothing name false)
      (nothing name true)
  · intro p name value temp
    cases temp
  · intro name
    rfl
  · intro p held member
    cases member
  · intro name q k applied
    cases applied

private theorem pyTm_invariant
    (full : ∀ name, (elements name).fe = .full ∧ (elements name).rw = 0)
    {trace : List (Fin N × PyTmAct)}
    (run : Run (MarkedStep increment) (initialPyTm N elements) trace config) :
    PyTmInvariant increment elements config :=
  run.invariant (PyTmInvariant increment elements)
    (fun _ _ _ holds step => holds.step step)
    (initialPyTm_invariant full)

/-- A list is locked in the modes of JavaScript exactly when none of its entries
says `False`.  As long as this is so, what is not marked as read-only is held
exclusively, and no increment is lost. -/
theorem tmStart_modes (increment : V → V) (sorting : JsSort)
    (dimStride : PyArray → List Nat)
    (full : ∀ name, (elements name).fe = .full ∧ (elements name).rw = 0) :
    (∀ emsElems, SameModes sorting dimStride emsElems ↔ NoneFalse emsElems) ∧
      ∀ trace config, Run (MarkedStep increment) (initialPyTm N elements)
        trace config →
        HoldsAlone config ∧ NoneLost increment elements config := by
  refine ⟨sameModes_iff sorting dimStride, ?_⟩
  intro trace config run
  have invariant := pyTm_invariant full run
  exact ⟨invariant.holdsAlone, invariant.counted⟩

theorem run_marked_snoc {start : PyTmConfig N V}
    {trace : List (Fin N × PyTmAct)}
    {memory memory' : PyTmMemory N V} {control : Fin N → PyTmProcess V}
    {process process' : PyTmProcess V} {act : PyTmAct} (p : Fin N)
    (run : Run (MarkedStep increment) start trace ⟨memory, control⟩)
    (here : control p = process)
    (marked : ∀ emsElems, act = .tmStart emsElems → NoneFalse emsElems)
    (moved : PyTmProgram increment p memory process act memory' process') :
    Run (MarkedStep increment) start (trace ++ [(p, act)])
      ⟨memory', Function.update control p process'⟩ := by
  subst here
  exact run.snoc ⟨marked, .mk moved⟩

/-- `[array, 0]` -/
def pyPlain : PyTmEntry := ⟨⟨0, 1, false⟩, .integer 0, none⟩

theorem pyPlain_locks : tmStartLocks [pyPlain] = [(pyPlain, .readFE)] := by
  simp [tmStartLocks, pyPlain, PyTmEntry.readonly]

/-- Process 0 has incremented the element in a transaction that it has
committed, and process 1 has incremented it in one that it is inside of. -/
theorem tmStart_modes_twice :
    ∃ (trace : List (Fin 2 × PyTmAct)) (config : PyTmConfig 2 Nat),
      Run (MarkedStep Nat.succ) (initialPyTm 2 fun _ => ⟨.full, 0, 0⟩)
        trace config ∧
        (config.control 0).phase = .outside ∧
          (config.control 1).phase = .inside ∧
        config.shared.increments pyPlain.element = [(0, 1), (1, 1)] ∧
        (config.shared.elements pyPlain.element).value = 2 ∧
        HoldsAlone config ∧
          NoneLost Nat.succ (fun _ => ⟨.full, 0, 0⟩) config := by
  have marked : ∀ emsElems, PyTmAct.tmStart [pyPlain] = .tmStart emsElems →
      NoneFalse emsElems := by
    rintro _ ⟨⟩
    simp [NoneFalse, pyPlain]
  have run : Run (MarkedStep Nat.succ)
      (initialPyTm 2 fun _ => (⟨.full, 0, 0⟩ : LockElement Nat)) []
        (initialPyTm 2 _) := .nil
  have first := run_marked_snoc 0 run rfl marked (.tmStart [pyPlain])
  rw [pyPlain_locks] at first
  have held := run_marked_snoc 0 first rfl (by simp) (.acquire rfl)
  have inside := run_marked_snoc 0 held rfl (by simp) .started
  have read := run_marked_snoc 0 inside rfl (by simp)
    (.read (List.mem_singleton_self _) (by decide))
  have written :=
    run_marked_snoc 0 read rfl (by simp) (.write (Function.update_self _ _ _))
  have ending := run_marked_snoc 0 written rfl (by simp) (.tmEnd true)
  have released := run_marked_snoc 0 ending rfl (by simp) (.release rfl)
  have ended := run_marked_snoc 0 released rfl (by simp) .ended
  have next := run_marked_snoc 1 ended rfl marked (.tmStart [pyPlain])
  rw [pyPlain_locks] at next
  have taken := run_marked_snoc 1 next rfl (by simp) (.acquire rfl)
  have begun := run_marked_snoc 1 taken rfl (by simp) .started
  have again := run_marked_snoc 1 begun rfl (by simp)
    (.read (List.mem_singleton_self _) (by decide))
  have twice :=
    run_marked_snoc 1 again rfl (by simp) (.write (Function.update_self _ _ _))
  exact ⟨_, _, twice, rfl, rfl, rfl, rfl,
    (tmStart_modes Nat.succ mergeSortJs (fun _ => [1]) (fun _ => ⟨rfl, rfl⟩)).2
      _ _ twice⟩

end Invariant

/-! ## An entry that says `False` -/

section Marks

variable {N : Nat} {V : Type} {increment : V → V}

theorem run_pyTm_snoc {start : PyTmConfig N V} {trace : List (Fin N × PyTmAct)}
    {memory memory' : PyTmMemory N V} {control : Fin N → PyTmProcess V}
    {process process' : PyTmProcess V} {act : PyTmAct} (p : Fin N)
    (run : Run (PyTmStep increment) start trace ⟨memory, control⟩)
    (here : control p = process)
    (moved : PyTmProgram increment p memory process act memory' process') :
    Run (PyTmStep increment) start (trace ++ [(p, act)])
      ⟨memory', Function.update control p process'⟩ := by
  subst here
  exact run.snoc (.mk moved)

/-- `[array, 0, False]` -/
def pyFalse : PyTmEntry := ⟨⟨0, 1, false⟩, .integer 0, some false⟩

/-- Two transactions hold an element that both mark with `False`, and both store
1 for their increment of 0. -/
theorem tmStart_false : ¬ ∀ trace (config : PyTmConfig 2 Nat),
    Run (PyTmStep Nat.succ) (initialPyTm 2 fun _ => ⟨.full, 0, 0⟩)
      trace config →
      HoldsAlone config ∧
        NoneLost Nat.succ (fun _ => ⟨.full, 0, 0⟩) config := by
  intro all
  have locks : tmStartLocks [pyFalse] = [(pyFalse, .readRW)] := by
    simp [tmStartLocks, pyFalse, PyTmEntry.readonly]
  have run : Run (PyTmStep Nat.succ)
      (initialPyTm 2 fun _ => (⟨.full, 0, 0⟩ : LockElement Nat)) []
      (initialPyTm 2 _) := .nil
  have first := run_pyTm_snoc 0 run rfl (.tmStart [pyFalse])
  have both := run_pyTm_snoc 1 first rfl (.tmStart [pyFalse])
  rw [locks] at both
  have held := run_pyTm_snoc 0 both rfl (.acquire rfl)
  have shared :=
    run_pyTm_snoc 1 held rfl
      (.acquire (by simp only [Function.update_self]; rfl))
  have started := run_pyTm_snoc 0 shared rfl .started
  have inside := run_pyTm_snoc 1 started rfl .started
  have read :=
    run_pyTm_snoc 0 inside rfl (.read (List.mem_singleton_self _) (by decide))
  have reads :=
    run_pyTm_snoc 1 read rfl (.read (List.mem_singleton_self _) (by decide))
  have written :=
    run_pyTm_snoc 0 reads rfl (.write (Function.update_self _ _ _))
  have twice :=
    run_pyTm_snoc 1 written rfl (.write (Function.update_self _ _ _))
  have lost := (all _ _ twice).2 pyFalse.element
  simp at lost

end Marks

end EMS
