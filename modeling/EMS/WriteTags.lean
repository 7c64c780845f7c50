import EMS.CasFrame
import EMS.ScalarAtomicity

/-!
# Writes beside tagged operations

`EMSwrite` loads the tag of an element, stores a value, and stores the tag it
has loaded with the type of the value.  Meanwhile other processes may take the
element from one state to another.  As long as the write loads the tag of an
element that is not busy, and nobody changes the tag before the write has
stored it, the state is what the operations of the others alone leave.
-/

namespace EMS

open SharedProgram Interleaving Protocol

/-! ## Operations on one element -/

/-- Full/empty state and number of readers of an element. -/
@[ext] structure Lock where
  fe : FE
  rw : Fin 8
  deriving DecidableEq

def lockOf (tag : Tag) : Lock := ⟨tag.fe, tag.rw⟩

inductive TagOp where
  | write (value : EMSvalueType)
  | readFE (stack : Tag)
  | writeEF (value : EMSvalueType)
  | readRW (stack : Tag)
  | releaseRW
  | faa (value : EMSvalueType)
  | cas (oldValue newValue : EMSvalueType)

inductive TagRes where
  | value (res : Except EMSError EMSvalueType)
  | written (res : Except EMSError Unit)
  | released (count : Int)
  deriving DecidableEq

namespace TagOp

def IsWrite : TagOp → Prop
  | write _ => True
  | _ => False

instance : (op : TagOp) → Decidable op.IsWrite
  | write _ => isTrue trivial
  | readFE _ | writeEF _ | readRW _ | releaseRW | faa _ | cas _ _ => isFalse id

/-- The operations as the source codes them, on one element of an unmapped
array. -/
def code [CRuntime] (n idx : Int) (op : TagOp) (patience : Nat) :
    EmsProg TagRes :=
  let array : EmsArray := ⟨n, false⟩
  let key := scalar .integer idx
  match op with
  | write value => .written <$> EMSwrite patience array key value
  | readFE stack => .value <$> EMSreadFE patience array stack key
  | writeEF value => .written <$> EMSwriteEF patience array key value
  | readRW stack => .value <$> EMSreadRW patience array stack key
  | releaseRW => .released <$> EMSreleaseRW patience array key
  | faa value => .value <$> EMSfaa patience array key value
  | cas oldValue newValue =>
      .value <$> EMScas patience array key oldValue newValue

/-! ### The specification -/

/-- The state in which the operation holds the element, if it can take it. -/
def holds : TagOp → Lock → Option Lock
  | readFE _, lock | faa _, lock | cas _ _, lock =>
      if lock.fe = .full then some ⟨.busy, lock.rw⟩ else none
  | writeEF _, lock => if lock.fe = .empty then some ⟨.busy, lock.rw⟩ else none
  | readRW _, lock =>
      if (lock.fe = .full ∨ lock.fe = .rwLock) ∧ lock.rw < 7 then
        some ⟨.busy, lock.rw + 1⟩
      else none
  | write _, _ | releaseRW, _ => none

/-- The state that the operation leaves when it gives the element up. -/
def leaves : TagOp → Lock → Lock
  | readFE _, held => ⟨.empty, held.rw⟩
  | writeEF _, _ | cas _ _, _ => ⟨.full, 0⟩
  | readRW _, held => ⟨.rwLock, held.rw⟩
  | faa _, held => ⟨.full, held.rw⟩
  | write _, held | releaseRW, held => held

end TagOp

def TagRes.isOk : TagRes → Prop
  | value (.ok _) | written (.ok _) => True
  | _ => False

/-- The operation has failed on the element it holds, which stays busy.  It has
not lost the element to somebody else. -/
def TagRes.Fails : TagRes → Prop
  | value (.error _) => True
  | written (.error error) => error ≠ .lostTagLock
  | _ => False

/-- What an operation alone does to the state of its element. -/
def TagOp.effect (op : TagOp) (lock next : Lock) (res : TagRes) : Prop :=
  match op with
  | .releaseRW =>
      if lock.fe = .rwLock ∧ lock.rw ≠ 0 then
        next = ⟨if lock.rw - 1 = 0 then .full else .rwLock, lock.rw - 1⟩ ∧
          res = .released (lock.rw - 1).val
      else lock.fe ≠ .busy ∧ next = lock ∧ res = .released (-1)
  | op => ∃ held, op.holds lock = some held ∧
      (res.isOk ∧ next = op.leaves held ∨ res.Fails ∧ next = held)

/-! ## The machine -/

/-- The store of a tag finds the state and the readers as it stores them, and no
other tag if the element is busy. -/
def Access.KeepsLock (cell : Cell) : Access → EmsBuf → Prop
  | .storeTag other tag, buf => other = cell →
      lockOf (buf.tag cell) = lockOf tag ∧ (tag.fe = .busy → buf.tag cell = tag)
  | _, _ => True

instance (cell : Cell) (act : Access) (buf : EmsBuf) :
    Decidable (act.KeepsLock cell buf) :=
  match act with
  | .storeTag _ _ => inferInstanceAs (Decidable (_ → _ ∧ _))
  | .load _ | .store _ _ | .loadTag _ | .casTag _ _ _ | .casMutex _ _ |
        .storeMutex _
  | .memAlloc _ | .memFree _ | .loadByte _ | .storeByte _ _ => isTrue trivial

/-- One process writes to the element, the others call the tagged operations on
it.  When `careful` is set, the writer only stores tags that keep the state. -/
def tagMachine [CRuntime] {ι : Type} (writer : ι) (careful : Bool)
    (n idx : Int) :
    Machine ι EmsBuf Access Reply TagOp TagRes where
  perform _ := Access.perform
  code _ op patience := op.code n idx patience
  admits p op _ := p = writer ↔ op.IsWrite
  permits p act buf :=
    careful = true → p = writer → act.KeepsLock (EMSdataCell idx) buf

section Decide

variable [CRuntime] {ι : Type} [DecidableEq ι] {writer : ι} {careful : Bool}
  {n idx : Int}

instance : ∀ p op memory,
    Decidable ((tagMachine writer careful n idx).admits p op memory) :=
  fun p op _ => inferInstanceAs (Decidable (p = writer ↔ op.IsWrite))

instance : ∀ p act memory,
    Decidable ((tagMachine writer careful n idx).permits p act memory) :=
  fun p act memory => inferInstanceAs (Decidable (careful = true → p = writer →
    act.KeepsLock (EMSdataCell idx) memory))

end Decide

abbrev TagLabel := Label Access Reply TagOp TagRes

abbrev TagEvent := AtomicObject.Event TagOp TagRes

/-- The calls and returns of the processes that do not write. -/
def tagEvent {ι : Type} [DecidableEq ι] (writer : ι) :
    ι × TagLabel → Option (ι × TagEvent)
  | (p, .call op) => if p = writer then none else some (p, .call op)
  | (_, .access _ _) => none
  | (p, .ret op res) => if p = writer then none else some (p, .ret op res)

/-- Events that the callers see. -/
def seenEvent {ι : Type} : ι × TagEvent → Option (ι × TagEvent)
  | (p, .call op) => some (p, .call op)
  | (_, .commit) => none
  | (p, .ret op res) => some (p, .ret op res)

/-! ### Writes that nobody disturbs -/

/-- The tag that a process has loaded and not yet stored. -/
def loadedTag (cell : Cell) (loaded : Option Tag) :
    (act : Access) → Reply act → Option Tag
  | .loadTag other, tag => if other = cell then loaded.or (some tag) else loaded
  | .storeTag other _, _ => if other = cell then none else loaded
  | _, _ => loaded

section Unraced

variable {ι : Type} [DecidableEq ι] (writer : ι) (cell : Cell)

/-- The tag that the writer has loaded and not yet stored, after a step. -/
def loadedAfter (loaded : Option Tag) : ι × TagLabel → Option Tag
  | (_, .call _) => loaded
  | (p, .access act reply) =>
      if p = writer then loadedTag cell loaded act reply else loaded
  | (p, .ret _ _) => if p = writer then none else loaded

/-- The writer loads no busy tag, and the others leave a tag as it is that the
writer is about to store. -/
def Considerate (loaded : Option Tag) : ι × TagLabel → Prop
  | (p, .access (.loadTag other) tag) =>
    p = writer → other = cell → tag.fe ≠ .busy
  | (p, .access (.storeTag other stored) _) =>
      p ≠ writer → other = cell → ∀ tag ∈ loaded, stored = tag
  | (p, .access (.casTag other old new) found) =>
      p ≠ writer → other = cell → ∀ tag ∈ loaded, old = found → new = tag
  | _ => True

/-- Every step of the trace is considerate. -/
def UnracedAfter (loaded : Option Tag) : List (ι × TagLabel) → Prop
  | [] => True
  | label :: trace =>
      Considerate writer cell loaded label ∧
        UnracedAfter (loadedAfter writer cell loaded label) trace

/-- Between the load of the tag by the writer and its store nobody changes the
tag, and the writer finds no busy one. -/
def Unraced (trace : List (ι × TagLabel)) : Prop :=
  UnracedAfter writer cell none trace

instance (loaded : Option Tag) :
    (label : ι × TagLabel) → Decidable (Considerate writer cell loaded label)
  | (_, .access (.loadTag _) _) => inferInstanceAs (Decidable (_ → _ → _))
  | (_, .access (.storeTag _ _) _) => inferInstanceAs (Decidable (_ → _ → _))
  | (_, .access (.casTag _ _ _) _) => inferInstanceAs (Decidable (_ → _ → _))
  | (_, .access (.load _) _) | (_, .access (.store _ _) _)
  | (_, .access (.casMutex _ _) _) | (_, .access (.storeMutex _) _)
  | (_, .access (.memAlloc _) _) | (_, .access (.memFree _) _)
  | (_, .access (.loadByte _) _) | (_, .access (.storeByte _ _) _)
  | (_, .call _) | (_, .ret _ _) => isTrue trivial

instance : (loaded : Option Tag) → (trace : List (ι × TagLabel)) →
    Decidable (UnracedAfter writer cell loaded trace)
  | _, [] => isTrue trivial
  | loaded, label :: trace =>
      have :=
        instDecidableUnracedAfter (loadedAfter writer cell loaded label) trace
      inferInstanceAs (Decidable (_ ∧ _))

instance (trace : List (ι × TagLabel)) :
    Decidable (Unraced writer cell trace) :=
  inferInstanceAs (Decidable (UnracedAfter writer cell none trace))

end Unraced

/-- In every run the operations of the others take effect one after the other,
as they do without the writer; when all calls have returned, the element is in
the state that they leave; and no step of the writer changes that state.  When
`careful` is set, this is said of the runs in which nobody disturbs the
writer. -/
def WriteKeepsState [CRuntime] {ι : Type} [DecidableEq ι] (careful : Bool)
    (writer : ι)
    (n idx : Int) (buf : EmsBuf) : Prop :=
  ∀ (trace : List (ι × TagLabel))
    (final : (tagMachine writer false n idx).State),
    Run (tagMachine writer false n idx).Step
      ((tagMachine writer false n idx).start buf)
      trace final →
    (careful = true → Unraced writer (EMSdataCell idx) trace) →
    (∃ events spec, Run (AtomicObject.Step TagOp.effect)
        (AtomicObject.initial (lockOf (buf.tag (EMSdataCell idx))))
          events spec ∧
      events.filterMap seenEvent = trace.filterMap (tagEvent writer) ∧
      ((∀ p, final.control p = .idle) →
        lockOf (final.shared.tag (EMSdataCell idx)) = spec.object)) ∧
    ∀ label next, (tagMachine writer false n idx).Step final
      (writer, label) next →
      lockOf (next.shared.tag (EMSdataCell idx)) =
        lockOf (final.shared.tag (EMSdataCell idx))

/-! ## The protocol -/

section Protocol

variable {ι : Type} [DecidableEq ι] {writer : ι} {cell : Cell}

/-- Who holds the element, and the state of the object that the others use. -/
structure TagGhost (ι : Type) where
  holder : Option ι
  spec : AtomicObject.State ι Lock TagOp TagRes

/-- The moves of a process on the tag of the element. -/
inductive TagMove (writer : ι) (cell : Cell) (p : ι) :
    TagLabel → TagGhost ι × EmsBuf → TagGhost ι × EmsBuf → Prop where
  | own {label : TagLabel} {ghost : TagGhost ι} {buf : EmsBuf} :
      p = writer → (∀ act reply, label ≠ .access act reply) →
      TagMove writer cell p label (ghost, buf) (ghost, buf)
  | call {ghost : TagGhost ι} {buf : EmsBuf} (op : TagOp) :
      p ≠ writer → ghost.spec.phase p = .idle →
      TagMove writer cell p (.call op) (ghost, buf)
        ({ ghost with spec := ghost.spec.setPhase p (.pending op) }, buf)
  | quiet {ghost : TagGhost ι} {buf buf' : EmsBuf} {act : Access}
      {reply : Reply act} :
      buf'.tag cell = buf.tag cell →
      TagMove writer cell p (.access act reply) (ghost, buf) (ghost, buf')
  | retype {ghost : TagGhost ι} {buf buf' : EmsBuf} {act : Access}
      {reply : Reply act} :
      p = writer → lockOf (buf'.tag cell) = lockOf (buf.tag cell) →
      (buf.tag cell).fe ≠ .busy →
      TagMove writer cell p (.access act reply) (ghost, buf) (ghost, buf')
  | acquire {ghost : TagGhost ι} {buf : EmsBuf} {op : TagOp} {tag : Tag} :
      p ≠ writer → ghost.spec.phase p = .pending op →
      op.holds (lockOf (buf.tag cell)) = some (lockOf tag) →
      TagMove writer cell p
        (.access (.casTag cell (buf.tag cell) tag) (buf.tag cell)) (ghost, buf)
        ({ ghost with holder := some p }, buf.setTag cell tag)
  | release {ghost : TagGhost ι} {buf : EmsBuf} {op : TagOp} {res : TagRes}
      {tag : Tag} :
      ghost.holder = some p → ghost.spec.phase p = .pending op → res.isOk →
      lockOf tag = op.leaves (lockOf (buf.tag cell)) →
      TagMove writer cell p (.access (.storeTag cell tag) ()) (ghost, buf)
        (⟨none, { ghost.spec with object := lockOf tag }.setPhase p
          (.done op res)⟩,
          buf.setTag cell tag)
  | count {ghost : TagGhost ι} {buf buf' : EmsBuf} {act : Access}
      {reply : Reply act}
      {res : TagRes} :
      p ≠ writer → ghost.spec.phase p = .pending .releaseRW →
        (buf.tag cell).fe ≠ .busy →
      TagOp.releaseRW.effect (lockOf (buf.tag cell))
        (lockOf (buf'.tag cell)) res →
      TagMove writer cell p (.access act reply) (ghost, buf)
        ({ ghost with
          spec :=
            { ghost.spec with object := lockOf (buf'.tag cell) }.setPhase p
            (.done .releaseRW res) }, buf')
  | fail {ghost : TagGhost ι} {buf : EmsBuf} {op : TagOp} {res : TagRes} :
      p ≠ writer → ghost.holder = some p → ghost.spec.phase p =
        .pending op → res.Fails →
      TagMove writer cell p (.ret op res) (ghost, buf)
        (⟨none, { ghost.spec with object := lockOf (buf.tag cell) }.setPhase p
          .idle⟩, buf)
  | ret {ghost : TagGhost ι} {buf : EmsBuf} {op : TagOp} {res : TagRes} :
      p ≠ writer → ghost.spec.phase p = .done op res →
      TagMove writer cell p (.ret op res) (ghost, buf)
        ({ ghost with spec := ghost.spec.setPhase p .idle }, buf)

/-- The element is as its holder has made it, or as the object says. -/
def TagInv (writer : ι) (cell : Cell) (state : TagGhost ι × EmsBuf) : Prop :=
  match state.1.holder with
  | some p => p ≠ writer ∧ ∃ op, state.1.spec.phase p = .pending op ∧
      op.holds state.1.spec.object = some (lockOf (state.2.tag cell))
  | none => lockOf (state.2.tag cell) = state.1.spec.object

/-- An operation takes an element that is not busy, and makes it busy. -/
theorem TagOp.holds_busy {op : TagOp} {lock held : Lock}
    (takes : op.holds lock = some held) :
    lock.fe ≠ .busy ∧ held.fe = .busy := by
  cases op with
  | write | releaseRW => cases takes
  | readFE | faa | cas | writeEF =>
      simp only [TagOp.holds, Option.ite_none_right_eq_some,
        Option.some.injEq] at takes
      obtain ⟨state, rfl⟩ := takes
      simp [state]
  | readRW =>
      simp only [TagOp.holds, Option.ite_none_right_eq_some,
        Option.some.injEq] at takes
      obtain ⟨⟨state, -⟩, rfl⟩ := takes
      rcases state with state | state <;> simp [state]

omit [DecidableEq ι] in
theorem TagInv.busy {state : TagGhost ι × EmsBuf} {p : ι}
    (inv : TagInv writer cell state)
    (held : state.1.holder = some p) : (state.2.tag cell).fe = .busy := by
  rw [TagInv, held] at inv
  obtain ⟨-, op, -, takes⟩ := inv
  exact (TagOp.holds_busy takes).2

omit [DecidableEq ι] in
theorem TagInv.free {state : TagGhost ι × EmsBuf}
    (inv : TagInv writer cell state)
    (notBusy : (state.2.tag cell).fe ≠ .busy) :
    state.1.holder = none ∧ lockOf (state.2.tag cell) =
      state.1.spec.object := by
  cases holder : state.1.holder with
  | some p => exact absurd (inv.busy holder) notBusy
  | none =>
      rw [TagInv, holder] at inv
      exact ⟨rfl, inv⟩

/-- A process that is not pending holds nothing, so its phase does not
matter. -/
theorem TagInv.setPhase {ghost : TagGhost ι} {buf : EmsBuf} {p : ι}
    {phase : AtomicObject.Phase TagOp TagRes}
    (inv : TagInv writer cell (ghost, buf))
    (other : ∀ op, ghost.spec.phase p ≠ .pending op) :
    TagInv writer cell
      ({ ghost with spec := ghost.spec.setPhase p phase }, buf) := by
  unfold TagInv at inv ⊢
  simp only at inv ⊢
  cases holder : ghost.holder with
  | none => simpa [holder] using inv
  | some q =>
      rw [holder] at inv
      obtain ⟨isOther, op, pending, takes⟩ := inv
      have different : q ≠ p := by
        rintro rfl
        exact other op pending
      exact ⟨isOther, op,
        (AtomicObject.State.setPhase_other _ different _).trans pending, takes⟩

theorem TagInv.move {p : ι} {label : TagLabel}
    {state next : TagGhost ι × EmsBuf}
    (inv : TagInv writer cell state)
    (move : TagMove writer cell p label state next) :
    TagInv writer cell next := by
  cases move with
  | own isWriter noAccess => exact inv
  | call op other idle =>
      apply inv.setPhase
      intro op' pending
      rw [idle] at pending
      cases pending
  | quiet same =>
      unfold TagInv at inv ⊢
      simpa only [same] using inv
  | retype isWriter same notBusy =>
      unfold TagInv at inv ⊢
      simpa only [same] using inv
  | @acquire ghost buf op tag other pending takes =>
      obtain ⟨-, object⟩ := inv.free (TagOp.holds_busy takes).1
      refine ⟨other, op, pending, ?_⟩
      simp only at object ⊢
      rw [← object, takes]
      simp
  | release held pending ok left => simp [TagInv]
  | @count ghost buf buf' act reply res other pending notBusy effect =>
      obtain ⟨unheld, -⟩ := inv.free notBusy
      simp only at unheld
      simp [TagInv, unheld]
  | fail other held pending fails => simp [TagInv]
  | ret other done =>
      apply inv.setPhase
      intro op' pending
      rw [done] at pending
      cases pending

variable (writer cell) in
def tagProtocol : Protocol ι EmsBuf Access Reply TagOp TagRes (TagGhost ι) where
  move := TagMove writer cell
  inv := TagInv writer cell
  keeps := TagInv.move

/-! ### Assertions of a process that does not write -/

section Assertions

variable {p : ι} {op : TagOp} {res : TagRes} {tag : Tag}

structure TagPending (p : ι) (op : TagOp)
    (state : TagGhost ι × EmsBuf) : Prop where
  pending : state.1.spec.phase p = .pending op
  unheld : state.1.holder ≠ some p

structure TagHeld (cell : Cell) (p : ι) (op : TagOp) (tag : Tag)
    (state : TagGhost ι × EmsBuf) :
    Prop where
  pending : state.1.spec.phase p = .pending op
  held : state.1.holder = some p
  tag_eq : state.2.tag cell = tag

structure TagDone (p : ι) (op : TagOp) (res : TagRes)
    (state : TagGhost ι × EmsBuf) : Prop where
  done : state.1.spec.phase p = .done op res
  unheld : state.1.holder ≠ some p

structure TagIdle (p : ι) (state : TagGhost ι × EmsBuf) : Prop where
  idle : state.1.spec.phase p = .idle
  unheld : state.1.holder ≠ some p

theorem TagMove.phase_other {q : ι} {label : TagLabel}
    {state next : TagGhost ι × EmsBuf}
    (different : q ≠ p) (move : TagMove writer cell q label state next) :
    next.1.spec.phase p = state.1.spec.phase p := by
  cases move with
  | own | quiet | retype | acquire => rfl
  | call | release | count | fail | ret =>
      exact AtomicObject.State.setPhase_other _ different.symm _

theorem TagMove.holder_other {q : ι} {label : TagLabel}
    {state next : TagGhost ι × EmsBuf}
    (different : q ≠ p) (inv : TagInv writer cell state)
    (move : TagMove writer cell q label state next) :
    next.1.holder = some p ↔ state.1.holder = some p := by
  cases move with
  | own | quiet | retype | call | count | ret => exact Iff.rfl
  | @acquire ghost buf op tag other pending takes =>
      have unheld : ghost.holder = none :=
        (inv.free (TagOp.holds_busy takes).1).1
      simp [unheld, different]
  | release held | fail other held => simp [held, different]

theorem TagMove.tag_held {q : ι} {label : TagLabel}
    {state next : TagGhost ι × EmsBuf}
    (different : q ≠ p) (inv : TagInv writer cell state)
    (held : state.1.holder = some p)
    (move : TagMove writer cell q label state next) :
    next.2.tag cell = state.2.tag cell := by
  have busy := inv.busy held
  cases move with
  | own | call | fail | ret => rfl
  | quiet same => exact same
  | retype isWriter same notBusy => exact absurd busy notBusy
  | acquire other pending takes => exact absurd busy (TagOp.holds_busy takes).1
  | release held' =>
      exact absurd (Option.some.inj (held'.symm.trans held)) different
  | count other pending notBusy => exact absurd busy notBusy

theorem TagPending.stable :
    (tagProtocol writer cell).Stable p (TagPending p op) := by
  intro q label state next different inv holds move
  exact ⟨(move.phase_other different).trans holds.pending,
    fun held => holds.unheld ((move.holder_other different inv).mp held)⟩

theorem TagDone.stable :
    (tagProtocol writer cell).Stable p (TagDone p op res) := by
  intro q label state next different inv holds move
  exact ⟨(move.phase_other different).trans holds.done,
    fun held => holds.unheld ((move.holder_other different inv).mp held)⟩

theorem TagIdle.stable : (tagProtocol writer cell).Stable p (TagIdle p) := by
  intro q label state next different inv holds move
  exact ⟨(move.phase_other different).trans holds.idle,
    fun held => holds.unheld ((move.holder_other different inv).mp held)⟩

theorem TagHeld.stable :
    (tagProtocol writer cell).Stable p (TagHeld cell p op tag) := by
  intro q label state next different inv holds move
  exact ⟨(move.phase_other different).trans holds.pending,
    (move.holder_other different inv).mpr holds.held,
    (move.tag_held different inv holds.held).trans holds.tag_eq⟩

/-- The operation has taken effect, or has failed on the element it holds. -/
def TagPost (cell : Cell) (p : ι) (op : TagOp) (res : TagRes)
    (state : TagGhost ι × EmsBuf) : Prop :=
  TagDone p op res state ∨ res.Fails ∧ ∃ tag, TagHeld cell p op tag state

theorem TagPost.stable :
    (tagProtocol writer cell).Stable p (TagPost cell p op res) := by
  intro q label state next different inv holds move
  rcases holds with done | ⟨fails, tag, held⟩
  · exact .inl (TagDone.stable different inv done move)
  · exact .inr ⟨fails, tag, TagHeld.stable different inv held move⟩

end Assertions

/-! ### Values of writes -/

section Values

variable {tags words : Cell → Prop} {idx : Int} {value : EMSvalueType}
  {patience : Nat}

theorem storeValue_confined (may : words (EMSdataCell idx)) :
    Confined tags words (storeValue patience idx value) := by
  rw [storeValue]
  cases value.type with
  | boolean | integer | float | undefined => exact confined_store may trivial
  | json | string =>
      apply alloc_confined.bind
      intro textOffset
      split
      · trivial
      · exact confined_store may (copyToHeap_confined.bind fun _ => trivial)
  | invalid | unassigned => trivial

private theorem storeValue_answers :
    (storeValue patience idx value).Answers fun stored =>
      stored ≠ .error .lostTagLock := by
  have stored : (Except.ok () : Except EMSError Unit) ≠
    .error .lostTagLock := by simp
  rw [storeValue]
  cases value.type with
  | boolean | integer | float | undefined => exact fun _ => stored
  | json | string =>
      apply Prog.Answers.bind Prog.answers_true
      intro textOffset _
      split
      · simp [Prog.Answers]
      · apply Prog.answers_perform
        intro _
        exact Prog.Answers.bind Prog.answers_true fun _ _ => stored
  | invalid | unassigned => simp [Prog.Answers]

end Values

/-! ### Accesses within the protocol -/

section Accesses

variable [CRuntime] {n idx : Int} {p : ι} {op : TagOp} {res : TagRes}
  {tag : Tag} {α : Type}
  {pre : TagGhost ι × EmsBuf → Prop} {post : α → TagGhost ι × EmsBuf → Prop}

variable (writer n idx) in
/-- Triples of the protocol, on the machine whose assertions wait for ever. -/
abbrev TagTriple (p : ι) (pre : TagGhost ι × EmsBuf → Prop) (prog : EmsProg α)
    (post : α → TagGhost ι × EmsBuf → Prop) : Prop :=
  (tagProtocol writer (EMSdataCell idx)).Triple
    (tagMachine writer true n idx).lenient p pre prog
    post

theorem TagTriple.quiet {act : Access} {rest : Reply act → EmsProg α}
    (stable : (tagProtocol writer (EMSdataCell idx)).Stable p pre)
    (keeps : ∀ buf, (act.perform buf).2 = buf)
    (continues : ∀ reply, TagTriple writer n idx p pre (rest reply) post) :
    TagTriple writer n idx p pre (.access act rest) post := by
  apply Triple.access (fun _ => pre) stable _ continues
  intro ghost buf inv holds permitted
  refine ⟨ghost, .quiet ?_, ?_⟩
  · exact congrArg (fun after : EmsBuf =>
      after.tag (EMSdataCell idx)) (keeps buf)
  · change pre (ghost, (act.perform buf).2)
    rwa [keeps buf]

theorem TagTriple.held {good : α → Prop} {prog : EmsProg α}
    (confined : Confined (fun _ => False) (fun _ => True) prog)
    (answers : prog.Answers good) :
    TagTriple writer n idx p (TagHeld (EMSdataCell idx) p op tag) prog.lenient
      fun value state =>
        good value ∧ TagHeld (EMSdataCell idx) p op tag state := by
  refine Triple.only TagHeld.stable ?_ confined answers
  intro act allowed ghost buf inv holds permitted
  have same : (act.perform buf).2.tag (EMSdataCell idx) =
      buf.tag (EMSdataCell idx) :=
    Access.perform_tag (fun tagged => allowed.1 _ tagged) buf
  exact ⟨ghost, .quiet same, holds.pending, holds.held, same.trans holds.tag_eq⟩

/-- The compare-and-swap with which an operation takes the element. -/
theorem TagTriple.acquire {old new : Tag} {rest : Tag → EmsProg α}
    (other : p ≠ writer)
    (takes : op.holds (lockOf old) = some (lockOf new))
    (succeeds : TagTriple writer n idx p (TagHeld (EMSdataCell idx) p op new)
      (rest old) post)
    (fails : ∀ found, found ≠ old → TagTriple writer n idx p (TagPending p op)
      (rest found) post) :
    TagTriple writer n idx p (TagPending p op)
      (.access (.casTag (EMSdataCell idx) old new) rest) post := by
  apply Triple.access (fun found state =>
    if found = old then TagHeld (EMSdataCell idx) p op new state
      else TagPending p op state)
    TagPending.stable
  · intro ghost buf inv holds permitted
    by_cases found : buf.tag (EMSdataCell idx) = old
    · subst found
      have move : TagMove writer (EMSdataCell idx) p _ (ghost, buf) _ :=
        .acquire other holds.pending takes
      simp only [Machine.lenient, tagMachine, Access.perform, if_true]
      exact ⟨_, move, holds.pending, rfl, by simp⟩
    · simp only [Machine.lenient, tagMachine, Access.perform, if_neg found]
      exact ⟨ghost, .quiet rfl, holds⟩
  · intro found
    by_cases same : found = old
    · rw [same]
      simpa only [if_true] using succeeds
    · simpa only [if_neg same] using fails found same

theorem TagTriple.release {tag' : Tag} {rest : Unit → EmsProg α} (ok : res.isOk)
    (left : lockOf tag' = op.leaves (lockOf tag))
    (continues : TagTriple writer n idx p (TagDone p op res) (rest ()) post) :
    TagTriple writer n idx p (TagHeld (EMSdataCell idx) p op tag)
      (.access (.storeTag (EMSdataCell idx) tag') rest) post := by
  apply Triple.access (fun _ => TagDone p op res) TagHeld.stable _
    fun _ => continues
  intro ghost buf inv holds permitted
  refine ⟨_, .release holds.held holds.pending ok ?_, ?_, ?_⟩
  · rw [left, holds.tag_eq]
  · exact AtomicObject.State.setPhase_same _ _ _
  · simp

/-- Waiting for a state and making the element busy. -/
theorem TagTriple.transition {oldFE : FE} (patience : Nat)
    {rest : Tag → EmsProg α}
    (other : p ≠ writer) (takes : ∀ rw, op.holds ⟨oldFE, rw⟩ = some ⟨.busy, rw⟩)
    (succeeds : ∀ tag : Tag, tag.fe = .busy → TagTriple writer n idx p
      (TagHeld (EMSdataCell idx) p op tag) (rest tag).lenient post) :
    TagTriple writer n idx p (TagPending p op)
      (EMStransitionFEtag patience (EMSdataCell idx) none oldFE .busy >>=
        rest).lenient post := by
  induction patience with
  | zero => exact Triple.spin
  | succ patience induction =>
      simp only [EMStransitionFEtag, Prog.perform_bind, Prog.access_bind,
        Prog.lenient]
      apply TagTriple.quiet TagPending.stable fun _ => rfl
      intro memTag
      apply TagTriple.acquire other
      · exact takes memTag.rw
      · simpa only [if_true, Prog.pure_eq, Prog.ret_bind] using succeeds _ rfl
      · intro found different
        simpa only [if_neg different] using induction

/-! ### The operations keep to the protocol -/

/-- A read of the element that is held. -/
theorem TagTriple.readElement {finalFE : FE} (patience : Nat)
    (left : ∀ held : Tag, lockOf { held with fe := finalFE } = op.leaves
      (lockOf held)) :
    TagTriple writer n idx p (TagHeld (EMSdataCell idx) p op tag)
      (EMS.readElement patience ⟨n, false⟩ idx (some finalFE) tag).lenient
      fun result => TagPost (EMSdataCell idx) p op (.value result) := by
  have finish : ∀ value : EMSvalueType,
      TagTriple writer n idx p (TagHeld (EMSdataCell idx) p op tag)
        (finishRead ⟨n, false⟩ idx (some finalFE) tag >>= fun _ =>
          (pure (.ok value) : EmsProg (Except EMSError EMSvalueType))).lenient
        fun result => TagPost (EMSdataCell idx) p op (.value result) := by
    intro value
    refine TagTriple.release (show (TagRes.value (.ok value)).isOk from trivial)
      (left tag) ?_
    exact Triple.ret TagDone.stable fun _ _ done => .inl done
  have text : TagTriple writer n idx p (TagHeld (EMSdataCell idx) p op tag)
      (load (EMSdataCell idx) >>= fun textOffset =>
        heapStrlen patience textOffset >>= fun length =>
        finishRead ⟨n, false⟩ idx (some finalFE) tag >>= fun _ =>
        (pure (.ok ⟨tag.type, textOffset, .empty, length⟩) :
          EmsProg (Except EMSError EMSvalueType))).lenient
      fun result => TagPost (EMSdataCell idx) p op (.value result) := by
    apply TagTriple.quiet TagHeld.stable fun _ => rfl
    intro textOffset
    change TagTriple writer n idx p _
        (heapStrlen patience textOffset >>= fun length =>
      finishRead ⟨n, false⟩ idx (some finalFE) tag >>= fun _ =>
      (pure (.ok ⟨tag.type, textOffset, .empty, length⟩) :
        EmsProg (Except EMSError EMSvalueType))).lenient _
    rw [Prog.lenient_bind]
    apply Triple.bind (TagTriple.held heapStrlen_confined Prog.answers_true)
    exact fun length => Triple.pre (finish _) fun _ _ holds => holds.2
  rw [EMS.readElement]
  cases type : tag.type with
  | boolean | integer | float =>
      apply TagTriple.quiet TagHeld.stable fun _ => rfl
      exact fun word => finish _
  | json | string =>
      rw [type] at text
      exact text
  | undefined => exact finish _
  | invalid | unassigned =>
      refine Triple.ret TagHeld.stable fun _ _ held => ?_
      exact .inr ⟨trivial, tag, held⟩

/-- The loop of a read, which takes the element from `fe` and gives it up in the
same state or another. -/
theorem TagTriple.readLoop {fe finalFE : FE} (patience tries : Nat)
    (stack : Tag)
    (other : p ≠ writer)
    (takes : ∀ memTag newTag : Tag, mayRead (some fe) memTag newTag →
      op.holds (lockOf (if fe = .rwLock then memTag
        else { memTag with fe := fe })) =
        some ⟨.busy, if some fe = some .rwLock then memTag.rw + 1
          else memTag.rw⟩)
    (left : ∀ held : Tag, lockOf { held with fe := finalFE } = op.leaves
      (lockOf held)) :
    TagTriple writer n idx p (TagPending p op)
      (EMS.readLoop patience ⟨n, false⟩ idx (some fe)
        (some finalFE) tries stack).lenient
      fun result => TagPost (EMSdataCell idx) p op (.value result) := by
  induction tries generalizing stack with
  | zero => exact Triple.spin
  | succ tries induction =>
      simp only [EMS.readLoop, Prog.perform_bind, Bool.false_eq_true, if_false,
        Prog.lenient]
      apply TagTriple.quiet TagPending.stable fun _ => rfl
      intro memTag
      cases may : mayRead (some fe) memTag stack with
      | true =>
          simp only [if_true, Prog.lenient]
          apply TagTriple.acquire other
          · exact takes memTag stack may
          · simpa only [if_true] using TagTriple.readElement patience left
          · intro found different
            simpa only [if_neg different] using induction _
      | false => simpa only [Bool.false_eq_true, if_false] using induction stack

theorem TagTriple.loadTag {rest : Tag → EmsProg α}
    (continues : TagTriple writer n idx p (TagHeld (EMSdataCell idx) p op tag)
      (rest tag) post) :
    TagTriple writer n idx p (TagHeld (EMSdataCell idx) p op tag)
      (.access (.loadTag (EMSdataCell idx)) rest) post := by
  apply Triple.access
    (fun found state => found = tag ∧ TagHeld (EMSdataCell idx) p op tag state)
    TagHeld.stable
  · intro ghost buf inv holds permitted
    exact ⟨ghost, .quiet rfl, holds.tag_eq, holds⟩
  · rintro found state inv ⟨rfl, holds⟩
    exact continues state inv holds

theorem TagTriple.failed {value : α} {result : α → TagRes}
    (fails : (result value).Fails) :
    TagTriple writer n idx p (TagHeld (EMSdataCell idx) p op tag) (.ret value)
      fun value => TagPost (EMSdataCell idx) p op (result value) :=
  Triple.ret TagHeld.stable fun _ _ held => .inr ⟨fails, tag, held⟩

theorem TagTriple.finish {tag' : Tag} {value : α} {result : α → TagRes}
    (ok : (result value).isOk) (left : lockOf tag' = op.leaves (lockOf tag)) :
    TagTriple writer n idx p (TagHeld (EMSdataCell idx) p op tag)
      (.access (.storeTag (EMSdataCell idx) tag') fun _ => .ret value)
      fun value => TagPost (EMSdataCell idx) p op (result value) :=
  TagTriple.release ok
    left (Triple.ret TagDone.stable fun _ _ done => .inl done)

/-- What a write does with the element it holds. -/
theorem TagTriple.writeElement {value : EMSvalueType} {oldTag : Tag}
    (patience : Nat)
    (left : ∀ type, lockOf ⟨.full, type, 0⟩ = op.leaves (lockOf tag)) :
    TagTriple writer n idx p (TagHeld (EMSdataCell idx) p op tag)
      (EMS.writeElement patience ⟨n, false⟩ idx value
        (some .full) oldTag tag).lenient
      fun result => TagPost (EMSdataCell idx) p op (.written result) := by
  have finishing : TagTriple writer n idx p (TagHeld (EMSdataCell idx) p op tag)
      (do
        let current ← EMS.loadTag (EMSdataCell idx)
        if current ≠ tag then pure (.error .lostTagLock : Except EMSError Unit)
        else do
          storeTag (EMSdataCell idx) ⟨.full, value.type, 0⟩
          releaseMap ⟨n, false⟩ idx
          return .ok ()).lenient
      fun result => TagPost (EMSdataCell idx) p op (.written result) := by
    simp only [Prog.perform_bind, Prog.lenient]
    apply TagTriple.loadTag
    rw [if_neg (fun different => different rfl)]
    exact TagTriple.finish trivial (left value.type)
  have storing : ∀ rest : Except EMSError Unit → EmsProg (Except EMSError Unit),
      (∀ error, rest (.error error) = pure (.error error)) →
      TagTriple writer n idx p (TagHeld (EMSdataCell idx) p op tag)
        (rest (.ok ())).lenient
        (fun result => TagPost (EMSdataCell idx) p op (.written result)) →
      TagTriple writer n idx p (TagHeld (EMSdataCell idx) p op tag)
        (storeValue patience idx value >>= rest).lenient
        fun result => TagPost (EMSdataCell idx) p op (.written result) := by
    intro rest fails finished
    rw [Prog.lenient_bind]
    apply Triple.bind (TagTriple.held (storeValue_confined trivial)
      storeValue_answers)
    intro stored
    refine Triple.of_imp fun kept => ?_
    cases stored with
    | error error =>
        rw [fails]
        exact TagTriple.failed fun lost => kept (congrArg Except.error lost)
    | ok _ => exact finished
  simp only [EMS.writeElement]
  split
  · simp only [Prog.perform_bind, Prog.lenient]
    apply TagTriple.quiet TagHeld.stable fun _ => rfl
    intro old
    rw [Prog.lenient_bind]
    apply Triple.bind (TagTriple.held free_confined Prog.answers_true)
    exact fun _ =>
      Triple.pre (storing _ (fun _ => rfl) finishing) fun _ _ holds => holds.2
  · exact storing _ (fun _ => rfl) finishing

theorem TagTriple.writeLoop {value : EMSvalueType} {old : FE}
    (patience tries : Nat)
    (inside : 0 ≤ idx) (below : idx < n) (busy : tag.fe = .busy)
    (left : ∀ type, lockOf ⟨.full, type, 0⟩ = op.leaves (lockOf tag)) :
    TagTriple writer n idx p (TagHeld (EMSdataCell idx) p op tag)
      (EMS.writeLoop patience ⟨n, false⟩ value (some old)
        (some .full) tries idx).lenient
      fun result => TagPost (EMSdataCell idx) p op (.written result) := by
  cases tries with
  | zero => exact Triple.spin
  | succ tries =>
      simp only [EMS.writeLoop, Int.tmod_eq_of_lt inside below,
        Prog.perform_bind, Prog.lenient]
      apply TagTriple.loadTag
      have held : { tag with fe := .busy } = tag := by rw [← busy]
      simp only [ne_eq, reduceCtorEq, not_false_eq_true, true_or, if_true,
        if_false, held]
      exact TagTriple.writeElement patience left

/-- The compare-and-swap with which `EMSreleaseRW` gives up one reader. -/
theorem TagTriple.countReader {tries : Nat} (other : p ≠ writer)
    (isLock : tag.fe = .rwLock)
    (readers : tag.rw ≠ 0)
    (retries : TagTriple writer n idx p (TagPending p .releaseRW)
      (EMS.releaseLoop idx tries).lenient
      fun count => TagPost (EMSdataCell idx) p .releaseRW (.released count)) :
    TagTriple writer n idx p (TagPending p .releaseRW)
      (.access (.casTag (EMSdataCell idx) tag
          { tag with rw := tag.rw - 1, fe := if tag.rw - 1 = 0 then .full
            else .rwLock })
        fun found => (if found = tag then pure ((tag.rw - 1).val : Int)
          else EMS.releaseLoop idx tries).lenient)
      fun count =>
        TagPost (EMSdataCell idx) p .releaseRW (.released count) := by
  apply Triple.access (fun (found : Tag) state =>
    if found = tag then TagDone p .releaseRW (.released (tag.rw - 1).val) state
    else TagPending p .releaseRW state) TagPending.stable
  · intro ghost buf inv holds permitted
    by_cases found : buf.tag (EMSdataCell idx) = tag
    · simp only [Machine.lenient, tagMachine, Access.perform, if_pos found]
      have notBusy : (buf.tag (EMSdataCell idx)).fe ≠ .busy := by
        simp [found, isLock]
      refine ⟨_, .count other holds.pending notBusy ?_,
        AtomicObject.State.setPhase_same _ _ _, holds.unheld⟩
      simp [TagOp.effect, lockOf, found, isLock, readers]
    · simp only [Machine.lenient, tagMachine, Access.perform, if_neg found]
      exact ⟨ghost, .quiet rfl, holds⟩
  · intro found
    by_cases same : found = tag
    · simp only [same, if_true]
      exact Triple.ret TagDone.stable fun _ _ done => .inl done
    · simpa only [if_neg same] using retries

/-- The loop of `EMSreleaseRW`, which changes the number of readers at one
instant. -/
theorem TagTriple.releaseLoop (tries : Nat) (other : p ≠ writer) :
    TagTriple writer n idx p (TagPending p .releaseRW)
      (EMS.releaseLoop idx tries).lenient
      fun count =>
        TagPost (EMSdataCell idx) p .releaseRW (.released count) := by
  induction tries with
  | zero => exact Triple.spin
  | succ tries induction =>
      simp only [EMS.releaseLoop, Prog.perform_bind, Prog.lenient]
      -- the load is the instant where there is no reader to release
      apply Triple.access (fun (oldTag : Tag) state =>
        if oldTag.fe = .busy ∨ oldTag.fe = .rwLock ∧ oldTag.rw ≠ 0 then
          TagPending p .releaseRW state
        else TagDone p .releaseRW (.released (-1)) state) TagPending.stable
      · intro ghost buf inv holds permitted
        simp only [Machine.lenient, tagMachine, Access.perform]
        split
        · exact ⟨ghost, .quiet rfl, holds⟩
        · next released =>
            rw [not_or] at released
            have none_released :
                TagOp.releaseRW.effect (lockOf (buf.tag (EMSdataCell idx)))
                (lockOf (buf.tag (EMSdataCell idx))) (.released (-1)) := by
              simp only [TagOp.effect, lockOf]
              rw [if_neg released.2]
              exact ⟨released.1, trivial, trivial⟩
            refine ⟨_, .count other holds.pending released.1 none_released, ?_,
              holds.unheld⟩
            exact AtomicObject.State.setPhase_same _ _ _
      · intro oldTag
        have given_up : TagTriple writer n idx p
            (TagDone p .releaseRW (.released (-1)))
            (pure (-1) : EmsProg Int).lenient
            fun count =>
                TagPost (EMSdataCell idx) p .releaseRW (.released count) :=
          Triple.ret TagDone.stable fun _ _ done => .inl done
        by_cases isLock : oldTag.fe = .rwLock
        · by_cases readers : oldTag.rw = 0
          · simpa [isLock, readers] using given_up
          · simp only [isLock, readers, if_true, reduceCtorEq, ne_eq,
              not_false_eq_true,
              and_self, or_true, if_false, Prog.lenient]
            exact TagTriple.countReader other isLock readers induction
        · by_cases isBusy : oldTag.fe = .busy
          · simpa [isBusy] using induction
          · simpa [isLock, isBusy] using given_up

/-- The end of a compare-and-swap. -/
theorem TagTriple.casFinish {current newValue : EMSvalueType} {swapped : Bool}
    (patience : Nat)
    (left : ∀ type, lockOf ⟨.full, type, 0⟩ = op.leaves (lockOf tag)) :
    TagTriple writer n idx p (TagHeld (EMSdataCell idx) p op tag)
      (EMS.casFinish patience ⟨n, false⟩ idx current newValue swapped).lenient
      fun result => TagPost (EMSdataCell idx) p op (.value result) := by
  have storing : ∀ rest : Except EMSError Unit →
      EmsProg (Except EMSError EMSvalueType),
      (∀ error, rest (.error error) = pure (.error error)) →
      TagTriple writer n idx p (TagHeld (EMSdataCell idx) p op tag)
        (rest (.ok ())).lenient
        (fun result => TagPost (EMSdataCell idx) p op (.value result)) →
      TagTriple writer n idx p (TagHeld (EMSdataCell idx) p op tag)
        (casStore patience idx newValue >>= rest).lenient
        fun result => TagPost (EMSdataCell idx) p op (.value result) := by
    intro rest fails finished
    rw [Prog.lenient_bind]
    apply Triple.bind (TagTriple.held (casStore_confined trivial)
      Prog.answers_true)
    intro stored
    refine Triple.of_imp fun _ => ?_
    cases stored with
    | error error =>
        rw [fails]
        exact TagTriple.failed trivial
    | ok _ => exact finished
  simp only [EMS.casFinish]
  split
  · split
    · simp only [Prog.perform_bind, Prog.lenient]
      apply TagTriple.quiet TagHeld.stable fun _ => rfl
      intro old
      rw [Prog.lenient_bind]
      apply Triple.bind (TagTriple.held free_confined Prog.answers_true)
      intro _
      refine Triple.pre (storing _ (fun _ => rfl) ?_) fun _ _ holds => holds.2
      exact TagTriple.finish trivial (left newValue.type)
    · exact storing _ (fun _ => rfl)
        (TagTriple.finish trivial (left newValue.type))
  · exact TagTriple.finish trivial (left current.type)

theorem TagTriple.casElement {oldValue newValue : EMSvalueType} (patience : Nat)
    (other : p ≠ writer) :
    TagTriple writer n idx p (TagPending p (.cas oldValue newValue))
      (EMS.casElement patience ⟨n, false⟩ idx oldValue newValue).lenient
      fun result => TagPost (EMSdataCell idx) p (.cas oldValue newValue)
        (.value result) := by
  refine TagTriple.transition patience other (fun rw => ?_) fun tag busy => ?_
  · rfl
  · simp only [Prog.perform_bind, Prog.lenient]
    apply TagTriple.loadTag
    rw [Prog.lenient_bind]
    apply Triple.bind (TagTriple.held casRead_confined Prog.answers_true)
    intro current
    refine Triple.of_imp fun _ => ?_
    cases current with
    | error error => exact TagTriple.failed trivial
    | ok current => exact TagTriple.casFinish patience fun _ => rfl

/-- A fetch-and-add on the element, from the wait for it on. -/
theorem TagTriple.faa {value : EMSvalueType} (patience : Nat)
    (other : p ≠ writer) :
    TagTriple writer n idx p (TagPending p (.faa value))
      (EMStransitionFEtag patience (EMSdataCell idx) none .full .busy >>=
        fun oldTag =>
        faaElement patience idx oldTag.type value >>= fun sum =>
          match sum with
          | .error error => pure (.error error)
          | .ok (returnValue, sumType) => do
              storeTag (EMSdataCell idx)
                { oldTag with fe := .full, type := sumType }
              releaseMap ⟨n, false⟩ idx
              return (.ok returnValue : Except EMSError EMSvalueType)).lenient
      fun result =>
          TagPost (EMSdataCell idx) p (.faa value) (.value result) := by
  refine TagTriple.transition patience other (fun rw => ?_) fun tag busy => ?_
  · rfl
  · rw [Prog.lenient_bind]
    apply Triple.bind (TagTriple.held (faaElement_confined trivial)
      Prog.answers_true)
    intro sum
    refine Triple.of_imp fun _ => ?_
    cases sum with
    | error error => exact TagTriple.failed trivial
    | ok sum => exact TagTriple.finish trivial rfl

theorem TagTriple.named {prog : EmsProg α} {result : α → TagRes}
    (triple : TagTriple writer n idx p (TagPending p op) prog.lenient
      fun value => TagPost (EMSdataCell idx) p op (result value)) :
    TagTriple writer n idx p (TagPending p op) (result <$> prog).lenient
      (TagPost (EMSdataCell idx) p op) := by
  rw [← bind_pure_comp, Prog.lenient_bind]
  apply Triple.bind triple
  exact fun value => Triple.ret TagPost.stable fun _ _ post => post

/-- Every operation but a write keeps to the protocol. -/
theorem TagOp.triple (op : TagOp) (patience : Nat) (inside : 0 ≤ idx)
    (below : idx < n)
    (other : p ≠ writer) (reads : ¬ op.IsWrite) :
    TagTriple writer n idx p (TagPending p op) (op.code n idx patience).lenient
      (TagPost (EMSdataCell idx) p op) := by
  cases op with
  | write value => exact absurd trivial reads
  | readFE stack =>
      apply TagTriple.named
      rw [EMSreadFE, EMSreadUsingTags_unmapped patience inside below]
      apply TagTriple.readLoop patience patience stack other
      · intro memTag newTag may
        simp [TagOp.holds, lockOf]
      · exact fun held => rfl
  | writeEF value =>
      apply TagTriple.named
      rw [EMSwriteEF, EMSwriteUsingTags_unmapped_waiting patience inside below]
      refine TagTriple.transition patience other (fun rw => ?_)
        fun tag busy => ?_
      · rfl
      · exact TagTriple.writeLoop patience patience inside below busy
          fun _ => rfl
  | readRW stack =>
      apply TagTriple.named
      rw [EMSreadRW, EMSreadUsingTags_unmapped patience inside below]
      apply TagTriple.readLoop patience patience stack other
      · intro memTag newTag may
        simp only [mayRead, decide_eq_true_eq] at may
        rw [if_pos rfl, if_pos rfl]
        exact if_pos ⟨may.1.elim (fun lock => .inr lock.1) .inl, may.2⟩
      · exact fun held => rfl
  | releaseRW =>
      apply TagTriple.named
      have inRange : ¬ (idx < 0 ∨ n ≤ idx) := by omega
      simpa [EMSreleaseRW,
        EMSkey2index_unmapped patience ⟨n, false⟩ inside below, inRange]
        using TagTriple.releaseLoop patience other
  | faa value =>
      apply TagTriple.named
      have inRange : ¬ (idx < 0 ∨ n ≤ idx) := by omega
      simp only [EMSfaa,
        EMSwriteIndexMap_unmapped patience ⟨n, false⟩ rfl inside below,
        Prog.ret_bind, inRange, if_false]
      exact TagTriple.faa patience other
  | cas oldValue newValue =>
      apply TagTriple.named
      rw [EMScas_unmapped patience inside below]
      exact TagTriple.casElement patience other

/-- A process that has loaded a tag stores it with another type at most. -/
def MayStore (cell : Cell) (loaded : Option Tag) (act : Access) : Prop :=
  act.tagged = some cell → ∃ found ∈ loaded, ∃ tag,
    act = .storeTag cell tag ∧ lockOf tag = lockOf found

omit [CRuntime] in
theorem Prog.Only.follows_store {β γ : Type} {prog : EmsProg β}
    {rest : β → EmsProg γ}
    {found : Tag} (confined : Confined (fun _ => False) (fun _ => True) prog)
    (second : ∀ value, (rest value).Follows (MayStore cell) (loadedTag cell)
      (some found)) :
    (prog >>= rest).Follows (MayStore cell) (loadedTag cell) (some found) := by
  refine Prog.Only.follows_bind (confined.mono fun act allowed => ?_) second
  refine ⟨fun tagged => (allowed.1 _ tagged).elim, fun reply => ?_⟩
  cases act with
  | storeTag other tag => exact (allowed.1 other rfl).elim
  | loadTag other => simp [loadedTag]
  | _ => rfl

/-- A write stores the state and the readers of the element as it has loaded
them. -/
theorem EMSwrite_follows {value : EMSvalueType} (patience : Nat)
    (inside : 0 ≤ idx)
    (below : idx < n) :
    (EMSwrite patience ⟨n, false⟩ (scalar .integer idx) value).Follows
      (MayStore (EMSdataCell idx)) (loadedTag (EMSdataCell idx)) none := by
  have untagged : ∀ {loaded : Option Tag} {act : Access}, act.tagged = none →
      MayStore (EMSdataCell idx) loaded act := by
    intro loaded act same tagged
    simp [same] at tagged
  have storing : ∀ (found : Tag)
      (rest : Except EMSError Unit → EmsProg (Except EMSError Unit)),
      (∀ error, rest (.error error) = pure (.error error)) →
      (rest (.ok ())).Follows (MayStore (EMSdataCell idx))
        (loadedTag (EMSdataCell idx))
        (some found) →
      (storeValue patience idx value >>= rest).Follows
        (MayStore (EMSdataCell idx))
        (loadedTag (EMSdataCell idx)) (some found) := by
    intro found rest fails finished
    apply Prog.Only.follows_store (storeValue_confined trivial)
    intro stored
    cases stored with
    | error error =>
        rw [fails]
        trivial
    | ok _ => exact finished
  unfold EMSwrite
  rw [EMSwriteUsingTags_unmapped patience inside below]
  cases patience with
  | zero => trivial
  | succ tries =>
      simp only [EMS.writeLoop, Int.tmod_eq_of_lt inside below]
      apply Prog.follows_perform (untagged rfl)
      intro memTag
      have loads : loadedTag (EMSdataCell idx) none
          (.loadTag (EMSdataCell idx)) memTag =
          some memTag := by simp [loadedTag]
      have stores : MayStore (EMSdataCell idx) (some memTag)
          (.storeTag (EMSdataCell idx) { memTag with type := value.type }) :=
        fun _ => ⟨memTag, rfl, _, rfl, rfl⟩
      rw [loads]
      simp only [EMS.writeElement, if_true, or_true]
      split
      · apply Prog.follows_perform (untagged rfl)
        intro old
        refine Prog.Only.follows_store free_confined fun _ =>
          storing _ _ (fun _ => rfl) ?_
        exact ⟨stores, fun _ => trivial⟩
      · refine storing _ _ (fun _ => rfl) ?_
        exact ⟨stores, fun _ => trivial⟩

/-- A write that stores only tags that keep the state. -/
theorem TagTriple.write (value : EMSvalueType) (patience : Nat)
    (inside : 0 ≤ idx)
    (below : idx < n) :
    TagTriple writer n idx writer (TagIdle writer)
      ((TagOp.write value).code n idx patience).lenient fun _ =>
        TagIdle writer := by
  have only : ((TagOp.write value).code n idx patience).Only fun act =>
      act.tagged = some (EMSdataCell idx) → ∃ tag,
          act = .storeTag (EMSdataCell idx) tag := by
    refine ((EMSwrite_follows patience inside below).map).only fun loaded act
      may tagged => ?_
    obtain ⟨found, -, tag, stores, -⟩ := may tagged
    exact ⟨tag, stores⟩
  refine Triple.post (Triple.only TagIdle.stable ?_ only Prog.answers_true)
    fun _ _ post => post.2
  intro act allowed ghost buf inv holds permitted
  by_cases tagged : act.tagged = some (EMSdataCell idx)
  · obtain ⟨tag, rfl⟩ := allowed tagged
    obtain ⟨same, unlessBusy⟩ := permitted rfl rfl rfl
    have stored : (buf.setTag (EMSdataCell idx) tag).tag (EMSdataCell idx) =
      tag := by simp
    by_cases busy : (buf.tag (EMSdataCell idx)).fe = .busy
    · have found : buf.tag (EMSdataCell idx) = tag :=
        unlessBusy ((congrArg Lock.fe same).symm.trans busy)
      exact ⟨ghost, .quiet (stored.trans found.symm), holds.idle, holds.unheld⟩
    · refine ⟨ghost, .retype rfl ?_ busy, holds.idle, holds.unheld⟩
      exact (congrArg lockOf stored).trans same.symm
  · exact ⟨ghost, .quiet (Access.perform_tag tagged buf), holds.idle,
      holds.unheld⟩

variable (writer n idx) in
/-- The machine whose writer keeps the state implements the protocol. -/
theorem tagImplements (inside : 0 ≤ idx) (below : idx < n) :
    (tagProtocol writer (EMSdataCell idx)).Implements
    (tagMachine writer true n idx).lenient
      (fun p => TagIdle p)
      fun p op res state => p = writer ∧ TagIdle p state ∨
        p ≠ writer ∧ TagPost (EMSdataCell idx) p op res state where
  idleStable p := TagIdle.stable
  calls := by
    intro p op patience ghost buf inv idle admitted
    have writes : p = writer ↔ op.IsWrite := admitted
    by_cases same : p = writer
    · subst same
      refine ⟨ghost, .own rfl (by simp), ?_⟩
      cases op with
      | write value =>
          have safe :=
            TagTriple.write value patience inside below (ghost, buf) inv idle
          exact safe.mono fun _ _ idle => .inl ⟨rfl, idle⟩
      | readFE | writeEF | readRW | releaseRW | faa | cas =>
          exact absurd (writes.mp rfl) id
    · have move : TagMove writer (EMSdataCell idx) p (.call op)
          (ghost, buf) _ :=
        .call op same idle.idle
      have reads : ¬ op.IsWrite := fun isWrite => same (writes.mpr isWrite)
      refine ⟨_, move, Safe.mono
        (op.triple patience inside below same reads _ (inv.move move)
        ⟨AtomicObject.State.setPhase_same _ _ _, idle.unheld⟩) fun _ _ post =>
          .inr ⟨same, post⟩⟩
  returns := by
    intro p op res ghost buf inv post
    rcases post with ⟨rfl, idle⟩ | ⟨other, done | ⟨fails, tag, held⟩⟩
    · exact ⟨ghost, .own rfl (by simp), idle⟩
    · exact ⟨_, .ret other done.done, AtomicObject.State.setPhase_same _ _ _,
        done.unheld⟩
    · exact ⟨_, .fail other held.held held.pending fails,
        AtomicObject.State.setPhase_same _ _ _, by simp⟩

end Accesses

/-! ## Runs -/

theorem TagOp.effect_held {op : TagOp} {lock held next : Lock} {res : TagRes}
    (takes : op.holds lock = some held)
    (ends : res.isOk ∧ next = op.leaves held ∨ res.Fails ∧ next = held) :
    op.effect lock next res := by
  cases op with
  | releaseRW => cases takes
  | write | readFE | writeEF | readRW | faa | cas => exact ⟨held, takes, ends⟩

/-- A move of the protocol is a sequence of events of the object that looks the
same. -/
theorem TagMove.refines {p : ι} {label : TagLabel}
    {state next : TagGhost ι × EmsBuf}
    (inv : TagInv writer cell state)
    (move : TagMove writer cell p label state next) :
    ∃ events, Run (AtomicObject.Step TagOp.effect) state.1.spec events
      next.1.spec ∧
      events.filterMap seenEvent =
        [(p, label)].filterMap (tagEvent writer) := by
  cases move with
  | own isWriter noAccess =>
      refine ⟨[], .nil, ?_⟩
      cases label with
      | call op => simp [tagEvent, isWriter]
      | access act reply => exact absurd rfl (noAccess act reply)
      | ret op res => simp [tagEvent, isWriter]
  | call op other idle =>
      exact ⟨_, Run.nil.snoc (.call op idle), by
        simp [tagEvent, seenEvent, other]⟩
  | quiet | retype | acquire => exact ⟨[], .nil, rfl⟩
  | @release ghost buf op res tag held pending ok left =>
      unfold TagInv at inv
      simp only [held] at inv
      obtain ⟨-, op', pending', takes⟩ := inv
      obtain rfl : op = op' :=
        AtomicObject.Phase.pending.inj (pending.symm.trans pending')
      exact ⟨_, Run.nil.snoc
        (.commit pending (TagOp.effect_held takes (.inl ⟨ok, left⟩))), rfl⟩
  | @count ghost buf buf' act reply res other pending notBusy effect =>
      obtain ⟨-, object⟩ := inv.free notBusy
      simp only at object
      exact ⟨_, Run.nil.snoc (.commit pending (object ▸ effect)), rfl⟩
  | @fail ghost buf op res other held pending fails =>
      unfold TagInv at inv
      simp only [held] at inv
      obtain ⟨-, op', pending', takes⟩ := inv
      obtain rfl : op = op' :=
        AtomicObject.Phase.pending.inj (pending.symm.trans pending')
      have commits : AtomicObject.Step TagOp.effect ghost.spec (p, .commit) _ :=
        .commit pending (TagOp.effect_held takes (.inr ⟨fails, rfl⟩))
      have returns : AtomicObject.Step TagOp.effect _ (p, .ret op res) _ :=
        .ret (AtomicObject.State.setPhase_same
          { ghost.spec with object := lockOf (buf.tag cell) }
          p (.done op res))
      rw [AtomicObject.State.setPhase_setPhase] at returns
      refine ⟨_, (Run.nil.snoc commits).snoc returns, ?_⟩
      simp [tagEvent, seenEvent, other, List.filterMap_cons]
  | ret other done =>
      exact ⟨_, Run.nil.snoc (.ret done), by simp [tagEvent, seenEvent, other]⟩

theorem tag_simulates {start finish : TagGhost ι × EmsBuf}
    {trace : List (ι × TagLabel)} (initially : TagInv writer cell start)
    (run : Run (tagProtocol writer cell).Step start trace finish) :
    ∃ events, Run (AtomicObject.Step TagOp.effect) start.1.spec events
      finish.1.spec ∧
      events.filterMap seenEvent = trace.filterMap (tagEvent writer) := by
  induction run with
  | nil => exact ⟨[], .nil, rfl⟩
  | @snoc trace state next label before move induction =>
      have inv : TagInv writer cell state := Run.invariant (TagInv writer cell)
        (fun _ _ _ inv move => TagInv.move inv move) before initially
      obtain ⟨events, specRun, same⟩ := induction
      obtain ⟨more, moreRun, moreSame⟩ := TagMove.refines inv move
      refine ⟨events ++ more, specRun.append moreRun, ?_⟩
      rw [List.filterMap_append, List.filterMap_append, same, moreSame]

theorem TagMove.writer_keeps {act : Access} {reply : Reply act}
    {state next : TagGhost ι × EmsBuf}
    (inv : TagInv writer cell state)
    (move : TagMove writer cell writer (.access act reply) state next) :
    lockOf (next.2.tag cell) = lockOf (state.2.tag cell) := by
  cases move with
  | own isWriter noAccess => exact absurd rfl (noAccess act reply)
  | quiet same => exact congrArg lockOf same
  | retype isWriter same notBusy => exact same
  | acquire other | count other => exact absurd rfl other
  | release held =>
      unfold TagInv at inv
      simp only [held] at inv
      exact absurd rfl inv.1

/-! ### Unraced runs -/

section Unraced

/-- The writer stores the tag that it has loaded, and that is still the tag of
the element. -/
def WriterFollows (writer : ι) (cell : Cell) (loaded : Option Tag)
    (config : Config ι EmsBuf (Control Access Reply TagOp TagRes)) : Prop :=
  (∀ tag ∈ loaded, config.shared.tag cell = tag ∧ tag.fe ≠ .busy) ∧
  match config.control writer with
  | .idle => loaded = none
  | .running _ prog => prog.Follows (MayStore cell) (loadedTag cell) loaded

private theorem unracedAfter_snoc {loaded : Option Tag}
    {trace : List (ι × TagLabel)}
    {label : ι × TagLabel} :
    UnracedAfter writer cell loaded (trace ++ [label]) ↔
      UnracedAfter writer cell loaded trace ∧
        Considerate writer cell
          (trace.foldl (loadedAfter writer cell) loaded) label := by
  induction trace generalizing loaded with
  | nil => simp [UnracedAfter]
  | cons first trace induction =>
      simp only [List.cons_append, UnracedAfter, induction,
        List.foldl_cons, and_assoc]

omit [DecidableEq ι] in
theorem WriterFollows.keepsLock {loaded : Option Tag} {op : TagOp}
    {act : Access}
    {next : Reply act → EmsProg TagRes}
    {config : Config ι EmsBuf (Control Access Reply TagOp TagRes)}
    (follows : WriterFollows writer cell loaded config)
    (running : config.control writer = .running op (.access act next)) :
    act.KeepsLock cell config.shared := by
  obtain ⟨unchanged, code⟩ := follows
  rw [running] at code
  cases act with
  | storeTag other stored =>
      rintro rfl
      obtain ⟨found, isLoaded, tag, same, keeps⟩ := code.1 rfl
      obtain ⟨here, notBusy⟩ := unchanged found isLoaded
      obtain rfl : stored = tag := by simpa using same
      have sameFE : stored.fe = found.fe := congrArg Lock.fe keeps
      exact ⟨(congrArg lockOf here).trans keeps.symm,
        fun busy => absurd (sameFE.symm.trans busy) notBusy⟩
  | _ => trivial

variable [CRuntime] {n idx : Int} {buf : EmsBuf}

/-- A step of the machine is one of the machine whose writer keeps the state. -/
theorem WriterFollows.careful {loaded : Option Tag} {label : ι × TagLabel}
    {config next : (tagMachine writer false n idx).State}
    (follows : WriterFollows writer (EMSdataCell idx) loaded config)
    (step : (tagMachine writer false n idx).Step config label next) :
    (tagMachine writer true n idx).Step config label next := by
  cases step with
  | @mk p label memory control moved =>
      refine .mk ?_
      generalize running : config.control p = before at moved ⊢
      cases moved with
      | call op patience admitted => exact .call op patience admitted
      | access permitted =>
          refine .access ?_
          rintro - rfl
          exact follows.keepsLock running
      | ret => exact .ret

omit [DecidableEq ι] [CRuntime] in
/-- What the writer has loaded is the tag of the element after its own
access. -/
theorem WriterFollows.access {loaded : Option Tag} {op : TagOp} {act : Access}
    {next : Reply act → EmsProg TagRes}
    {config : Config ι EmsBuf (Control Access Reply TagOp TagRes)}
    (follows : WriterFollows writer cell loaded config)
    (running : config.control writer = .running op (.access act next))
    (considerate : Considerate writer cell loaded
      (writer, .access act (act.perform config.shared).1)) :
    ∀ tag ∈ loadedTag cell loaded act (act.perform config.shared).1,
      (act.perform config.shared).2.tag cell = tag ∧ tag.fe ≠ .busy := by
  obtain ⟨unchanged, code⟩ := follows
  rw [running] at code
  by_cases tagged : act.tagged = some cell
  · obtain ⟨found, -, tag, rfl, -⟩ := code.1 tagged
    simp [loadedTag]
  · have stays : (act.perform config.shared).2.tag cell =
        config.shared.tag cell :=
      Access.perform_tag tagged config.shared
    rw [stays]
    cases act with
    | storeTag other stored =>
        have different : other ≠ cell := fun same => tagged (congrArg some same)
        simpa [loadedTag, different] using unchanged
    | loadTag other =>
        by_cases same : other = cell
        · subst same
          have notBusy : (config.shared.tag other).fe ≠ .busy :=
            considerate rfl rfl
          cases loaded with
          | none => simpa [loadedTag, Access.perform] using notBusy
          | some found => simpa [loadedTag] using unchanged
        · simpa [loadedTag, same] using unchanged
    | _ => exact unchanged

omit [DecidableEq ι] [CRuntime] in
/-- The tag that the writer is about to store is kept by the others. -/
theorem WriterFollows.others {loaded : Option Tag} {p : ι}
    {act : Access} {tag : Tag}
    {memory : EmsBuf} (other : p ≠ writer) (isLoaded : tag ∈ loaded)
    (here : memory.tag cell = tag)
    (considerate : Considerate writer cell loaded
      (p, .access act (act.perform memory).1)) :
    (act.perform memory).2.tag cell = tag := by
  cases act with
  | storeTag target stored =>
      by_cases same : target = cell
      · subst same
        simpa [Access.perform] using considerate other rfl tag isLoaded
      · rw [Access.perform_tag (by simpa [Access.tagged] using same), here]
  | casTag target old new =>
      by_cases same : target = cell
      · subst same
        have keeps : old = memory.tag target → new = tag :=
          considerate other rfl tag isLoaded
        simp only [Access.perform]
        split
        · rename_i found
          simpa using keeps found.symm
        · exact here
      · rw [Access.perform_tag (by simpa [Access.tagged] using same), here]
  | _ => rw [Access.perform_tag (by simp [Access.tagged]), here]

/-- What a step does to a writer that nobody disturbs. -/
theorem WriterFollows.step {loaded : Option Tag} {label : ι × TagLabel}
    {config next : (tagMachine writer false n idx).State} (inside : 0 ≤ idx)
    (below : idx < n)
    (follows : WriterFollows writer (EMSdataCell idx) loaded config)
    (considerate : Considerate writer (EMSdataCell idx) loaded label)
    (step : (tagMachine writer false n idx).Step config label next) :
    WriterFollows writer (EMSdataCell idx)
      (loadedAfter writer (EMSdataCell idx) loaded label) next := by
  have unchanged := follows.1
  have code := follows.2
  cases step with
  | @mk p label memory control moved =>
      by_cases same : p = writer
      · subst same
        generalize running : config.control p = before at moved code
        cases moved with
        | call op patience admitted =>
            have isWrite : op.IsWrite := admitted.mp rfl
            refine ⟨unchanged, ?_⟩
            simp only [Function.update_self, loadedAfter]
            cases op with
            | write value =>
                rw [show loaded = none from code]
                exact (EMSwrite_follows patience inside below).map
            | readFE | writeEF | readRW | releaseRW | faa | cas =>
                exact absurd isWrite id
        | access permitted =>
            refine ⟨?_, ?_⟩
            · simp only [loadedAfter, if_true]
              exact follows.access running considerate
            · simpa [loadedAfter] using code.2 _
        | ret => simp [WriterFollows, loadedAfter]
      · have stands : Function.update config.control p control writer =
            config.control writer :=
          Function.update_of_ne (Ne.symm same) _ _
        generalize config.control p = before at moved
        cases moved with
        | call op patience admitted =>
            simpa [WriterFollows, stands, loadedAfter] using follows
        | access permitted =>
            refine ⟨?_, ?_⟩
            · intro tag isLoaded
              simp only [loadedAfter, if_neg same] at isLoaded
              obtain ⟨here, notBusy⟩ := unchanged tag isLoaded
              exact ⟨WriterFollows.others same isLoaded here considerate,
                notBusy⟩
            · simpa [stands, loadedAfter, same] using code
        | ret => simpa [WriterFollows, stands, loadedAfter, same] using follows

/-- A run in which nobody disturbs the writer is one of the machine whose writer
keeps the state. -/
theorem Unraced.run (inside : 0 ≤ idx) (below : idx < n)
    {trace : List (ι × TagLabel)}
    {final : (tagMachine writer false n idx).State}
    (unraced : Unraced writer (EMSdataCell idx) trace)
    (run : Run (tagMachine writer false n idx).Step
      ((tagMachine writer false n idx).start buf) trace final) :
    Run (tagMachine writer true n idx).Step
      ((tagMachine writer true n idx).start buf)
        trace final ∧
      WriterFollows writer (EMSdataCell idx)
        (trace.foldl (loadedAfter writer (EMSdataCell idx)) none) final := by
  induction run with
  | nil => exact ⟨.nil, by simp [WriterFollows, Machine.start]⟩
  | snoc before step induction =>
      obtain ⟨first, considerate⟩ := unracedAfter_snoc.mp unraced
      obtain ⟨careful, follows⟩ := induction first
      refine ⟨careful.snoc (follows.careful step), ?_⟩
      rw [List.foldl_append]
      exact follows.step inside below considerate step

end Unraced

/-- As long as nobody disturbs a write, it does not modify the state. -/
theorem write_keeps_state [CRuntime] {n idx : Int} {buf : EmsBuf}
    (inside : 0 ≤ idx)
    (below : idx < n) : WriteKeepsState true writer n idx buf := by
  intro trace final allRuns allUnraced
  obtain ⟨run, follows⟩ := (allUnraced rfl).run inside below allRuns
  let ghost : TagGhost ι :=
    ⟨none, AtomicObject.initial (lockOf (buf.tag (EMSdataCell idx)))⟩
  have initially : TagInv writer (EMSdataCell idx) (ghost, buf) := rfl
  have idle : ∀ p, TagIdle p (ghost, buf) := fun p => ⟨rfl, by simp [ghost]⟩
  obtain ⟨ghost', protocolRun, inv, everybody⟩ :=
    (tagImplements writer n idx inside below).run ghost initially idle
      (Machine.lenient_run run)
  constructor
  · obtain ⟨events, specRun, same⟩ := tag_simulates initially protocolRun
    refine ⟨events, _, specRun, same, fun finished => ?_⟩
    have unheld : ghost'.holder = none := by
      cases holder : ghost'.holder with
      | none => rfl
      | some p =>
          have here := everybody p
          simp only [finished p] at here
          exact absurd holder (TagIdle.unheld here)
    have free : TagInv writer (EMSdataCell idx) (ghost', final.shared) := inv
    unfold TagInv at free
    simpa only [unheld] using free
  · intro label next step
    have here := everybody writer
    simp only at here
    cases follows.careful step with
    | @mk _ label memory control moved =>
        generalize final.control writer = running at moved here
        cases moved with
        | call op patience admitted => rfl
        | access permitted =>
            obtain ⟨ghost'', move, -⟩ := here _ .refl permitted
            exact TagMove.writer_keeps inv move
        | ret => rfl

end Protocol

/-- The writer stores 9 into the element that process 1 empties, and `true` into
the one that process 2 fills. -/
def orderlySchedule : List (Fin 3 × Choice TagOp) :=
  [(1, .call (.readFE ⟨.full, .invalid, 0⟩) 2), (1, .go), (1, .go),
    (1, .go), (1, .go),
    (0, .call (.write (scalar .integer 9)) 2), (1, .go), (0, .go),
    (0, .go), (0, .go),
    (2, .call (.writeEF (scalar .integer 8)) 2), (0, .go),
    (2, .go), (2, .go), (2, .go), (2, .go), (2, .go), (2, .go),
    (0, .call (.write (scalar .boolean 1)) 2), (0, .go), (2, .go), (0, .go),
    (0, .go), (0, .go)]

theorem write_keeps_state_orderly :
    let _ := ieeeRuntime
    let machine := tagMachine (0 : Fin 3) false 3 1
    ∃ trace final, Run machine.Step
        (machine.start (uniformBuf ⟨.full, .integer, 0⟩ 7)) trace
        final ∧
      trace.length = 24 ∧ final.shared.tag (EMSdataCell 1) =
        ⟨.full, .boolean, 0⟩ ∧
      ∃ events spec, Run (AtomicObject.Step TagOp.effect)
          (AtomicObject.initial ⟨.full, 0⟩)
          events spec ∧
        events.filterMap seenEvent = trace.filterMap (tagEvent 0) ∧
            spec.object = ⟨.full, 0⟩ := by
  let _ : CRuntime := ieeeRuntime
  let machine := tagMachine (0 : Fin 3) false 3 1
  let buf := uniformBuf ⟨.full, .integer, 0⟩ 7
  obtain ⟨trace, final, run, checked⟩ :=
    machine.exists_run (machine.start buf) orderlySchedule
    (fun played =>
      decide (played.1.length = 24 ∧ Unraced 0 (EMSdataCell 1) played.1 ∧
      played.2.shared.tag (EMSdataCell 1) = ⟨.full, .boolean, 0⟩) &&
        (played.2.control 0).isIdle && (played.2.control 1).isIdle &&
          (played.2.control 2).isIdle)
    (by decide +kernel)
  simp only [Bool.and_eq_true, decide_eq_true_eq, Control.isIdle_iff] at checked
  obtain ⟨⟨⟨⟨length, unraced, tag⟩, idle0⟩, idle1⟩, idle2⟩ := checked
  have keeps :=
    @write_keeps_state (Fin 3) _ 0 ieeeRuntime 3 1 buf (by decide) (by decide)
  obtain ⟨⟨events, spec, specRun, same, object⟩, -⟩ :=
    keeps trace final run fun _ => unraced
  refine ⟨trace, final, run, length, tag, events, spec, specRun, same, ?_⟩
  rw [← object, tag]
  · rfl
  · exact Fin.forall_fin_succ.mpr ⟨idle0, Fin.forall_fin_two.mpr ⟨idle1, idle2⟩⟩

/-- The writer has loaded the tag; before it stores it again the other process
reads the element and leaves it empty. -/
def emptyingSchedule : List (Fin 2 × Choice TagOp) :=
  [(0, .call (.write (scalar .integer 9)) 1), (0, .go),
    (1, .call (.readFE ⟨.full, .invalid, 0⟩) 1), (1, .go), (1, .go), (1, .go),
    (1, .go), (1, .go),
    (0, .go)]

/-- A write makes an element full that a read has emptied. -/
theorem not_write_keeps_state :
    ¬ @WriteKeepsState ieeeRuntime (Fin 2) _ false 0 1 0
      (uniformBuf ⟨.full, .integer, 0⟩ 7) := by
  intro keeps
  let _ : CRuntime := ieeeRuntime
  let machine := tagMachine (0 : Fin 2) false 1 0
  obtain ⟨trace, final, run, changed⟩ := machine.exists_run
    (machine.start (uniformBuf ⟨.full, .integer, 0⟩ 7)) emptyingSchedule
    (fun played => (machine.choose played.2 0 .go).any fun taken =>
      lockOf (taken.2.shared.tag (EMSdataCell 0)) ≠
        lockOf (played.2.shared.tag (EMSdataCell 0)))
    (by decide +kernel)
  obtain ⟨⟨label, next⟩, chosen, differs⟩ := (Option.any_eq_true _ _).mp changed
  have same :=
    (keeps trace final run (by simp)).2 label next (Machine.choose_step chosen)
  exact of_decide_eq_true differs same

end EMS
