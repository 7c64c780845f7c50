import EMS.AtomicObject
import EMS.Rmw

/-!
# Scalar operations are atomic

An element that is busy belongs to the process that made it so, until that
process stores another tag.  Each of the scalar operations on an unmapped
array takes effect when it makes its element busy.
-/

namespace EMS

open SharedProgram Interleaving

/-- Types of values that are their word. -/
def IsScalar (type : EMSType) : Prop :=
  type = .boolean ∨ type = .integer ∨ type = .float ∨ type = .undefined

/-- The operations, on the element with an index.  `stack` is what uninitialised
variables hold. -/
inductive ScalarOp where
  | readFE (stack : Tag) (idx : Int)
  | readFF (stack : Tag) (idx : Int)
  | writeEF (idx : Int) (value : EMSvalueType)
  | writeXF (idx : Int) (value : EMSvalueType)
  | writeXE (idx : Int) (value : EMSvalueType)
  | faa (idx : Int) (value : EMSvalueType)
  | cas (idx : Int) (oldValue newValue : EMSvalueType)

/-- What an operation returns: a value, or nothing for the writes. -/
abbrev ScalarRes := Except EMSError (Option EMSvalueType)

def ScalarOp.idx : ScalarOp → Int
  | .readFE _ idx | .readFF _ idx => idx
  | .writeEF idx _ | .writeXF idx _ | .writeXE idx _ => idx
  | .faa idx _ | .cas idx _ _ => idx

/-- The arguments are scalar values. -/
def ScalarOp.Scalar : ScalarOp → Prop
  | .readFE _ _ | .readFF _ _ => True
  | .writeEF _ value | .writeXF _ value | .writeXE _ value | .faa _ value =>
      IsScalar value.type
  | .cas _ oldValue newValue => IsScalar oldValue.type ∧ IsScalar newValue.type

instance (type : EMSType) : Decidable (IsScalar type) :=
  inferInstanceAs (Decidable (_ ∨ _))

instance : (op : ScalarOp) → Decidable op.Scalar
  | .readFE _ _ | .readFF _ _ => isTrue trivial
  | .writeEF _ value | .writeXF _ value | .writeXE _ value | .faa _ value =>
      inferInstanceAs (Decidable (IsScalar value.type))
  | .cas _ oldValue newValue =>
      inferInstanceAs (Decidable
        (IsScalar oldValue.type ∧ IsScalar newValue.type))

/-! ## The sequential specification -/

/-- Full/empty state, type and value of an element. -/
@[ext] structure Element where
  fe : FE
  type : EMSType
  value : Int
  deriving DecidableEq

/-- The element that a tag and a word spell out. -/
def elementOf (tag : Tag) (word : Int) : Element :=
  ⟨tag.fe, tag.type, if tag.type = .undefined then 0 else word⟩

/-- The element after a value has been stored in it. -/
def Element.holding (fe : FE) (value : EMSvalueType) : Element :=
  ⟨fe, value.type, if value.type = .undefined then 0 else value.value⟩

/-- What a read of the element gives. -/
def Element.read (element : Element) : EMSvalueType :=
  match element.type with
  | .boolean => scalar .boolean (if element.value ≠ 0 then 1 else 0)
  | .undefined => scalar .undefined 0xcafebeef
  | type => scalar type element.value

section Specification

variable [CRuntime]

/-- Type and value of a sum. -/
def scalarSum (type : EMSType) (word : Int) (value : EMSvalueType) :
    EMSType × Int :=
  match type, value.type with
  | .boolean, .float | .integer, .float =>
      (.float, CRuntime.add (CRuntime.ofInt word) value.value)
  | .boolean, .undefined | .integer, .undefined | .float, .undefined =>
      (.float, CRuntime.nan)
  | .boolean, _ => (.integer, toInt64 (word + value.value))
  | .integer, .integer =>
      if 2 ^ 30 ≤ toInt64 (word + value.value) then
        (.float, CRuntime.ofInt (toInt64 (word + value.value)))
      else (.integer, toInt64 (word + value.value))
  | .integer, _ => (.integer, toInt64 (word + value.value))
  | .float, .float => (.float, CRuntime.add word value.value)
  | .float, _ => (.float, CRuntime.add word (CRuntime.ofInt value.value))
  | _, _ => (.float, CRuntime.nan)

theorem scalarSum_type (type : EMSType) (word : Int) (value : EMSvalueType) :
    (scalarSum type word value).1 = .integer ∨ (scalarSum type word value).1 =
      .float := by
  unfold scalarSum
  split <;> (try split) <;> simp

/-- What fetch-and-add returns. -/
def Element.faaOld (element : Element) : EMSvalueType :=
  match element.type with
  | .boolean => scalar .boolean (if element.value ≠ 0 then 1 else 0)
  | .undefined => scalar .undefined 0xf00dd00f
  | type => scalar type element.value

/-- What compare-and-swap returns. -/
def Element.casOld (element : Element) : EMSvalueType :=
  match element.type with
  | .undefined => scalar .undefined 0xf00dcafe
  | type => scalar type element.value

/-- The specification of an operation on its element: the element afterwards
and the value returned.  It has none while the operation has to wait. -/
def ScalarOp.apply : ScalarOp → Element → Option (Element × ScalarRes)
  | .readFE _ _, element =>
      if element.fe = .full then
        some ({ element with fe := .empty }, .ok (some element.read))
      else none
  | .readFF _ _, element =>
      if element.fe = .full then
        some (element, .ok (some element.read)) else none
  | .writeEF _ value, element =>
      if element.fe = .empty then
        some (.holding .full value, .ok none) else none
  | .writeXF _ value, element =>
      if element.fe ≠ .busy then some (.holding .full value, .ok none) else none
  | .writeXE _ value, element =>
      if element.fe ≠ .busy then
        some (.holding .empty value, .ok none) else none
  | .faa _ value, element =>
      if element.fe = .full then
        let sum := scalarSum element.type element.value value
        some (⟨.full, sum.1, sum.2⟩, .ok (some element.faaOld))
      else none
  | .cas _ oldValue newValue, element =>
      if element.fe = .full then
        some (if casEqual oldValue element.casOld then .holding .full newValue
          else element,
          .ok (some element.casOld))
      else none

/-- The elements of an array as one atomic object. -/
def ScalarOp.effect (op : ScalarOp) (elements next : Int → Element)
    (res : ScalarRes) : Prop :=
  ∃ element, op.apply (elements op.idx) = some (element, res) ∧
    next = Function.update elements op.idx element

/-! ## The machine -/

/-- The operations as the source codes them, on an unmapped array. -/
def ScalarOp.code (n : Int) (op : ScalarOp) (patience : Nat) :
    EmsProg ScalarRes :=
  let array : EmsArray := ⟨n, false⟩
  match op with
  | .readFE stack idx =>
      Except.map some <$> EMSreadFE patience array stack (scalar .integer idx)
  | .readFF stack idx =>
      Except.map some <$> EMSreadFF patience array stack (scalar .integer idx)
  | .writeEF idx value =>
      Except.map (fun _ => none) <$> EMSwriteEF patience array
        (scalar .integer idx) value
  | .writeXF idx value =>
      Except.map (fun _ => none) <$> EMSwriteXF patience array
        (scalar .integer idx) value
  | .writeXE idx value =>
      Except.map (fun _ => none) <$> EMSwriteXE patience array
        (scalar .integer idx) value
  | .faa idx value =>
      Except.map some <$> EMSfaa patience array (scalar .integer idx) value
  | .cas idx oldValue newValue =>
      Except.map some <$> EMScas patience array (scalar .integer idx)
        oldValue newValue

/-- Any number of processes that call operations on elements of the array. -/
def scalarMachine (ι : Type) (n : Int) :
    Machine ι EmsBuf Access Reply ScalarOp ScalarRes where
  perform := fun _ => Access.perform
  code := fun _ op patience => op.code n patience
  admits := fun _ op _ => 0 ≤ op.idx ∧ op.idx < n ∧ op.Scalar
  permits := fun _ _ _ => True

instance {ι : Type} (n : Int) (p : ι) (op : ScalarOp) (buf : EmsBuf) :
    Decidable ((scalarMachine ι n).admits p op buf) :=
  inferInstanceAs (Decidable (0 ≤ op.idx ∧ op.idx < n ∧ op.Scalar))

instance {ι : Type} (n : Int) (p : ι) (act : Access) (buf : EmsBuf) :
    Decidable ((scalarMachine ι n).permits p act buf) :=
  inferInstanceAs (Decidable True)

abbrev ScalarLabel := Label Access Reply ScalarOp ScalarRes

abbrev ScalarEvent := AtomicObject.Event ScalarOp ScalarRes

abbrev ScalarState (ι : Type) :=
  AtomicObject.State ι (Int → Element) ScalarOp ScalarRes

/-- A compare-and-swap that makes a tag busy. -/
def acquires (act : Access) (reply : Reply act) : Bool :=
  match act, reply with
  | .casTag _ old new, found => found = old ∧ old.fe ≠ .busy ∧ new.fe = .busy
  | _, _ => false

/-- What is visible of a step: calls, returns, and the transition to busy. -/
def scalarEvent {ι : Type} (label : ι × ScalarLabel) :
    Option (ι × ScalarEvent) :=
  match label with
  | (p, .call op) => some (p, .call op)
  | (p, .access act reply) =>
      if acquires act reply then some (p, .commit) else none
  | (p, .ret op res) => some (p, .ret op res)

/-- The elements that a memory holds. -/
def EmsBuf.elements (buf : EmsBuf) (idx : Int) : Element :=
  elementOf (buf.tag (EMSdataCell idx)) (buf.word (EMSdataCell idx))

end Specification

/-! ## The protocol -/

section Protocol

variable {ι : Type} [DecidableEq ι] [CRuntime] {n : Int}

/-- Who holds each element, and the state of the atomic object. -/
structure ScalarGhost (ι : Type) where
  owner : Int → Option ι
  spec : ScalarState ι

/-- The moves of a process on the elements of an array. -/
inductive ScalarMove (n : Int) (p : ι) :
    ScalarLabel → ScalarGhost ι × EmsBuf → ScalarGhost ι × EmsBuf → Prop where
  | call {ghost : ScalarGhost ι} {buf : EmsBuf} (op : ScalarOp) :
      ghost.spec.phase p = .idle →
      ScalarMove n p (.call op) (ghost, buf)
        ({ ghost with spec := ghost.spec.setPhase p (.pending op) }, buf)
  | quiet {ghost : ScalarGhost ι} {buf : EmsBuf} {act : Access}
      {reply : Reply act} :
      acquires act reply = false → (∀ cell tag, act ≠ .storeTag cell tag) →
      ScalarMove n p (.access act reply) (ghost, buf) (ghost, buf)
  | acquire {ghost : ScalarGhost ι} {buf : EmsBuf} {op : ScalarOp}
      {element : Element}
      {res : ScalarRes} {tag : Tag} :
      0 ≤ op.idx → op.idx < n → buf.tag (EMSdataCell op.idx) = tag →
        tag.fe ≠ .busy →
      ghost.spec.phase p = .pending op →
      op.apply (elementOf tag (buf.word (EMSdataCell op.idx))) =
        some (element, res) →
      ScalarMove n p
        (.access (.casTag (EMSdataCell op.idx) tag { tag with fe := .busy })
          tag)
        (ghost, buf)
        (⟨Function.update ghost.owner op.idx (some p),
          ({ ghost.spec with
              object :=
                Function.update ghost.spec.object op.idx element }).setPhase p
            (.done op res)⟩,
          { buf with
            tag :=
              Function.update buf.tag (EMSdataCell op.idx)
                { tag with fe := .busy } })
  | put {ghost : ScalarGhost ι} {buf : EmsBuf} {idx : Int} (word : Int) :
      ghost.owner idx = some p →
      ScalarMove n p (.access (.store (EMSdataCell idx) word) ()) (ghost, buf)
        (ghost, { buf with
          word := Function.update buf.word (EMSdataCell idx) word })
  | release {ghost : ScalarGhost ι} {buf : EmsBuf} {idx : Int} {tag : Tag} :
      ghost.owner idx = some p → tag.fe ≠ .busy → IsScalar tag.type →
      ghost.spec.object idx = elementOf tag (buf.word (EMSdataCell idx)) →
      ScalarMove n p (.access (.storeTag (EMSdataCell idx) tag) ()) (ghost, buf)
        (⟨Function.update ghost.owner idx none, ghost.spec⟩,
          { buf with tag := Function.update buf.tag (EMSdataCell idx) tag })
  | ret {ghost : ScalarGhost ι} {buf : EmsBuf} {op : ScalarOp}
      {res : ScalarRes} :
      ghost.spec.phase p = .done op res →
      ScalarMove n p (.ret op res) (ghost, buf)
        ({ ghost with spec := ghost.spec.setPhase p .idle }, buf)

/-- A held element is busy, and one that is not held is not busy and is what
the object says. -/
def ScalarInv (n : Int) (state : ScalarGhost ι × EmsBuf) : Prop :=
  ∀ idx, 0 ≤ idx → idx < n →
    match state.1.owner idx with
    | some _ => (state.2.tag (EMSdataCell idx)).fe = .busy
    | none => (state.2.tag (EMSdataCell idx)).fe ≠ .busy ∧
        IsScalar (state.2.tag (EMSdataCell idx)).type ∧
        state.1.spec.object idx = state.2.elements idx

theorem ScalarInv.move {p : ι} {label : ScalarLabel}
    {state next : ScalarGhost ι × EmsBuf}
    (inv : ScalarInv n state) (move : ScalarMove n p label state next) :
    ScalarInv n next := by
  intro idx lower upper
  have here := inv idx lower upper
  cases move with
  | call op idle => exact here
  | quiet noCommit noStore => exact here
  | @acquire ghost buf op element res tag inside below found free
        pending applies =>
      by_cases same : idx = op.idx
      · subst same
        simp
      · simpa [EmsBuf.elements, same] using here
  | @put ghost buf held word owned =>
      by_cases same : idx = held
      · subst same
        simp only [owned] at here ⊢
        exact here
      · simpa [EmsBuf.elements, same] using here
  | @release ghost buf held tag owned free isScalar spells =>
      by_cases same : idx = held
      · subst same
        simpa [EmsBuf.elements, free, isScalar] using spells
      · simpa [EmsBuf.elements, same] using here
  | ret done => exact here

variable (ι n) in
def scalarProtocol :
    Protocol ι EmsBuf Access Reply ScalarOp ScalarRes (ScalarGhost ι) where
  move := ScalarMove n
  inv := ScalarInv n
  keeps := ScalarInv.move

/-! ## Assertions of a process -/

section Assertions

variable {p : ι} {op : ScalarOp} {res : ScalarRes}

/-- The process has called the operation, and it has not taken effect. -/
def ScalarPending (p : ι) (op : ScalarOp)
    (state : ScalarGhost ι × EmsBuf) : Prop :=
  state.1.spec.phase p = .pending op

/-- The operation has taken effect and is to return the result. -/
def ScalarDone (p : ι) (op : ScalarOp) (res : ScalarRes)
    (state : ScalarGhost ι × EmsBuf) :
    Prop :=
  state.1.spec.phase p = .done op res

/-- The process holds the element, with this tag and word in memory, and the
operation that has taken effect made it `element`. -/
structure ScalarHeld (p : ι) (idx : Int) (tag : Tag) (word : Int)
    (element : Element)
    (op : ScalarOp) (res : ScalarRes)
    (state : ScalarGhost ι × EmsBuf) : Prop where
  owned : state.1.owner idx = some p
  tag_eq : state.2.tag (EMSdataCell idx) = tag
  word_eq : state.2.word (EMSdataCell idx) = word
  element_eq : state.1.spec.object idx = element
  done : state.1.spec.phase p = .done op res

/-- The phase of a process is its own. -/
theorem ScalarMove.phase_other {q : ι} {label : ScalarLabel}
    {state next : ScalarGhost ι × EmsBuf} (different : q ≠ p)
    (move : ScalarMove n q label state next) :
    next.1.spec.phase p = state.1.spec.phase p := by
  cases move with
  | call op idle => exact AtomicObject.State.setPhase_other _ different.symm _
  | quiet noCommit noStore => rfl
  | acquire inside below found free pending applies =>
      exact AtomicObject.State.setPhase_other _ different.symm _
  | put word owned => rfl
  | release owned free isScalar spells => rfl
  | ret done => exact AtomicObject.State.setPhase_other _ different.symm _

theorem ScalarPending.stable :
    (scalarProtocol ι n).Stable p (ScalarPending p op) := by
  intro q label state next different _ pending move
  exact (move.phase_other different).trans pending

theorem ScalarDone.stable :
    (scalarProtocol ι n).Stable p (ScalarDone p op res) := by
  intro q label state next different _ done move
  exact (move.phase_other different).trans done

/-- Nobody else touches an element that is held. -/
theorem ScalarHeld.stable {idx : Int} {tag : Tag} {word : Int}
    {element : Element}
    (inside : 0 ≤ idx) (below : idx < n) :
    (scalarProtocol ι n).Stable p
    (ScalarHeld p idx tag word element op res) := by
  intro q label state next different inv held move
  have samePhase := move.phase_other different
  obtain ⟨owned, tagEq, wordEq, elementEq, done⟩ := held
  have busy := inv idx inside below
  rw [owned] at busy
  cases move with
  | call op idle =>
      exact ⟨owned, tagEq, wordEq, elementEq, samePhase.trans done⟩
  | quiet noCommit noStore => exact ⟨owned, tagEq, wordEq, elementEq, done⟩
  | @acquire ghost buf other element' res' tag' inside' below' found free
        pending applies =>
      have apart : idx ≠ other.idx := by
        intro same
        subst same
        exact free (found ▸ busy)
      exact ⟨by simpa [apart] using owned, by simpa [apart] using tagEq, wordEq,
        by simpa [apart] using elementEq, samePhase.trans done⟩
  | @put ghost buf other word' owned' =>
      have apart : idx ≠ other := by
        intro same
        subst same
        exact different (Option.some.inj (owned'.symm.trans owned))
      exact ⟨owned, tagEq, by simpa [apart] using wordEq, elementEq, done⟩
  | @release ghost buf other tag' owned' free isScalar spells =>
      have apart : idx ≠ other := by
        intro same
        subst same
        exact different (Option.some.inj (owned'.symm.trans owned))
      exact
        ⟨by
          simpa [apart] using
          owned, by simpa [apart] using tagEq, wordEq, elementEq,
        done⟩
  | ret done' => exact ⟨owned, tagEq, wordEq, elementEq, samePhase.trans done⟩

end Assertions

/-! ## Accesses within the protocol -/

section Accesses

variable {p : ι} {op : ScalarOp} {res : ScalarRes} {α : Type}
  {post : α → ScalarGhost ι × EmsBuf → Prop}

variable (n) in
/-- Triples of the protocol. -/
abbrev ScalarTriple (p : ι) (pre : ScalarGhost ι × EmsBuf → Prop)
    (prog : EmsProg α)
    (post : α → ScalarGhost ι × EmsBuf → Prop) : Prop :=
  (scalarProtocol ι n).Triple (scalarMachine ι n) p pre prog post

/-- An access that changes nothing and acquires nothing. -/
theorem ScalarTriple.quiet {pre : ScalarGhost ι × EmsBuf → Prop} {act : Access}
    {rest : Reply act → EmsProg α} (stable : (scalarProtocol ι n).Stable p pre)
    (same : ∀ buf, (act.perform buf).2 = buf)
    (noCommit : ∀ buf, acquires act (act.perform buf).1 = false)
    (noStore : ∀ cell tag, act ≠ .storeTag cell tag)
    (continues : ∀ reply, ScalarTriple n p
      (fun state => pre state ∧ (act.perform state.2).1 = reply)
        (rest reply) post) :
    ScalarTriple n p pre (.access act rest) post := by
  apply Protocol.Triple.access
    (fun reply state => pre state ∧ (act.perform state.2).1 = reply)
    stable _ continues
  intro ghost buf inv holds _
  simp only [scalarMachine, same]
  exact ⟨ghost, .quiet (noCommit buf) noStore, holds, trivial⟩

section Held

variable {idx : Int} {tag : Tag} {word : Int} {element : Element}
  (inside : 0 ≤ idx) (below : idx < n)

include inside below

theorem ScalarTriple.load {rest : Int → EmsProg α}
    (continues : ScalarTriple n p (ScalarHeld p idx tag word element op res)
      (rest word) post) :
    ScalarTriple n p (ScalarHeld p idx tag word element op res)
      (.access (.load (EMSdataCell idx)) rest) post := by
  apply ScalarTriple.quiet (ScalarHeld.stable inside below) (fun _ => rfl)
    (fun _ => rfl)
  · intro cell tag
    simp
  · intro reply state inv holds
    obtain ⟨held, same⟩ := holds
    obtain rfl : word = reply := held.word_eq.symm.trans same
    exact continues state inv held

theorem ScalarTriple.loadTag {rest : Tag → EmsProg α}
    (continues : ScalarTriple n p (ScalarHeld p idx tag word element op res)
      (rest tag) post) :
    ScalarTriple n p (ScalarHeld p idx tag word element op res)
      (.access (.loadTag (EMSdataCell idx)) rest) post := by
  apply ScalarTriple.quiet (ScalarHeld.stable inside below) (fun _ => rfl)
    (fun _ => rfl)
  · intro cell tag
    simp
  · intro reply state inv holds
    obtain ⟨held, same⟩ := holds
    obtain rfl : tag = reply := held.tag_eq.symm.trans same
    exact continues state inv held

theorem ScalarTriple.store {word' : Int} {rest : Unit → EmsProg α}
    (continues : ScalarTriple n p (ScalarHeld p idx tag word' element op res)
      (rest ()) post) :
    ScalarTriple n p (ScalarHeld p idx tag word element op res)
      (.access (.store (EMSdataCell idx) word') rest) post := by
  apply Protocol.Triple.access
    (fun _ => ScalarHeld p idx tag word' element op res)
    (ScalarHeld.stable inside below) _ (fun _ => continues)
  intro ghost buf inv held _
  obtain ⟨owned, tagEq, wordEq, elementEq, done⟩ := held
  exact ⟨ghost, .put word' owned, owned,
    tagEq, by simp [scalarMachine, Access.perform],
    elementEq, done⟩

theorem ScalarTriple.release {tag' : Tag} {rest : Unit → EmsProg α}
    (free : tag'.fe ≠ .busy)
    (isScalar : IsScalar tag'.type) (spells : element = elementOf tag' word)
    (continues : ScalarTriple n p (ScalarDone p op res) (rest ()) post) :
    ScalarTriple n p (ScalarHeld p idx tag word element op res)
      (.access (.storeTag (EMSdataCell idx) tag') rest) post := by
  apply Protocol.Triple.access (fun _ => ScalarDone p op res)
    (ScalarHeld.stable inside below) _ (fun _ => continues)
  intro ghost buf inv held _
  obtain ⟨owned, tagEq, wordEq, elementEq, done⟩ := held
  refine ⟨_, .release owned free isScalar ?_, done⟩
  rw [elementEq, spells, wordEq]

end Held

variable (inside : 0 ≤ op.idx) (below : op.idx < n)

include inside below

/-- The compare-and-swap that makes an element busy: the operation takes effect
if it succeeds. -/
theorem ScalarTriple.acquire (old : Tag) {rest : Tag → EmsProg α}
    (free : old.fe ≠ .busy)
    (enabled : ∀ word, (op.apply (elementOf old word)).isSome)
    (succeeds : ∀ word element res, IsScalar old.type →
      op.apply (elementOf old word) = some (element, res) →
      ScalarTriple n p (ScalarHeld p op.idx { old with fe := .busy } word
        element op res)
        (rest old) post)
    (fails : ∀ found, found ≠ old → ScalarTriple n p (ScalarPending p op)
      (rest found) post) :
    ScalarTriple n p (ScalarPending p op)
      (.access (.casTag (EMSdataCell op.idx) old { old with fe := .busy }) rest)
        post := by
  apply Protocol.Triple.access
    (fun found state => if found = old then
        IsScalar old.type ∧ ∃ word element res,
          op.apply (elementOf old word) = some (element, res) ∧
          ScalarHeld p op.idx { old with fe := .busy } word element op res state
      else ScalarPending p op state)
    ScalarPending.stable
  · intro ghost buf inv pending _
    by_cases found : buf.tag (EMSdataCell op.idx) = old
    · -- the tag is not busy, so the element is what the object says
      have here := inv op.idx inside below
      have unowned : ghost.owner op.idx = none := by
        cases owner : ghost.owner op.idx with
        | none => rfl
        | some q =>
            simp only [owner, found] at here
            exact absurd here free
      simp only [unowned] at here
      obtain ⟨-, isScalar, sameElement⟩ := here
      obtain ⟨⟨element, res⟩, applies⟩ := Option.isSome_iff_exists.mp
        (enabled (buf.word (EMSdataCell op.idx)))
      have move :=
        ScalarMove.acquire (p := p) inside below found free pending applies
      simp only [scalarMachine, Access.perform, found, if_true]
      refine ⟨_, move, found ▸ isScalar, _, element, res, applies, ?_⟩
      exact ⟨by simp, by simp, rfl, by simp, by simp⟩
    · simp only [scalarMachine, Access.perform, found, if_false]
      exact ⟨ghost, .quiet (by simp [acquires, found]) (by simp), pending⟩
  · intro found
    by_cases same : found = old
    · rw [same]
      simp only [if_true]
      intro state inv holds
      obtain ⟨isScalar, word, element, res, applies, held⟩ := holds
      exact succeeds word element res isScalar applies state inv held
    · simp only [same, if_false]
      exact fails found same

/-- Waiting for a state and making the element busy. -/
theorem ScalarTriple.transition {oldFE : FE} (patience : Nat)
    {rest : Tag → EmsProg α}
    (free : oldFE ≠ .busy)
    (enabled : ∀ element : Element, element.fe = oldFE →
      (op.apply element).isSome)
    (succeeds : ∀ tag word element res, tag.fe = oldFE → IsScalar tag.type →
      op.apply (elementOf tag word) = some (element, res) →
      ScalarTriple n p (ScalarHeld p op.idx { tag with fe := .busy } word
        element op res)
        (rest { tag with fe := .busy }) post) :
    ScalarTriple n p (ScalarPending p op)
      (EMStransitionFEtag patience (EMSdataCell op.idx) none oldFE .busy >>=
        rest) post := by
  induction patience with
  | zero => exact Protocol.Triple.spin
  | succ patience induction =>
      simp only [EMStransitionFEtag, Prog.perform_bind, Prog.access_bind]
      apply ScalarTriple.quiet ScalarPending.stable (fun _ => rfl)
        (fun _ => rfl)
      · intro cell tag
        simp
      · intro memTag
        refine Protocol.Triple.pre ?_ (fun _ _ holds => holds.1)
        have reacquired : ({ memTag with fe := .busy } : Tag) =
            { ({ memTag with fe := oldFE } : Tag) with fe := .busy } := rfl
        rw [reacquired]
        apply ScalarTriple.acquire inside below _ free
        · intro word
          exact enabled _ rfl
        · intro word element res isScalar applies
          simpa using succeeds _ word element res rfl isScalar applies
        · intro found different
          simpa [different] using induction

/-! ## The operations keep to the protocol -/

variable {rest : Except EMSError EMSvalueType → EmsProg α}

theorem ScalarTriple.readElement {fe : FE} {tag : Tag} {word : Int}
    (patience : Nat)
    (free : fe ≠ .busy) (isScalar : IsScalar tag.type)
    (continues : ScalarTriple n p (ScalarDone p op res)
      (rest (.ok (elementOf tag word).read)) post) :
    ScalarTriple n p
      (ScalarHeld p op.idx { tag with fe := .busy } word
        (elementOf { tag with fe := fe } word) op res)
      (EMS.readElement patience ⟨n, false⟩ op.idx (some fe)
        { tag with fe := .busy } >>= rest)
      post := by
  have release : ScalarTriple n p
      (ScalarHeld p op.idx { tag with fe := .busy } word
        (elementOf { tag with fe := fe } word) op res)
      (.access (.storeTag (EMSdataCell op.idx) { tag with fe := fe })
        fun _ => rest (.ok (elementOf tag word).read)) post :=
    ScalarTriple.release inside below free isScalar rfl continues
  obtain ⟨tagFE, type, rw⟩ := tag
  obtain rfl | rfl | rfl | rfl := isScalar
  · exact ScalarTriple.load inside below release
  · exact ScalarTriple.load inside below release
  · exact ScalarTriple.load inside below release
  · exact release

/-- The loop of a read that waits for full and leaves `fe`. -/
theorem ScalarTriple.readLoop {fe : FE} (patience tries : Nat) (stack : Tag)
    (free : fe ≠ .busy)
    (specified : ∀ tag word, tag.fe = .full → op.apply (elementOf tag word) =
      some (elementOf { tag with fe := fe } word,
        .ok (some (elementOf tag word).read)))
    (continues : ∀ value, ScalarTriple n p (ScalarDone p op (.ok (some value)))
      (rest (.ok value)) post) :
    ScalarTriple n p (ScalarPending p op)
      (EMS.readLoop patience ⟨n, false⟩ op.idx (some .full)
        (some fe) tries stack >>= rest)
      post := by
  induction tries generalizing stack with
  | zero => exact Protocol.Triple.spin
  | succ tries induction =>
      simp only [EMS.readLoop, Prog.perform_bind, Prog.access_bind]
      apply ScalarTriple.quiet ScalarPending.stable (fun _ => rfl)
        (fun _ => rfl)
      · intro cell tag
        simp
      · intro memTag
        refine Protocol.Triple.pre ?_ (fun _ _ holds => holds.1)
        by_cases isFull : memTag.fe = .full
        · obtain ⟨memFE, type, rw⟩ := memTag
          obtain rfl : memFE = .full := isFull
          simp only [mayRead, decide_true, if_true, reduceCtorEq, if_false,
            Prog.access_bind, Option.some.injEq]
          apply ScalarTriple.acquire inside below ⟨.full, type, rw⟩ (by simp)
          · intro word
            simp [specified ⟨.full, type, rw⟩ word rfl]
          · intro word element res isScalar applies
            rw [specified ⟨.full, type, rw⟩ word rfl] at applies
            obtain ⟨rfl, rfl⟩ := Prod.mk.inj (Option.some.inj applies)
            simp only [if_true]
            exact ScalarTriple.readElement inside below patience free isScalar
              (continues _)
          · intro found different
            simpa only [different, if_false] using induction _
        · simpa [mayRead, isFull] using induction stack

section Bodies

variable {tag : Tag} {word : Int}

/-- Storing a scalar value into an element that is held. -/
theorem ScalarTriple.storeValue {element : Element} {value : EMSvalueType}
    (patience : Nat)
    {rest : Except EMSError Unit → EmsProg α} (isScalar : IsScalar value.type)
    (continues : ∀ word', (Element.holding .full value).value =
        (if value.type = .undefined then 0 else word') →
      ScalarTriple n p (ScalarHeld p op.idx tag word' element op res)
        (rest (.ok ())) post) :
    ScalarTriple n p (ScalarHeld p op.idx tag word element op res)
      (EMS.storeValue patience op.idx value >>= rest) post := by
  obtain ⟨type, bits, text, length⟩ := value
  obtain rfl | rfl | rfl | rfl := isScalar
  · exact ScalarTriple.store inside below (continues bits rfl)
  · exact ScalarTriple.store inside below (continues bits rfl)
  · exact ScalarTriple.store inside below (continues bits rfl)
  · exact ScalarTriple.store inside below (continues 0xdeadbeef rfl)

/-- What `EMSwriteUsingTags` does with an element that it holds. -/
theorem ScalarTriple.writeElement {fe : FE} {value : EMSvalueType}
    {oldTag : Tag}
    {rest : Except EMSError Unit → EmsProg α} (patience : Nat)
    (free : fe ≠ .busy)
    (wasScalar : IsScalar oldTag.type) (isScalar : IsScalar value.type)
    (continues : ScalarTriple n p (ScalarDone p op res) (rest (.ok ())) post) :
    ScalarTriple n p (ScalarHeld p op.idx tag word (.holding fe value) op res)
      (EMS.writeElement patience ⟨n, false⟩ op.idx value
        (some fe) oldTag tag >>= rest)
      post := by
  have noString : ¬ (oldTag.type = .string ∨ oldTag.type = .json) := by
    obtain same | same | same | same := wasScalar <;> simp [same]
  simp only [EMS.writeElement, noString, if_false, Prog.pure_eq, bind_assoc]
  apply ScalarTriple.storeValue inside below patience isScalar
  intro word' stored
  simp only [Prog.perform_bind, Prog.access_bind]
  apply ScalarTriple.loadTag inside below
  simp only [ne_eq, not_true_eq_false, if_false, Prog.access_bind, releaseMap,
    Bool.false_eq_true, Prog.pure_eq, Prog.ret_bind]
  apply ScalarTriple.release inside below free isScalar
  · simpa [Element.holding, elementOf] using stored
  · exact continues

theorem ScalarTriple.writeLoop_held {fe old : FE} {value : EMSvalueType}
    {rest : Except EMSError Unit → EmsProg α} (patience tries : Nat)
    (free : fe ≠ .busy)
    (wasScalar : IsScalar tag.type) (isScalar : IsScalar value.type)
    (continues : ScalarTriple n p (ScalarDone p op res) (rest (.ok ())) post) :
    ScalarTriple n p
      (ScalarHeld p op.idx { tag with fe := .busy } word
        (.holding fe value) op res)
      (EMS.writeLoop patience ⟨n, false⟩ value (some old)
        (some fe) tries op.idx >>= rest)
      post := by
  cases tries with
  | zero => exact Protocol.Triple.spin
  | succ tries =>
      simp only [EMS.writeLoop, Int.tmod_eq_of_lt inside below,
        Prog.perform_bind,
        Prog.access_bind]
      apply ScalarTriple.loadTag inside below
      simp only [ne_eq, reduceCtorEq, not_false_eq_true, true_or,
        if_true, if_false]
      exact ScalarTriple.writeElement inside below patience free wasScalar
        isScalar continues

/-- The write loop, where the element is acquired in any state but busy. -/
theorem ScalarTriple.writeLoop {fe : FE} {value : EMSvalueType}
    {rest : Except EMSError Unit → EmsProg α} (patience tries : Nat)
    (free : fe ≠ .busy)
    (isScalar : IsScalar value.type)
    (specified : ∀ element : Element, element.fe ≠ .busy →
      op.apply element = some (.holding fe value, .ok none))
    (continues : ScalarTriple n p (ScalarDone p op (.ok none))
      (rest (.ok ())) post) :
    ScalarTriple n p (ScalarPending p op)
      (EMS.writeLoop patience ⟨n, false⟩ value none
        (some fe) tries op.idx >>= rest)
      post := by
  induction tries with
  | zero => exact Protocol.Triple.spin
  | succ tries induction =>
      simp only [EMS.writeLoop, Int.tmod_eq_of_lt inside below,
        Prog.perform_bind,
        Prog.access_bind]
      apply ScalarTriple.quiet ScalarPending.stable (fun _ => rfl)
        (fun _ => rfl)
      · intro cell tag
        simp
      · intro memTag
        refine Protocol.Triple.pre ?_ (fun _ _ holds => holds.1)
        by_cases isBusy : memTag.fe = .busy
        · simpa [isBusy] using induction
        · simp only [ne_eq, not_true_eq_false, reduceCtorEq, or_self,
            if_false, isBusy,
            not_false_eq_true, if_true, Prog.access_bind]
          apply ScalarTriple.acquire inside below _ isBusy
          · intro word
            simp [specified (elementOf memTag word) isBusy]
          · intro word element res wasScalar applies
            rw [specified (elementOf memTag word) isBusy] at applies
            obtain ⟨rfl, rfl⟩ := Prod.mk.inj (Option.some.inj applies)
            simp only [if_true]
            exact ScalarTriple.writeElement inside below patience free
              wasScalar isScalar
              continues
          · intro found different
            simpa only [different, if_false] using induction

/-- What `EMSfaa` does with an element that it holds: the word becomes the
sum. -/
theorem ScalarTriple.faaElement {element : Element} {value : EMSvalueType}
    {rest : Except EMSError (EMSvalueType × EMSType) → EmsProg α}
    (patience : Nat)
    (wasScalar : IsScalar tag.type) (isScalar : IsScalar value.type)
    (continues : ScalarTriple n p
      (ScalarHeld p op.idx { tag with fe := .busy }
        (scalarSum tag.type (elementOf tag word).value value).2 element op res)
      (rest (.ok ((elementOf tag word).faaOld,
        (scalarSum tag.type (elementOf tag word).value value).1))) post) :
    ScalarTriple n p (ScalarHeld p op.idx { tag with fe := .busy } word
      element op res)
      (EMS.faaElement patience op.idx tag.type value >>= rest) post := by
  obtain ⟨fe, tagType, rw⟩ := tag
  obtain ⟨type, bits, text, length⟩ := value
  obtain rfl | rfl | rfl | rfl := wasScalar
  · obtain rfl | rfl | rfl | rfl :=
      isScalar <;> apply ScalarTriple.load inside below
    · exact ScalarTriple.load inside below
        (ScalarTriple.store inside below continues)
    · exact ScalarTriple.load inside below
        (ScalarTriple.store inside below continues)
    · exact ScalarTriple.load inside below
        (ScalarTriple.store inside below continues)
    · exact ScalarTriple.store inside below continues
  · obtain rfl | rfl | rfl | rfl :=
      isScalar <;> apply ScalarTriple.load inside below
    · exact ScalarTriple.load inside below
        (ScalarTriple.store inside below continues)
    · simp only [EMS.faaInteger, Prog.perform_bind, Prog.access_bind]
      apply ScalarTriple.load inside below
      by_cases large : 2 ^ 30 ≤ toInt64 (word + bits)
      · simp only [scalarSum, elementOf, large, if_true, reduceCtorEq,
          if_false] at continues
        simp only [large, if_true]
        exact ScalarTriple.store inside below continues
      · simp only [scalarSum, elementOf, large, reduceCtorEq,
          if_false] at continues
        simp only [large, if_false]
        exact ScalarTriple.store inside below continues
    · exact ScalarTriple.load inside below
        (ScalarTriple.store inside below continues)
    · exact ScalarTriple.store inside below continues
  · obtain rfl | rfl | rfl | rfl :=
      isScalar <;> apply ScalarTriple.load inside below
    · exact ScalarTriple.load inside below
        (ScalarTriple.store inside below continues)
    · exact ScalarTriple.load inside below
        (ScalarTriple.store inside below continues)
    · exact ScalarTriple.load inside below
        (ScalarTriple.store inside below continues)
    · exact ScalarTriple.store inside below continues
  · obtain rfl | rfl | rfl | rfl :=
      isScalar <;> exact ScalarTriple.store inside below continues

/-- The end of `EMScas` on an element that it holds. -/
theorem ScalarTriple.casFinish {newValue current : EMSvalueType}
    {swapped : Bool}
    {rest : Except EMSError EMSvalueType → EmsProg α} (patience : Nat)
    (sameType : current.type = tag.type) (wasScalar : IsScalar tag.type)
    (isScalar : IsScalar newValue.type)
    (continues : ScalarTriple n p (ScalarDone p op res)
      (rest (.ok current)) post) :
    ScalarTriple n p
      (ScalarHeld p op.idx { tag with fe := .busy } word
        (if swapped then .holding .full newValue
          else elementOf { tag with fe := .full } word)
        op res)
      (EMS.casFinish patience ⟨n, false⟩ op.idx current newValue swapped >>=
        rest) post := by
  cases swapped with
  | false =>
      apply ScalarTriple.release inside below
      · simp
      · exact sameType ▸ wasScalar
      · simp [elementOf, sameType]
      · exact continues
  | true =>
      have noString : ¬ (current.type = .string ∨ current.type = .json) := by
        rw [sameType]
        obtain same | same | same | same := wasScalar <;> simp [same]
      simp only [EMS.casFinish, noString, if_false, if_true,
        Prog.pure_eq, bind_assoc]
      have release : ∀ word', (Element.holding .full newValue).value =
          (if newValue.type = .undefined then 0 else word') →
          ScalarTriple n p
            (ScalarHeld p op.idx { tag with fe := .busy } word'
              (.holding .full newValue) op res)
            (.access (.storeTag (EMSdataCell op.idx) ⟨.full, newValue.type, 0⟩)
              fun _ => rest (.ok current)) post := by
        intro word' stored
        apply ScalarTriple.release inside below (by simp) isScalar
        · simpa [Element.holding, elementOf] using stored
        · exact continues
      obtain ⟨type, bits, text, length⟩ := newValue
      obtain rfl | rfl | rfl | rfl := isScalar
      · exact ScalarTriple.store inside below (release bits rfl)
      · exact ScalarTriple.store inside below (release bits rfl)
      · exact ScalarTriple.store inside below (release bits rfl)
      · exact ScalarTriple.store inside below (release 0xbeeff00d rfl)

end Bodies

end Accesses

/-- The operation has taken effect and returns a value. -/
def ScalarPost (p : ι) (op : ScalarOp) (res : ScalarRes)
    (state : ScalarGhost ι × EmsBuf) :
    Prop :=
  ScalarDone p op res state ∧ ∃ value, res = .ok value

theorem ScalarTriple.returns {p : ι} {op : ScalarOp}
    (value : Option EMSvalueType) :
    ScalarTriple n p (ScalarDone p op (.ok value)) (.ret (.ok value))
      (ScalarPost p op) :=
  Protocol.Triple.ret ScalarDone.stable fun _ _ done => ⟨done, value, rfl⟩

section Unmapped

variable {idx : Int} (patience : Nat) (inside : 0 ≤ idx) (below : idx < n)

include inside below

omit [DecidableEq ι] in
theorem EMSreadUsingTags_unmapped (stack : Tag)
    (initialFE finalFE : Option FE) :
    EMSreadUsingTags patience ⟨n, false⟩ stack (scalar .integer idx)
      initialFE finalFE =
      readLoop patience ⟨n, false⟩ idx initialFE finalFE patience stack := by
  have inRange : ¬ (idx < 0 ∨ n ≤ idx) := by omega
  simp [EMSreadUsingTags,
    EMSkey2index_unmapped patience ⟨n, false⟩ inside below, inRange]

theorem EMSwriteUsingTags_unmapped (value : EMSvalueType)
    (finalFE : Option FE) :
    EMSwriteUsingTags patience ⟨n, false⟩ (scalar .integer idx) value
      none finalFE =
      writeLoop patience ⟨n, false⟩ value none finalFE patience idx := by
  have notNegative : ¬ idx < 0 := by omega
  simp [EMSwriteUsingTags,
    EMSwriteIndexMap_unmapped patience ⟨n, false⟩ rfl inside below, notNegative]

theorem EMSwriteUsingTags_unmapped_waiting (value : EMSvalueType) (fe : FE)
    (finalFE : Option FE) :
    EMSwriteUsingTags patience ⟨n, false⟩ (scalar .integer idx) value
      (some fe) finalFE =
      EMStransitionFEtag patience (EMSdataCell idx) none fe .busy >>= fun _ =>
        writeLoop patience ⟨n, false⟩ value (some fe) finalFE patience idx := by
  have notNegative : ¬ idx < 0 := by omega
  simp [EMSwriteUsingTags, mapTagOf,
    EMSwriteIndexMap_unmapped patience ⟨n, false⟩ rfl inside below, notNegative]

theorem EMScas_unmapped (oldValue newValue : EMSvalueType) :
    EMScas patience ⟨n, false⟩ (scalar .integer idx) oldValue newValue =
      casElement patience ⟨n, false⟩ idx oldValue newValue := by
  have inRange : ¬ (idx < 0 ∨ n ≤ idx) := by omega
  simp [EMScas, EMSkey2index_unmapped patience ⟨n, false⟩ inside below, inRange]

end Unmapped

/-- Every operation keeps to the protocol and returns what its specification
says. -/
theorem ScalarOp.triple {p : ι} (op : ScalarOp) (patience : Nat)
    (inside : 0 ≤ op.idx)
    (below : op.idx < n) (isScalar : op.Scalar) :
    ScalarTriple n p (ScalarPending p op) (op.code n patience)
      (ScalarPost p op) := by
  cases op with
  | readFE stack idx =>
      have lower : 0 ≤ idx := inside
      have upper : idx < n := below
      rw [ScalarOp.code, EMSreadFE,
        EMSreadUsingTags_unmapped patience lower upper,
        ← bind_pure_comp]
      apply ScalarTriple.readLoop inside below patience patience
        stack (by simp)
      · intro tag word isFull
        simp [ScalarOp.apply, elementOf, isFull]
      · exact fun value => ScalarTriple.returns (some value)
  | readFF stack idx =>
      have lower : 0 ≤ idx := inside
      have upper : idx < n := below
      rw [ScalarOp.code, EMSreadFF,
        EMSreadUsingTags_unmapped patience lower upper,
        ← bind_pure_comp]
      apply ScalarTriple.readLoop inside below patience patience
        stack (by simp)
      · intro tag word isFull
        simp [ScalarOp.apply, elementOf, isFull]
      · exact fun value => ScalarTriple.returns (some value)
  | writeEF idx value =>
      have lower : 0 ≤ idx := inside
      have upper : idx < n := below
      rw [ScalarOp.code, EMSwriteEF,
        EMSwriteUsingTags_unmapped_waiting patience lower upper,
        ← bind_pure_comp, bind_assoc]
      apply ScalarTriple.transition inside below patience (by simp)
      · intro element isEmpty
        simp [ScalarOp.apply, isEmpty]
      · intro tag word element res isEmpty wasScalar applies
        simp only [ScalarOp.apply, elementOf, isEmpty, if_true,
          Option.some.injEq,
          Prod.mk.injEq] at applies
        obtain ⟨rfl, rfl⟩ := applies
        exact ScalarTriple.writeLoop_held inside below patience
          patience (by simp) wasScalar isScalar (ScalarTriple.returns none)
  | writeXF idx value =>
      have lower : 0 ≤ idx := inside
      have upper : idx < n := below
      rw [ScalarOp.code, EMSwriteXF,
        EMSwriteUsingTags_unmapped patience lower upper,
        ← bind_pure_comp]
      apply ScalarTriple.writeLoop inside below patience patience
        (by simp) isScalar
      · intro element free
        simp [ScalarOp.apply, free]
      · exact ScalarTriple.returns none
  | writeXE idx value =>
      have lower : 0 ≤ idx := inside
      have upper : idx < n := below
      rw [ScalarOp.code, EMSwriteXE,
        EMSwriteUsingTags_unmapped patience lower upper,
        ← bind_pure_comp]
      apply ScalarTriple.writeLoop inside below patience patience
        (by simp) isScalar
      · intro element free
        simp [ScalarOp.apply, free]
      · exact ScalarTriple.returns none
  | faa idx value =>
      have lower : 0 ≤ idx := inside
      have upper : idx < n := below
      have inRange : ¬ (idx < 0 ∨ n ≤ idx) := by omega
      simp only [ScalarOp.code, EMSfaa, ← bind_pure_comp, bind_assoc]
      rw [EMSwriteIndexMap_unmapped patience ⟨n, false⟩ rfl lower upper]
      simp only [Prog.ret_bind, inRange, if_false, mapTagOf,
        Bool.false_eq_true, bind_assoc]
      apply ScalarTriple.transition inside below patience (by simp)
      · intro element isFull
        simp [ScalarOp.apply, isFull]
      · intro tag word element res isFull wasScalar applies
        simp only [ScalarOp.apply, elementOf, isFull, if_true,
          Option.some.injEq,
          Prod.mk.injEq] at applies
        obtain ⟨rfl, rfl⟩ := applies
        apply ScalarTriple.faaElement inside below patience wasScalar
          isScalar
        have sumType := scalarSum_type tag.type (elementOf tag word).value value
        apply ScalarTriple.release inside below
        · simp
        · exact sumType.elim (fun same => .inr (.inl same))
            (fun same => .inr (.inr (.inl same)))
        · obtain same | same :=
            sumType <;> simp [elementOf] at same ⊢ <;> simp [same]
        · exact ScalarTriple.returns (some _)
  | cas idx oldValue newValue =>
      have lower : 0 ≤ idx := inside
      have upper : idx < n := below
      rw [ScalarOp.code, EMScas_unmapped patience lower upper,
        casElement, ← bind_pure_comp]
      simp only [mapTagOf, Bool.false_eq_true, if_false, bind_assoc]
      apply ScalarTriple.transition inside below patience
        (by simp)
      · intro element isFull
        simp [ScalarOp.apply, isFull]
      · intro tag word element res isFull wasScalar applies
        simp only [ScalarOp.apply, elementOf, isFull, if_true,
          Option.some.injEq,
          Prod.mk.injEq] at applies
        obtain ⟨rfl, rfl⟩ := applies
        apply ScalarTriple.loadTag inside below
        have finish : ∀ current, current.type = tag.type →
            current = (elementOf tag word).casOld →
            ScalarTriple n p
              (ScalarHeld p idx { tag with fe := .busy } word
                (if casEqual oldValue (elementOf tag word).casOld then
                  .holding .full newValue
                  else elementOf { tag with fe := .full } word)
                (.cas idx oldValue newValue)
                  (.ok (some (elementOf tag word).casOld)))
              (casFinish patience ⟨n, false⟩ idx current newValue
                (casEqual oldValue current) >>=
                fun res => .ret (res.map some))
              (ScalarPost p (.cas idx oldValue newValue)) := by
          intro current sameType same
          subst same
          exact ScalarTriple.casFinish inside below patience
            sameType wasScalar isScalar.2 (ScalarTriple.returns (some _))
        obtain ⟨fe, type, rw⟩ := tag
        obtain rfl : fe = .full := isFull
        obtain rfl | rfl | rfl | rfl := wasScalar
        · exact ScalarTriple.load inside below
            (finish _ rfl rfl)
        · exact ScalarTriple.load inside below
            (finish _ rfl rfl)
        · exact ScalarTriple.load inside below
            (finish _ rfl rfl)
        · exact finish _ rfl rfl

theorem scalarImplements :
    (scalarProtocol ι n).Implements (scalarMachine ι n)
      (fun p state => state.1.spec.phase p = .idle) ScalarPost where
  idleStable := by
    intro p q label state next different _ idle move
    exact (move.phase_other different).trans idle
  calls := by
    intro p op patience ghost buf inv idle admitted
    obtain ⟨inside, below, isScalar⟩ := admitted
    have move : ScalarMove n p (.call op) (ghost, buf) _ := .call op idle
    exact ⟨_, move, op.triple patience inside below isScalar _
      ((scalarProtocol ι n).keeps inv move)
        (AtomicObject.State.setPhase_same _ _ _)⟩
  returns := by
    intro p op res ghost buf _ post
    exact ⟨_, .ret post.1, AtomicObject.State.setPhase_same _ _ _⟩

/-! ## Results about runs -/

/-- Who is between making the element busy and storing its next tag. -/
def holders (idx : Int) (trace : List (ι × ScalarLabel)) : List ι :=
  trace.foldl (fun held label =>
    match label with
    | (p, .access (.casTag cell old new) found) =>
        if cell = EMSdataCell idx ∧
          acquires (.casTag cell old new) found then p :: held
        else held
    | (p, .access (.storeTag cell _) ()) =>
        if cell = EMSdataCell idx then held.erase p else held
    | _ => held) []

omit [CRuntime] in
private theorem holders_snoc (idx : Int) (trace : List (ι × ScalarLabel))
    (label : ι × ScalarLabel) :
    holders idx (trace ++ [label]) =
      match label with
      | (p, .access (.casTag cell old new) found) =>
          if cell = EMSdataCell idx ∧ acquires (.casTag cell old new) found then
            p :: holders idx trace
          else holders idx trace
      | (p, .access (.storeTag cell _) ()) =>
          if cell = EMSdataCell idx then (holders idx trace).erase p
            else holders idx trace
      | _ => holders idx trace := by
  simp only [holders, List.foldl_append, List.foldl_cons, List.foldl_nil]

/-- In a run of the protocol the holder of an element is its owner. -/
theorem scalar_holders {ghost ghost' : ScalarGhost ι} {buf buf' : EmsBuf}
    (initially : ScalarInv n (ghost, buf))
    (unowned : ∀ idx, ghost.owner idx = none)
    {trace : List (ι × ScalarLabel)}
    (run : Run (scalarProtocol ι n).Step (ghost, buf) trace (ghost', buf'))
    {idx : Int}
    (inside : 0 ≤ idx) (below : idx < n) :
    holders idx trace = (ghost'.owner idx).toList := by
  generalize final : (ghost', buf') = state at run
  obtain rfl : state.1 = ghost' := by rw [← final]
  clear final
  induction run with
  | nil => simp [holders, unowned]
  | @snoc trace state next label before move induction =>
      have inv : ScalarInv n state := Run.invariant (ScalarInv n)
        (fun _ _ _ inv move => ScalarInv.move inv move) before initially
      obtain ⟨p, label⟩ := label
      have moved : ScalarMove n p label state next := move
      rw [holders_snoc]
      cases moved with
      | call op idle => exact induction
      | @quiet ghost buf act reply noCommit noStore =>
          cases act with
          | casTag cell old new => simpa [noCommit] using induction
          | storeTag cell tag => exact absurd rfl (noStore cell tag)
          | _ => exact induction
      | @acquire ghost buf op element res tag inside' below' found free
            pending applies =>
          have here := inv idx inside below
          by_cases same : op.idx = idx
          · subst same
            cases owner : ghost.owner op.idx with
            | none =>
                rw [owner] at induction
                simp [acquires, free, induction]
            | some q =>
                simp only [owner] at here
                exact absurd (found ▸ here) free
          · simpa [same, Ne.symm same] using induction
      | @put ghost buf held word owned => exact induction
      | @release ghost buf held tag owned free isScalar spells =>
          by_cases same : held = idx
          · subst same
            rw [owned] at induction
            simp [induction]
          · simpa [same, Ne.symm same] using induction
      | ret done => exact induction

/-- A move of the protocol is a step of the atomic object, or none. -/
theorem ScalarMove.refines {p : ι} {label : ScalarLabel}
    {state next : ScalarGhost ι × EmsBuf}
    (inv : ScalarInv n state) (move : ScalarMove n p label state next) :
    match scalarEvent (p, label) with
    | none => next.1.spec = state.1.spec
    | some event =>
        AtomicObject.Step ScalarOp.effect state.1.spec event next.1.spec := by
  cases move with
  | call op idle => exact .call op idle
  | quiet noCommit noStore => simp [scalarEvent, noCommit]
  | @acquire ghost buf op element res tag inside below found free
        pending applies =>
      have here := inv op.idx inside below
      have unowned : ghost.owner op.idx = none := by
        cases owner : ghost.owner op.idx with
        | none => rfl
        | some q =>
            simp only [owner] at here
            exact absurd (found ▸ here) free
      simp only [unowned] at here
      have event : scalarEvent (p, .access
          (.casTag (EMSdataCell op.idx) tag { tag with fe := .busy }) tag) =
          some (p, .commit) := by
        simp [scalarEvent, acquires, free]
      rw [event]
      refine .commit pending ⟨element, ?_, rfl⟩
      rw [here.2.2, EmsBuf.elements, found]
      exact applies
  | put word owned => simp [scalarEvent, acquires]
  | release owned free isScalar spells => simp [scalarEvent, acquires]
  | ret done => exact .ret done

theorem scalar_simulates {start finish : ScalarGhost ι × EmsBuf}
    (initially : ScalarInv n start)
    {trace : List (ι × ScalarLabel)}
    (run : Run (scalarProtocol ι n).Step start trace finish) :
    ∃ final, Run (AtomicObject.Step ScalarOp.effect) start.1.spec
      (trace.filterMap scalarEvent) final ∧ finish.1.spec = final := by
  have silent : ∀ state label next spec, ScalarInv n state ∧
      state.1.spec = spec →
      (scalarProtocol ι n).Step state label next → scalarEvent label = none →
      ScalarInv n next ∧ next.1.spec = spec := by
    intro state label next spec related move hidden
    have refines := ScalarMove.refines related.1 move
    rw [hidden] at refines
    exact ⟨ScalarInv.move related.1 move, refines.trans related.2⟩
  have visible : ∀ state label next spec event, ScalarInv n state ∧
      state.1.spec = spec →
      (scalarProtocol ι n).Step state label next → scalarEvent label =
        some event →
      ∃ specNext, AtomicObject.Step ScalarOp.effect spec event specNext ∧
        ScalarInv n next ∧ next.1.spec = specNext := by
    intro state label next spec event related move visible
    have refines := ScalarMove.refines related.1 move
    rw [visible] at refines
    exact ⟨next.1.spec, related.2 ▸ refines, ScalarInv.move related.1 move, rfl⟩
  obtain ⟨final, specRun, -, sameSpec⟩ :=
    Run.simulate scalarEvent _ silent visible run ⟨initially, rfl⟩
  exact ⟨final, specRun, sameSpec⟩

variable (n) in
/-- What holds of every run of scalar operations. -/
structure ScalarAtomic (buf : EmsBuf) (trace : List (ι × ScalarLabel))
    (config : (scalarMachine ι n).State) : Prop where
  exclusive : ∀ idx, 0 ≤ idx → idx < n → (holders idx trace).length ≤ 1
  neverLost : ∀ p op,
    config.control p ≠ .running op (.ret (.error .lostTagLock))
  linearizable : ∃ final : ScalarState ι,
    Run (AtomicObject.Step ScalarOp.effect) (AtomicObject.initial buf.elements)
      (trace.filterMap scalarEvent) final ∧
    ∀ idx, 0 ≤ idx → idx < n →
      (config.shared.tag (EMSdataCell idx)).fe ≠ .busy →
      final.object idx = config.shared.elements idx

/-- Scalar operations on an unmapped array are atomic: at most one process at a
time holds an element, the tag lock is never lost, and the calls, the
transitions to busy and the returns of a run are a run of the atomic object. -/
theorem scalar_atomic {buf : EmsBuf}
    (elements : ∀ idx, 0 ≤ idx → idx < n →
      (buf.tag (EMSdataCell idx)).fe ≠ .busy ∧
      IsScalar (buf.tag (EMSdataCell idx)).type)
    {trace : List (ι × ScalarLabel)} {config : (scalarMachine ι n).State}
    (run : Run (scalarMachine ι n).Step
      ((scalarMachine ι n).start buf) trace config) :
    ScalarAtomic n buf trace config := by
  let ghost : ScalarGhost ι :=
    ⟨fun _ => none, AtomicObject.initial buf.elements⟩
  have initially : ScalarInv n (ghost, buf) := by
    intro idx inside below
    exact ⟨(elements idx inside below).1, (elements idx inside below).2, rfl⟩
  obtain ⟨ghost', abstractRun, inv, everybody⟩ :=
    (scalarImplements (ι := ι) (n := n)).run ghost initially (fun _ => rfl) run
  constructor
  · intro idx inside below
    rw [scalar_holders initially (fun _ => rfl) abstractRun inside below]
    cases ghost'.owner idx <;> simp
  · intro p op lost
    have here := everybody p
    rw [lost] at here
    obtain ⟨-, value, isOk⟩ := here _ .refl
    cases isOk
  · obtain ⟨final, specRun, sameSpec⟩ := scalar_simulates initially abstractRun
    refine ⟨final, specRun, fun idx inside below free => ?_⟩
    have here := inv idx inside below
    cases owner : ghost'.owner idx with
    | none =>
        simp only [owner] at here
        rw [← sameSpec]
        exact here.2.2
    | some q =>
        simp only [owner] at here
        exact absurd here free

end Protocol

/-- Two processes on an array with one element: one reads, and the other one
fails to write while the first one holds the element. -/
def readingSchedule : List (Fin 2 × Choice ScalarOp) :=
  [(0, .call (.readFF ⟨.full, .invalid, 0⟩ 0) 2), (0, .go),
    (1, .call (.writeXF 0 (scalar .integer 9)) 2), (1, .go),
    (0, .go), (1, .go), (0, .go), (0, .go), (0, .go)]

/-- The process has read the value. -/
def hasRead (p : Fin 2) (value : EMSvalueType)
    (trace : List (Fin 2 × ScalarLabel)) : Bool :=
  trace.any fun label => match label with
    | (q, .ret _ (.ok (some read))) => q = p ∧ read = value
    | _ => false

theorem scalar_atomic_reading :
    letI := ieeeRuntime
    ∃ trace config, ScalarAtomic (ι := Fin 2) 1
      (uniformBuf ⟨.full, .integer, 0⟩ 7)
      trace config ∧ hasRead 0 (scalar .integer 7) trace = true := by
  let _ : CRuntime := ieeeRuntime
  obtain ⟨trace, config, run, read⟩ := (scalarMachine (Fin 2) 1).exists_run
    ((scalarMachine (Fin 2) 1).start (uniformBuf ⟨.full, .integer, 0⟩ 7))
      readingSchedule
    (fun played => hasRead 0 (scalar .integer 7) played.1) (by decide)
  exact ⟨trace, config, scalar_atomic
    (fun _ _ _ => ⟨by simp [uniformBuf], .inr (.inl rfl)⟩) run, read⟩

end EMS
