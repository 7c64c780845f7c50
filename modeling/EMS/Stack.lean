import EMS.AtomicObject
import EMS.Slots

/-!
# The stack is linearizable

While the tag of `STACKTOP` is busy, all of the stack belongs to the process
that made it so.  Each push and each pop takes effect when it makes the tag
busy, and it has put the stack in order again when it stores the tag as full.
-/

namespace EMS

open SharedProgram Interleaving

inductive StackOp where
  | push (value : EMSvalueType)
  | pop

/-! ## The sequential specification -/

/-- The stack after an operation, and what the operation returns.  The last
element of the list is the top. -/
def StackOp.apply (stack : List EMSvalueType) :
    StackOp → List EMSvalueType × EntryRes
  | .push value => (stack ++ [value], .index (.ok stack.length))
  | .pop =>
      match stack.getLast? with
      | none => ([], .value (.ok nothingThere))
      | some value => (stack.dropLast, .value (.ok value.back))

/-- The stack as one atomic object. -/
def StackOp.effect (op : StackOp) (stack next : List EMSvalueType)
    (res : EntryRes) : Prop :=
  op.apply stack = (next, res)

/-! ## The machine -/

def StackOp.code (array : EmsArray) (op : StackOp) (patience : Nat) :
    EmsProg EntryRes :=
  match op with
  | .push value => EntryRes.index <$> EMSpush patience array value
  | .pop => EntryRes.value <$> EMSpop patience

def StackOp.Fits : StackOp → Prop
  | .push value => value.Fits
  | .pop => True

instance StackOp.decidableFits : (op : StackOp) → Decidable op.Fits
  | .push value => inferInstanceAs (Decidable value.Fits)
  | .pop => isTrue trivial

/-- No push reaches the capacity check, and no allocation fails. -/
def StackPermits (array : EmsArray) : Access → EmsBuf → Prop
  | .store cell word, buf =>
      cell = stackTop → 0 ≤ buf.word stackTop → word = buf.word stackTop + 1 →
        word < array.nElem
  | .memAlloc bytes, buf => Serves buf.mem bytes
  | _, _ => True

instance StackPermits.decidable (array : EmsArray) :
    (act : Access) → (buf : EmsBuf) →
    Decidable (StackPermits array act buf)
  | .store cell word, buf => inferInstanceAs (Decidable
      (cell = stackTop → 0 ≤ buf.word stackTop → word = buf.word stackTop + 1 →
        word < array.nElem))
  | .memAlloc bytes, buf => inferInstanceAs (Decidable (Serves buf.mem bytes))
  | .load _, _ | .loadTag _, _ | .storeTag _ _, _ | .casTag _ _ _,
        _ | .casMutex _ _, _
  | .storeMutex _, _ | .memFree _, _ | .loadByte _, _ | .storeByte _ _, _ =>
      isTrue trivial

/-- Any number of processes that push and pop. -/
def stackMachine (ι : Type) (array : EmsArray) :
    Machine ι EmsBuf Access Reply StackOp EntryRes where
  perform := fun _ => Access.perform
  code := fun _ op patience => op.code array patience
  admits := fun _ op _ => op.Fits
  permits := fun _ act buf => StackPermits array act buf

instance stackMachine.decidableAdmits {ι : Type} (array : EmsArray) (p : ι)
    (op : StackOp) (buf : EmsBuf) :
    Decidable ((stackMachine ι array).admits p op buf) :=
  inferInstanceAs (Decidable op.Fits)

instance stackMachine.decidablePermits {ι : Type} (array : EmsArray) (p : ι)
    (act : Access) (buf : EmsBuf) :
    Decidable ((stackMachine ι array).permits p act buf) :=
  inferInstanceAs (Decidable (StackPermits array act buf))

abbrev StackLabel := Label Access Reply StackOp EntryRes

abbrev StackEvent := AtomicObject.Event StackOp EntryRes

abbrev StackState (ι : Type) :=
  AtomicObject.State ι (List EMSvalueType) StackOp EntryRes

/-- A compare-and-swap that makes the tag of `STACKTOP` busy. -/
def locksStack (act : Access) (reply : Reply act) : Bool :=
  match act, reply with
  | .casTag cell old new, found =>
      cell = stackTop ∧ found = old ∧ new.fe = .busy
  | _, _ => false

/-- What is visible of a step: calls, returns, and the moves of the tag of
`STACKTOP` to busy. -/
def stackEvent {ι : Type} (label : ι × StackLabel) : Option (ι × StackEvent) :=
  match label with
  | (p, .call op) => some (p, .call op)
  | (p, .access act reply) =>
      if locksStack act reply then some (p, .commit) else none
  | (p, .ret op res) => some (p, .ret op res)

/-! ## A stack in memory -/

/-- The entries below the top hold the values, the topmost first.  Their blocks
are live, and so are the blocks that are kept for others. -/
def Entries (buf : EmsBuf) (kept : List Block) :
    List EMSvalueType → List Block → Prop
  | [], live => live = kept
  | value :: below, live => ∃ blocks under, live = blocks ++ under ∧
      SlotHolds buf below.length value blocks ∧ Entries buf kept below under

theorem Entries.same {buf buf' : EmsBuf} {kept : List Block}
    {values : List EMSvalueType}
    {live : List Block}
    (slots : ∀ i : Nat, i < values.length →
      buf'.tag (EMSdataCell i) = buf.tag (EMSdataCell i) ∧
        buf'.word (EMSdataCell i) = buf.word (EMSdataCell i))
    (heap : ∀ block ∈ live, block.Same buf.heap buf'.heap)
    (entries : Entries buf kept values live) :
    Entries buf' kept values live := by
  induction values generalizing live with
  | nil => exact entries
  | cons value below induction =>
      obtain ⟨blocks, under, rfl, ⟨type, contents⟩, rest⟩ := entries
      obtain ⟨sameTag, sameWord⟩ := slots below.length (by simp)
      refine ⟨blocks, under, rfl, ⟨sameTag ▸ type, ?_⟩, ?_⟩
      · rw [sameWord]
        exact contents.same fun block member =>
          heap block (List.mem_append_left _ member)
      · refine induction (fun i inside => slots i ?_) ?_ rest
        · exact inside.trans (by simp)
        · exact fun block member => heap block (List.mem_append_right _ member)

/-- The memory holds the stack, and nobody is working on it. -/
structure StackShape (array : EmsArray) (level : Nat) (kept : List Block)
    (buf : EmsBuf)
    (stack : List EMSvalueType) : Prop where
  top : buf.word stackTop = stack.length
  free : (buf.tag stackTop).fe = .full
  room : stack = [] ∨ (stack.length : Int) < array.nElem
  filled : ∀ i : Int, 0 ≤ i → i < array.nElem →
    (buf.tag (EMSdataCell i)).fe = if i < stack.length then .full else .empty
  mutex : buf.memMutex = .empty
  entries : ∃ live, (∃ tree, HeapShape level ⟨buf.mem, live⟩ tree) ∧
    Entries buf kept stack.reverse live

section Shape

variable {array : EmsArray} {level : Nat} {kept : List Block}
  {buf after : EmsBuf}
  {stack : List EMSvalueType} {value : EMSvalueType}

/-- The stack with one more entry. -/
theorem StackShape.push {live blocks : List Block}
    (shape : StackShape array level kept buf stack)
    (entries : Entries buf kept stack.reverse live)
    (room : (stack.length : Int) + 1 < array.nElem)
    (top : after.word stackTop = stack.length + 1)
    (free : (after.tag stackTop).fe = .full)
    (mutex : after.memMutex = .empty)
    (others : ∀ i : Int, 0 ≤ i → i ≠ stack.length →
      after.tag (EMSdataCell i) = buf.tag (EMSdataCell i) ∧
        after.word (EMSdataCell i) = buf.word (EMSdataCell i))
    (full : (after.tag (EMSdataCell stack.length)).fe = .full)
    (holds : SlotHolds after stack.length value blocks)
    (heap : ∀ block ∈ live, block.Same buf.heap after.heap)
    (heapShape : ∃ tree, HeapShape level ⟨after.mem, blocks ++ live⟩ tree) :
    StackShape array level kept after (stack ++ [value]) where
  top := by simpa using top
  free := free
  room := .inr (by simpa using room)
  filled := by
    intro i inside below
    simp only [List.length_append, List.length_singleton, Nat.cast_add,
      Nat.cast_one]
    by_cases same : i = stack.length
    · rw [same, full, if_pos (by omega)]
    · rw [(others i inside same).1, shape.filled i inside below]
      congr 1
      simp only [eq_iff_iff]
      omega
  mutex := mutex
  entries := by
    refine ⟨blocks ++ live, heapShape, ?_⟩
    rw [List.reverse_append, List.reverse_singleton, List.singleton_append]
    refine ⟨blocks, live,
      rfl, by simpa using holds, entries.same (fun i inside => ?_) heap⟩
    rw [List.length_reverse] at inside
    exact others i (by omega) (by omega)

/-- The stack with one entry less. -/
theorem StackShape.pop {live : List Block}
    (shape : StackShape array level kept buf (stack ++ [value]))
    (entries : Entries buf kept stack.reverse live)
    (top : after.word stackTop = stack.length)
    (free : (after.tag stackTop).fe = .full)
    (mutex : after.memMutex = .empty)
    (others : ∀ i : Int, 0 ≤ i → i ≠ stack.length →
      after.tag (EMSdataCell i) = buf.tag (EMSdataCell i) ∧
        after.word (EMSdataCell i) = buf.word (EMSdataCell i))
    (empty : (after.tag (EMSdataCell stack.length)).fe = .empty)
    (heap : after.heap = buf.heap)
    (heapShape : ∃ tree, HeapShape level ⟨after.mem, live⟩ tree) :
    StackShape array level kept after stack where
  top := top
  free := free
  room := by
    have room := shape.room.resolve_left (by simp)
    simp only [List.length_append, List.length_singleton, Nat.cast_add,
      Nat.cast_one] at room
    exact .inr (by omega)
  filled := by
    intro i inside below
    by_cases same : i = stack.length
    · rw [same, empty, if_neg (by omega)]
    · rw [(others i inside same).1, shape.filled i inside below]
      simp only [List.length_append, List.length_singleton, Nat.cast_add,
        Nat.cast_one]
      congr 1
      simp only [eq_iff_iff]
      omega
  mutex := mutex
  entries := by
    refine ⟨live, heapShape, entries.same (fun i inside => ?_) ?_⟩
    · rw [List.length_reverse] at inside
      exact others i (by omega) (by omega)
    · exact fun block _ a _ _ => by rw [heap]

end Shape

/-! ## The protocol -/

section Protocol

variable {ι : Type} [DecidableEq ι] {array : EmsArray} {level : Nat}
  {kept : List Block}

/-- Who holds the stack, and the state of the atomic object. -/
structure StackGhost (ι : Type) where
  owner : Option ι
  spec : StackState ι

/-- The moves of a process on the stack. -/
inductive StackMove (array : EmsArray) (level : Nat)
    (kept : List Block) (p : ι) :
    StackLabel → StackGhost ι × EmsBuf → StackGhost ι × EmsBuf → Prop where
  | call {ghost : StackGhost ι} {buf : EmsBuf} (op : StackOp) :
      ghost.spec.phase p = .idle →
      StackMove array level kept p (.call op) (ghost, buf)
        ({ ghost with spec := ghost.spec.setPhase p (.pending op) }, buf)
  | quiet {ghost : StackGhost ι} {buf : EmsBuf} {act : Access}
      {reply : Reply act} :
      locksStack act reply = false →
      StackMove array level kept p (.access act reply) (ghost, buf) (ghost, buf)
  | acquire {ghost : StackGhost ι} {buf : EmsBuf} {op : StackOp}
      {next : List EMSvalueType}
      {res : EntryRes} {tag : Tag} :
      buf.tag stackTop = tag → tag.fe = .full → ghost.spec.phase p =
        .pending op →
      op.effect ghost.spec.object next res →
      StackMove array level kept p
        (.access (.casTag stackTop tag { tag with fe := .busy }) tag)
          (ghost, buf)
        (⟨some p, { ghost.spec with object := next }.setPhase p (.done op res)⟩,
          buf.setTag stackTop { tag with fe := .busy })
  | work {ghost : StackGhost ι} {buf : EmsBuf} (act : Access) :
      ghost.owner = some p → act.tagged ≠ some stackTop →
      StackMove array level kept p (.access act (act.perform buf).1)
        (ghost, buf)
        (ghost, (act.perform buf).2)
  | release {ghost : StackGhost ι} {buf : EmsBuf} (tag : Tag) :
      ghost.owner = some p →
      StackShape array level kept (buf.setTag stackTop tag) ghost.spec.object →
      StackMove array level kept p (.access (.storeTag stackTop tag) ())
        (ghost, buf)
        (⟨none, ghost.spec⟩, buf.setTag stackTop tag)
  | ret {ghost : StackGhost ι} {buf : EmsBuf} {op : StackOp} {res : EntryRes} :
      ghost.spec.phase p = .done op res →
      StackMove array level kept p (.ret op res) (ghost, buf)
        ({ ghost with spec := ghost.spec.setPhase p .idle }, buf)

/-- The stack is in order when nobody holds it, and locked when somebody
does. -/
def StackInv (array : EmsArray) (level : Nat) (kept : List Block)
    (state : StackGhost ι × EmsBuf) : Prop :=
  match state.1.owner with
  | some _ => (state.2.tag stackTop).fe = .busy
  | none => StackShape array level kept state.2 state.1.spec.object

theorem StackInv.move {p : ι} {label : StackLabel}
    {state next : StackGhost ι × EmsBuf}
    (inv : StackInv array level kept state)
    (move : StackMove array level kept p label state next) :
    StackInv array level kept next := by
  cases move with
  | call op idle => exact inv
  | quiet hidden => exact inv
  | acquire found free pending applies => simp [StackInv]
  | work act owned untouched =>
      simp only [StackInv, owned] at inv ⊢
      rw [Access.perform_tag untouched]
      exact inv
  | release tag owned shape => exact shape
  | ret done => exact inv

variable (ι array level kept) in
def stackProtocol :
    Protocol ι EmsBuf Access Reply StackOp EntryRes (StackGhost ι) where
  move := StackMove array level kept
  inv := StackInv array level kept
  keeps := StackInv.move

variable {p : ι} {op : StackOp} {res : EntryRes}

/-- The process has called the operation, and it has not taken effect. -/
def StackPending (p : ι) (op : StackOp)
    (state : StackGhost ι × EmsBuf) : Prop :=
  state.1.spec.phase p = .pending op

/-- The operation has taken effect and is to return the result. -/
def StackDone (p : ι) (op : StackOp) (res : EntryRes)
    (state : StackGhost ι × EmsBuf) : Prop :=
  state.1.spec.phase p = .done op res

/-- The process holds the stack, which is to become `stack`, and knows the
memory. -/
structure StackHeld (p : ι) (op : StackOp) (res : EntryRes)
    (stack : List EMSvalueType)
    (buf : EmsBuf) (state : StackGhost ι × EmsBuf) : Prop where
  owned : state.1.owner = some p
  done : state.1.spec.phase p = .done op res
  object : state.1.spec.object = stack
  memory : state.2 = buf

theorem StackMove.phase_other {q : ι} {label : StackLabel}
    {state next : StackGhost ι × EmsBuf}
    (different : q ≠ p) (move : StackMove array level kept q label state next) :
    next.1.spec.phase p = state.1.spec.phase p := by
  cases move with
  | call op idle => exact AtomicObject.State.setPhase_other _ different.symm _
  | quiet hidden => rfl
  | acquire found free pending applies =>
      exact AtomicObject.State.setPhase_other _ different.symm _
  | work act owned untouched => rfl
  | release tag owned shape => rfl
  | ret done => exact AtomicObject.State.setPhase_other _ different.symm _

theorem StackPending.stable :
    (stackProtocol ι array level kept).Stable p (StackPending p op) := by
  intro q label state next different _ pending move
  exact (move.phase_other different).trans pending

theorem StackDone.stable :
    (stackProtocol ι array level kept).Stable p (StackDone p op res) := by
  intro q label state next different _ done move
  exact (move.phase_other different).trans done

/-- Nobody else touches a stack that is held. -/
theorem StackHeld.stable {stack : List EMSvalueType} {buf : EmsBuf} :
    (stackProtocol ι array level kept).Stable p
    (StackHeld p op res stack buf) := by
  intro q label state next different inv held move
  obtain ⟨owned, done, object, memory⟩ := held
  have sameDone := (StackMove.phase_other different move).trans done
  have notMine : state.1.owner ≠ some q := by
    rw [owned]
    exact fun same => different (Option.some.inj same).symm
  have locked : (state.2.tag stackTop).fe = .busy := by
    have here : StackInv array level kept state := inv
    simpa only [StackInv, owned] using here
  cases move with
  | call op idle => exact ⟨owned, sameDone, object, memory⟩
  | quiet hidden => exact ⟨owned, sameDone, object, memory⟩
  | acquire found free pending applies =>
      rw [found, free] at locked
      cases locked
  | work act mine untouched => exact absurd mine notMine
  | release tag mine shape => exact absurd mine notMine
  | ret returned => exact ⟨owned, sameDone, object, memory⟩

/-! ## Programs that keep to the protocol -/

abbrev StackTriple {α : Type} (array : EmsArray) (level : Nat)
    (kept : List Block) (p : ι)
    (pre : StackGhost ι × EmsBuf → Prop) (prog : EmsProg α)
    (post : α → StackGhost ι × EmsBuf → Prop) : Prop :=
  (stackProtocol ι array level kept).Triple (stackMachine ι array) p
    pre prog post

/-- The holder of the stack is alone on the memory. -/
abbrev stackSolo (array : EmsArray) : Solo EmsBuf Access Reply :=
  emsSolo (StackPermits array) (fun act => act.tagged ≠ some stackTop) True

variable {α β : Type} {post : β → StackGhost ι × EmsBuf → Prop}
  {stack : List EMSvalueType}
  {buf : EmsBuf}

theorem StackTriple.undisturbed {prog : EmsProg α} {rest : α → EmsProg β}
    (ends : (stackSolo array).Ends (fun value after =>
      StackTriple array level kept p (StackHeld p op res stack after)
        (rest value) post)
      prog buf) :
    StackTriple array level kept p (StackHeld p op res stack buf)
      (prog >>= rest) post := by
  refine Solo.triple (stackSolo array) (StackHeld p op res stack)
    (fun _ => StackHeld.stable) ?_ ends
  intro act known ghost memory _ held permitted
  obtain ⟨owned, done, object, memoryEq⟩ := held
  obtain rfl : memory = known := memoryEq
  exact ⟨permitted, fun untouched => ⟨ghost, .work act owned untouched, rfl,
    owned, done, object, rfl⟩⟩

theorem StackTriple.ends {middle : α → EmsBuf → Prop} {prog : EmsProg α}
    {rest : α → EmsProg β}
    (ends : (stackSolo array).Ends middle prog buf)
    (continues : ∀ value after, middle value after →
      StackTriple array level kept p (StackHeld p op res stack after)
        (rest value) post) :
    StackTriple array level kept p (StackHeld p op res stack buf)
      (prog >>= rest) post :=
  StackTriple.undisturbed (ends.mono continues)

theorem StackTriple.yields {prog : EmsProg α} {rest : α → EmsProg β} {value : α}
    {after : EmsBuf} (yields : (stackSolo array).Yields prog buf value after)
    (continues :
      StackTriple array level kept p (StackHeld p op res stack after)
        (rest value) post) :
    StackTriple array level kept p (StackHeld p op res stack buf)
      (prog >>= rest) post := by
  apply StackTriple.ends yields
  rintro _ _ ⟨rfl, rfl⟩
  exact continues

/-- An operation takes effect when the tag of `STACKTOP` becomes busy. -/
theorem StackTriple.acquire {rest : Tag → EmsProg β} {patience : Nat}
    (continues : ∀ (buf : EmsBuf) (tag : Tag) (stack next : List EMSvalueType)
      (res : EntryRes),
      StackShape array level kept buf stack →
      op.effect stack next res →
      StackTriple array level kept p
        (StackHeld p op res next (buf.setTag stackTop { tag with fe := .busy }))
        (rest { tag with fe := .busy }) post) :
    StackTriple array level kept p (StackPending p op)
      (EMStransitionFEtag patience stackTop none .full .busy >>=
        rest) post := by
  refine EMStransitionFEtag_triple id (fun _ _ _ => rfl)
    (fun tag state => ∃ before stack next res,
      StackShape array level kept before stack ∧
      op.effect stack next res ∧ StackHeld p op res next
        (before.setTag stackTop { tag with fe := .busy }) state)
    StackPending.stable ?_ ?_ ?_ ?_
  · intro ghost buf _ pending
    exact ⟨ghost, .quiet rfl, pending⟩
  · intro ghost buf old new _ pending different
    have different : buf.tag stackTop ≠ old := different
    simp only [stackMachine, Access.perform, if_neg different]
    exact ⟨ghost, .quiet (by simp [locksStack, different]), pending⟩
  · intro ghost buf tag inv pending full found
    have found : buf.tag stackTop = tag := found
    have here : StackInv array level kept (ghost, buf) := inv
    have unowned : ghost.owner = none := by
      cases owner : ghost.owner with
      | none => rfl
      | some q =>
          simp only [StackInv, owner, found, full] at here
          cases here
    simp only [StackInv, unowned] at here
    obtain ⟨⟨next, res⟩, applies⟩ : ∃ outcome,
      op.apply ghost.spec.object = outcome := ⟨_, rfl⟩
    simp only [stackMachine, Access.perform, found, if_true]
    exact ⟨_, .acquire found full pending applies, buf, _, next, res, here,
      applies, rfl,
      AtomicObject.State.setPhase_same _ _ _, rfl, rfl⟩
  · rintro tag state inv ⟨before, stack, next, res, shape, applies, held⟩
    exact continues before tag stack next res shape applies state inv held

/-- The holder puts the stack in order and returns. -/
theorem StackTriple.release {post : EntryRes → StackGhost ι × EmsBuf → Prop}
    (shape : StackShape array level kept
      (buf.setTag stackTop { buf.tag stackTop with fe := .full }) stack)
    (ends : ∀ state, StackDone p op res state → post res state) :
    StackTriple array level kept p (StackHeld p op res stack buf)
      (storeFE stackTop .full >>= fun _ => .ret res) post := by
  rw [storeFE, bind_assoc]
  apply StackTriple.undisturbed
  refine fun _ => ⟨by simp [Access.tagged], ?_⟩
  refine Protocol.Triple.access (fun _ => StackDone p op res)
    StackHeld.stable ?_ ?_
  · rintro ghost memory _ ⟨owned, done, rfl, rfl⟩ _
    exact ⟨_, .release _ owned shape, done⟩
  · intro reply
    exact Protocol.Triple.ret StackDone.stable fun state _ done =>
      ends state done

/-! ## The operations keep to the protocol -/

theorem StackTriple.load {cell : Cell} {rest : Int → EmsProg β}
    (continues : StackTriple array level kept p (StackHeld p op res stack buf)
      (rest (buf.word cell)) post) :
    StackTriple array level kept p (StackHeld p op res stack buf)
      (EMS.load cell >>= rest) post := by
  apply StackTriple.undisturbed
  exact fun _ => ⟨by simp [Access.tagged], continues⟩

theorem StackTriple.store {cell : Cell} {word : Int} {rest : Unit → EmsProg β}
    (continues : StackPermits array (.store cell word) buf →
      StackTriple array level kept p
        (StackHeld p op res stack (buf.setWord cell word))
        (rest ()) post) :
    StackTriple array level kept p (StackHeld p op res stack buf)
      (EMS.store cell word >>= rest) post := by
  apply StackTriple.undisturbed
  exact fun permitted => ⟨by simp [Access.tagged], continues permitted⟩

theorem StackTriple.storeTag {cell : Cell} {tag : Tag} {rest : Unit → EmsProg β}
    (different : cell ≠ stackTop)
    (continues : StackTriple array level kept p
      (StackHeld p op res stack (buf.setTag cell tag))
      (rest ()) post) :
    StackTriple array level kept p (StackHeld p op res stack buf)
      (EMS.storeTag cell tag >>= rest) post := by
  apply StackTriple.undisturbed
  exact fun _ => ⟨by simpa [Access.tagged] using different, continues⟩

theorem StackTriple.storeFE {cell : Cell} {fe : FE} {rest : Unit → EmsProg β}
    (different : cell ≠ stackTop)
    (continues : StackTriple array level kept p
      (StackHeld p op res stack
        (buf.setTag cell { buf.tag cell with fe := fe })) (rest ()) post) :
    StackTriple array level kept p (StackHeld p op res stack buf)
      (EMS.storeFE cell fe >>= rest) post :=
  StackTriple.yields (storeFE_yields (by simp [Access.tagged])
    (by simpa [Access.tagged] using fun _ => different)) continues

theorem StackTriple.transition {cell : Cell} {oldFE newFE : FE} {patience : Nat}
    {rest : Tag → EmsProg β} (different : cell ≠ stackTop)
    (found : (buf.tag cell).fe = oldFE)
    (continues : StackTriple array level kept p
      (StackHeld p op res stack
        (buf.setTag cell { buf.tag cell with fe := newFE }))
      (rest { buf.tag cell with fe := newFE }) post) :
    StackTriple array level kept p (StackHeld p op res stack buf)
      (EMStransitionFEtag patience cell none oldFE newFE >>= rest) post :=
  StackTriple.yields (EMStransitionFEtag_yields found (fun _ => trivial)
    (by simp [Access.tagged])
      (by simpa [Access.tagged] using fun _ _ => different)) continues

theorem StackTriple.push {value : EMSvalueType} (fits : value.Fits)
    (bounded : array.nElem < 2 ^ 31) (patience : Nat) :
    StackTriple array level kept p (StackPending p (.push value))
      (StackOp.code array (.push value) patience)
        (StackDone p (.push value)) := by
  rw [StackOp.code, ← bind_pure_comp, EMSpush, bind_assoc]
  apply StackTriple.acquire
  intro buf tag stack next res shape applies
  obtain ⟨rfl, rfl⟩ := Prod.mk.inj applies
  obtain ⟨live, ⟨tree, heapShape⟩, entries⟩ := shape.entries
  have different : EMSdataCell stack.length ≠ stackTop :=
    EMSdataCell_ne_stackTop (by omega)
  have top : (buf.setTag stackTop { tag with fe := .busy }).word stackTop =
      stack.length :=
    shape.top
  simp only [bind_assoc]
  apply StackTriple.load
  apply StackTriple.load
  apply StackTriple.store
  intro permitted
  have room : (stack.length : Int) + 1 < array.nElem := by
    rw [top] at permitted
    exact permitted rfl (by rw [top]; omega) (by rw [top])
  rw [top]
  have index : toInt32 stack.length = stack.length := by
    rw [toInt32, Int.bmod_eq_of_le] <;> omega
  rw [index, if_neg (by omega)]
  simp only [bind_assoc]
  apply StackTriple.transition different
  · simpa [different] using shape.filled stack.length (by omega) (by omega)
  refine StackTriple.ends
    (storeEntry_ends fits heapShape shape.mutex (fun _ => trivial)
    (fun act untagged => by simp [untagged]) (fun _ _ _ served => served)) ?_
  rintro _ after ⟨rfl, blocks, stored⟩
  apply StackTriple.storeTag different
  apply StackTriple.release
  · refine shape.push entries room ?_ ?_ ?_ ?_ ?_ ⟨?_, ?_⟩ stored.heap
      stored.shape
    · simp [stored.word _ (Ne.symm different)]
    · simp
    · simpa [stored.mutex] using shape.mutex
    · intro i inside notTop
      have below : EMSdataCell i ≠ stackTop := EMSdataCell_ne_stackTop inside
      have notEntry : EMSdataCell i ≠ EMSdataCell stack.length := by
        simpa using notTop
      simp [stored.word _ notEntry, stored.tag, below, notTop]
    · simp [different]
    · simp [different]
    · simpa using stored.contents
  · exact fun _ done => done

/-- The end of a pop: the entry becomes empty, and the stack is released. -/
theorem StackTriple.popped {buf before : EmsBuf} {value : EMSvalueType}
    {live : List Block}
    {tree : BuddyTree} {result : EMSvalueType}
    (shape : StackShape array level kept buf (stack ++ [value]))
    (entries : Entries buf kept stack.reverse live)
    (heapShape : HeapShape level ⟨before.mem, live⟩ tree)
    (top : before.word stackTop = stack.length)
    (others : ∀ i : Int, 0 ≤ i → i ≠ stack.length →
      before.tag (EMSdataCell i) = buf.tag (EMSdataCell i) ∧
        before.word (EMSdataCell i) = buf.word (EMSdataCell i))
    (mutex : before.memMutex = .empty) (heap : before.heap = buf.heap)
    (isBack : result = value.back) :
    StackTriple array level kept p
      (StackHeld p .pop (.value (.ok value.back)) stack before)
      (do
        EMS.storeFE (EMSdataCell stack.length) .empty
        EMS.storeFE stackTop .full
        let res ← pure (.ok result)
        return EntryRes.value res)
      (StackDone p .pop) := by
  subst isBack
  have different : EMSdataCell stack.length ≠ stackTop :=
    EMSdataCell_ne_stackTop (by omega)
  apply StackTriple.storeFE different
  apply StackTriple.release
  · refine shape.pop entries ?_ ?_ mutex ?_ ?_ heap ⟨tree, heapShape⟩
    · exact top
    · simp
    · intro i inside notTop
      have below : EMSdataCell i ≠ stackTop := EMSdataCell_ne_stackTop inside
      simpa [below, notTop] using others i inside notTop
    · simp [different]
  · exact fun _ done => done

theorem StackTriple.pop (small : EMS_MEM_BLOCKSZ * 2 ^ level < 2 ^ 63)
    (patience : Nat) :
    StackTriple array level kept p (StackPending p .pop)
      (StackOp.code array .pop patience)
      (StackDone p .pop) := by
  rw [StackOp.code, ← bind_pure_comp, EMSpop, bind_assoc]
  apply StackTriple.acquire
  intro buf tag stack next res shape applies
  simp only [bind_assoc]
  apply StackTriple.load
  apply StackTriple.store
  intro _
  apply StackTriple.load
  rcases List.eq_nil_or_concat' stack with rfl | ⟨below, value, rfl⟩
  · obtain ⟨rfl, rfl⟩ := Prod.mk.inj applies
    have top : buf.word stackTop = 0 := shape.top
    simp only [EmsBuf.setWord_word, EmsBuf.setTag_word, top,
      Function.update_self]
    rw [if_pos (by omega)]
    simp only [bind_assoc]
    apply StackTriple.store
    intro _
    apply StackTriple.release
    · obtain ⟨live, heapShape, entries⟩ := shape.entries
      refine
        ⟨by simp, by simp, .inl rfl, ?_, shape.mutex, live, heapShape, entries⟩
      intro i inside below
      simpa [EMSdataCell_ne_stackTop inside] using shape.filled i inside below
    · exact fun _ done => done
  · have applied : StackOp.pop.apply (below ++ [value]) =
        (below, .value (.ok value.back)) := by simp [StackOp.apply]
    obtain ⟨rfl, rfl⟩ := Prod.mk.inj (applied.symm.trans applies)
    obtain ⟨live, ⟨tree, heapShape⟩, entries⟩ := shape.entries
    rw [List.reverse_append, List.reverse_singleton,
      List.singleton_append] at entries
    obtain ⟨blocks, under, rfl, ⟨type, contents⟩, rest⟩ := entries
    rw [List.length_reverse] at type contents
    have top : buf.word stackTop = below.length + 1 := by simpa using shape.top
    have different : EMSdataCell below.length ≠ stackTop :=
      EMSdataCell_ne_stackTop (by omega)
    have room := shape.room.resolve_left (by simp)
    simp only [List.length_append, List.length_singleton, Nat.cast_add,
      Nat.cast_one] at room
    have full : (buf.tag (EMSdataCell below.length)).fe = .full := by
      have filled := shape.filled below.length (by omega) (by omega)
      simpa using filled
    simp only [EmsBuf.setWord_word, EmsBuf.setTag_word, top,
      Function.update_self,
      Int.add_sub_cancel]
    rw [if_neg (by omega)]
    simp only [bind_assoc]
    apply StackTriple.transition different
    · simpa [different] using full
    simp only [EmsBuf.setWord_tag, EmsBuf.setTag_tag,
      Function.update_of_ne different, type]
    -- what the memory is while the entry is busy
    generalize isBefore : EmsBuf.setTag _ (EMSdataCell _) _ = before
    have beforeTop : before.word stackTop = below.length := by simp [← isBefore]
    have beforeWord : before.word (EMSdataCell below.length) =
        buf.word (EMSdataCell below.length) := by simp [← isBefore, different]
    have others : ∀ i : Int, 0 ≤ i → i ≠ below.length →
        before.tag (EMSdataCell i) = buf.tag (EMSdataCell i) ∧
          before.word (EMSdataCell i) = buf.word (EMSdataCell i) := by
      intro i inside notTop
      have apart : EMSdataCell i ≠ stackTop := EMSdataCell_ne_stackTop inside
      simp [← isBefore, apart, notTop]
    have mutex : before.memMutex = .empty := by
      simpa [← isBefore] using shape.mutex
    have heap : before.heap = buf.heap := by simp [← isBefore]
    have mem : before.mem = buf.mem := by simp [← isBefore]
    rw [← mem] at heapShape
    obtain ⟨valueType, word, text, length⟩ := value
    cases valueType with
    | invalid | unassigned => exact contents.elim
    | boolean | integer | float =>
        obtain ⟨rfl, rfl⟩ := contents
        simp only [bind_assoc]
        apply StackTriple.load
        exact StackTriple.popped shape rest heapShape beforeTop
          others mutex heap
          (by rw [beforeWord]; rfl)
    | undefined =>
        obtain rfl : blocks = [] := contents
        simp only [bind_assoc]
        exact StackTriple.popped shape rest heapShape beforeTop others
          mutex heap rfl
    | json | string =>
        obtain ⟨address, sameWord, rfl, holds⟩ := contents
        have member : text.block address ∈ [text.block address] ++ under := by
          simp
        obtain ⟨mem', given, success, heapShape'⟩ := heapShape.free member
        rw [List.singleton_append, List.erase_cons_head] at heapShape'
        have bound := (heapShape.safe small).addressable _ member
        simp only [CString.block] at bound
        have unwrapped : ((address : Int) % 2 ^ 64).toNat = address := by omega
        rw [← heap] at holds
        simp only [bind_assoc]
        apply StackTriple.load
        rw [beforeWord, sameWord]
        apply StackTriple.yields
          (heapStrlen_yields holds (by simp [Access.tagged])
          fun _ => trivial)
        apply StackTriple.load
        rw [beforeWord, sameWord]
        apply StackTriple.yields
          (copyFromHeap_yields holds (by simp [Access.tagged])
          fun _ => trivial)
        apply StackTriple.load
        rw [beforeWord, sameWord]
        apply StackTriple.yields
          (emsMutexMem_free_yields mutex (by simp [Access.tagged])
          (by simp [Access.tagged]) (fun _ => trivial) (by simp [Access.tagged])
          (by rw [unwrapped]; exact success))
        apply StackTriple.popped shape rest
        · exact heapShape'
        · exact beforeTop
        · exact others
        · exact mutex
        · exact heap
        · rfl

private theorem stackImplements (bounded : array.nElem < 2 ^ 31)
    (small : EMS_MEM_BLOCKSZ * 2 ^ level < 2 ^ 63) :
    (stackProtocol ι array level kept).Implements (stackMachine ι array)
      (fun p state => state.1.spec.phase p = .idle) StackDone where
  idleStable := by
    intro p q label state next different _ idle move
    exact (StackMove.phase_other different move).trans idle
  calls := by
    intro p op patience ghost buf inv idle fits
    have move : StackMove array level kept p (.call op) (ghost, buf) _ :=
      .call op idle
    have called := (stackProtocol ι array level kept).keeps inv move
    refine ⟨_, move, ?_⟩
    cases op with
    | push value =>
        exact StackTriple.push fits bounded patience _ called
          (AtomicObject.State.setPhase_same _ _ _)
    | pop =>
        exact StackTriple.pop small patience _ called
          (AtomicObject.State.setPhase_same _ _ _)
  returns := by
    intro p op res ghost buf _ done
    exact ⟨_, .ret done, AtomicObject.State.setPhase_same _ _ _⟩

/-! ## Results about runs -/

/-- A move of the protocol is a step of the atomic object, or none. -/
theorem StackMove.refines {p : ι} {label : StackLabel}
    {state next : StackGhost ι × EmsBuf}
    (move : StackMove array level kept p label state next) :
    match stackEvent (p, label) with
    | none => next.1.spec = state.1.spec
    | some event =>
        AtomicObject.Step StackOp.effect state.1.spec event next.1.spec := by
  cases move with
  | call op idle => exact .call op idle
  | quiet hidden => simp [stackEvent, hidden]
  | acquire found free pending applies =>
      simp only [stackEvent, locksStack, true_and, decide_true, if_true]
      exact .commit pending applies
  | work act owned untouched =>
      have hidden : ∀ reply, locksStack act reply = false := by
        intro reply
        cases act with
        | casTag cell old new =>
            simp only [Access.tagged, ne_eq, Option.some.injEq] at untouched
            simp [locksStack, untouched]
        | _ => rfl
      simp [stackEvent, hidden]
  | release tag owned shape => simp [stackEvent, locksStack]
  | ret done => exact .ret done

private theorem stack_simulates {start finish : StackGhost ι × EmsBuf}
    {trace : List (ι × StackLabel)}
    (run : Run (stackProtocol ι array level kept).Step start trace finish) :
    Run (AtomicObject.Step StackOp.effect) start.1.spec
      (trace.filterMap stackEvent)
      finish.1.spec := by
  have silent : ∀ state label next spec, state.1.spec = spec →
      (stackProtocol ι array level kept).Step state label next →
        stackEvent label = none →
      next.1.spec = spec := by
    intro state label next spec related move hidden
    have refines := StackMove.refines move
    rw [hidden] at refines
    exact refines.trans related
  have visible : ∀ state label next spec event, state.1.spec = spec →
      (stackProtocol ι array level kept).Step state label next →
        stackEvent label = some event →
      ∃ specNext, AtomicObject.Step StackOp.effect spec event specNext ∧
        next.1.spec = specNext := by
    rintro state label next _ event rfl move shown
    have refines := StackMove.refines move
    rw [shown] at refines
    exact ⟨next.1.spec, refines, rfl⟩
  obtain ⟨final, specRun, rfl⟩ :=
    Run.simulate stackEvent _ silent visible run rfl
  exact specRun

/-- What holds of every run of pushes and pops.  Where nobody has the tag of
`STACKTOP` busy, the memory holds the stack. -/
structure StackLinearizable (array : EmsArray) (trace : List (ι × StackLabel))
    (config : (stackMachine ι array).State) : Prop where
  linearizable : ∃ final : StackState ι,
    Run (AtomicObject.Step StackOp.effect) (AtomicObject.initial [])
      (trace.filterMap stackEvent) final ∧
    ((config.shared.tag stackTop).fe ≠ .busy →
      config.shared.word stackTop = final.object.length)
  entries : (config.shared.tag stackTop).fe ≠ .busy →
    ∀ i : Int, 0 ≤ i → i < array.nElem →
      (config.shared.tag (EMSdataCell i)).fe =
        if i < config.shared.word stackTop then .full else .empty
  neverAborts : ∀ p op, config.control p ≠ .running op .abort

/-- An empty stack as it is set up, on a heap whose live blocks belong to
others. -/
structure EmptyStack (array : EmsArray) (level : Nat) (kept : List Block)
    (buf : EmsBuf) :
    Prop where
  top : buf.word stackTop = 0
  free : (buf.tag stackTop).fe = .full
  empty : ∀ i : Int, 0 ≤ i → i < array.nElem →
    (buf.tag (EMSdataCell i)).fe = .empty
  mutex : buf.memMutex = .empty
  heap : ∃ tree, HeapShape level ⟨buf.mem, kept⟩ tree

theorem EmptyStack.shape {buf : EmsBuf}
    (initially : EmptyStack array level kept buf) :
    StackShape array level kept buf [] := by
  refine ⟨initially.top, initially.free, .inl rfl, ?_, initially.mutex, kept,
    initially.heap, rfl⟩
  intro i inside below
  rw [initially.empty i inside below]
  exact (if_neg (by simpa using inside)).symm

/-- The stack is linearizable: the calls, the moves of the tag of `STACKTOP` to
busy and the returns of a run are a run of the atomic stack. -/
theorem stack_linearizable (bounded : array.nElem < 2 ^ 31)
    (small : EMS_MEM_BLOCKSZ * 2 ^ level < 2 ^ 63) {buf : EmsBuf}
    (initially : EmptyStack array level kept buf)
    {trace : List (ι × StackLabel)} {config : (stackMachine ι array).State}
    (run : Run (stackMachine ι array).Step
      ((stackMachine ι array).start buf) trace config) :
    StackLinearizable array trace config := by
  let ghost : StackGhost ι := ⟨none, AtomicObject.initial []⟩
  have inv : StackInv array level kept (ghost, buf) := initially.shape
  have implements : (stackProtocol ι array level kept).Implements
      (stackMachine ι array)
      (fun p state => state.1.spec.phase p = .idle) StackDone :=
        stackImplements bounded small
  obtain ⟨ghost', abstractRun, after, -⟩ :=
    implements.run ghost inv (fun _ => rfl) run
  have inOrder : (config.shared.tag stackTop).fe ≠ .busy →
      StackShape array level kept config.shared ghost'.spec.object := by
    intro free
    have here : StackInv array level kept (ghost', config.shared) := after
    cases owner : ghost'.owner with
    | none => simpa only [StackInv, owner] using here
    | some q =>
        simp only [StackInv, owner] at here
        exact absurd here free
  constructor
  · exact ⟨ghost'.spec, stack_simulates abstractRun,
      fun free => (inOrder free).top⟩
  · intro free i inside below
    rw [(inOrder free).top]
    exact (inOrder free).filled i inside below
  · exact implements.never_aborts ghost inv (fun _ => rfl) run

end Protocol

/-- An empty stack on a heap of one block. -/
def emptyStackBuf : EmsBuf :=
  (uniformBuf ⟨.empty, .undefined, 0⟩ 0).setTag stackTop ⟨.full, .integer, 0⟩

theorem emptyStackBuf_empty (array : EmsArray) :
    EmptyStack array 0 [] emptyStackBuf := by
  refine ⟨rfl, by simp [emptyStackBuf], ?_, rfl, .unused, HeapShape.fresh 0⟩
  intro i inside _
  simp [emptyStackBuf, EMSdataCell_ne_stackTop inside, uniformBuf]

/-- A string of two characters. -/
def shortString : EMSvalueType := ⟨.string, 0, ⟨[104, 105], terminated_hi⟩, 2⟩

/-- One process pushes a string while another one waits to pop it. -/
def stackSchedule : List (Fin 2 × Choice StackOp) :=
  [(0, .call (.push shortString) 1), (1, .call .pop 8), (0, .go), (0, .go),
    (1, .go), (1, .go)] ++
    List.replicate 16 (0, .go) ++ List.replicate 24 (1, .go)

/-- The process has popped the value. -/
def hasPopped (p : Fin 2) (value : EMSvalueType)
    (trace : List (Fin 2 × StackLabel)) : Bool :=
  trace.any fun label => match label with
    | (q, .ret _ (.value (.ok popped))) => q = p ∧ popped = value
    | _ => false

theorem stack_linearizable_string :
    ∃ trace config, StackLinearizable (ι := Fin 2) ⟨2, false⟩ trace config ∧
      hasPopped 1 shortString trace = true := by
  obtain ⟨trace, config, run, popped⟩ :=
    (stackMachine (Fin 2) ⟨2, false⟩).exists_run
    ((stackMachine (Fin 2) ⟨2, false⟩).start emptyStackBuf) stackSchedule
    (fun played => hasPopped 1 shortString played.1) (by decide +kernel)
  exact ⟨trace, config,
    stack_linearizable (by decide) (by decide) (emptyStackBuf_empty _)
      run, popped⟩

end EMS
