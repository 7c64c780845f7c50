import EMS.Placement
import EMS.Slots

/-!
# Calls of a process alone

A process that works on a list of values in memory, alone and one call after
the other.  A call that has room follows the law of the list and leaves the
memory in order.  A call that has none leaves `STACKTOP` busy.
-/

namespace EMS

open SharedProgram Interleaving

/-- A process alone on the memory.  Nothing limits it but its patience. -/
abbrev aloneSolo (spins : Prop) : Solo EmsBuf Access Reply :=
  emsSolo (fun _ _ => True) (fun _ => True) spins

instance aloneSolo.decidableGiven (spins : Prop) (act : Access) (buf : EmsBuf) :
    Decidable ((aloneSolo spins).given act buf) :=
  isTrue trivial

/-- The heap can hold the string of the value, if it has one. -/
def CanHold (mem : EmsMem) (value : EMSvalueType) : Prop :=
  value.type.IsText → Serves mem (value.text.bytes.length + 1)

instance (mem : EmsMem) (value : EMSvalueType) :
    Decidable (CanHold mem value) :=
  inferInstanceAs (Decidable (_ → _))

/-! ## Steps of a process alone -/

section Alone

variable {α : Type} {spins : Prop} {post : α → EmsBuf → Prop} {buf : EmsBuf}
  {cell : Cell}

theorem alone_load {rest : Int → EmsProg α}
    (ends : (aloneSolo spins).Ends post (rest (buf.word cell)) buf) :
    (aloneSolo spins).Ends post (load cell >>= rest) buf :=
  fun _ => ⟨trivial, ends⟩

theorem alone_loadTag {rest : Tag → EmsProg α}
    (ends : (aloneSolo spins).Ends post (rest (buf.tag cell)) buf) :
    (aloneSolo spins).Ends post (loadTag cell >>= rest) buf :=
  fun _ => ⟨trivial, ends⟩

theorem alone_store {word : Int} {rest : Unit → EmsProg α}
    (ends : (aloneSolo spins).Ends post (rest ()) (buf.setWord cell word)) :
    (aloneSolo spins).Ends post (store cell word >>= rest) buf :=
  fun _ => ⟨trivial, ends⟩

theorem alone_storeTag {tag : Tag} {rest : Unit → EmsProg α}
    (ends : (aloneSolo spins).Ends post (rest ()) (buf.setTag cell tag)) :
    (aloneSolo spins).Ends post (storeTag cell tag >>= rest) buf :=
  fun _ => ⟨trivial, ends⟩

theorem alone_storeFE {fe : FE} {rest : Unit → EmsProg α}
    (ends : (aloneSolo spins).Ends post (rest ())
      (buf.setTag cell { buf.tag cell with fe := fe })) :
    (aloneSolo spins).Ends post (storeFE cell fe >>= rest) buf :=
  (storeFE_yields trivial fun _ => trivial).bind ends

theorem alone_transition {oldFE newFE : FE} {patience : Nat}
    {rest : Tag → EmsProg α}
    (found : (buf.tag cell).fe = oldFE) (patient : patience = 0 → spins)
    (ends : (aloneSolo spins).Ends post (rest { buf.tag cell with fe := newFE })
      (buf.setTag cell { buf.tag cell with fe := newFE })) :
    (aloneSolo spins).Ends post
      (EMStransitionFEtag patience cell none oldFE newFE >>= rest) buf :=
  (EMStransitionFEtag_yields found patient trivial fun _ _ => trivial).bind ends

variable {level : Nat} {live : List Block} {tree : BuddyTree} {patience : Nat}
  {value : EMSvalueType} {idx : Int}

theorem alone_storeEntry (fits : value.Fits)
    (shape : HeapShape level ⟨buf.mem, live⟩ tree)
    (free : buf.memMutex = .empty) (patient : patience = 0 → spins)
    (held : CanHold buf.mem value) :
    (aloneSolo spins).Ends (StoredOk level live (EMSdataCell idx) value buf)
      (storeEntry patience idx value) buf := by
  refine storeEntry_ends fits shape free patient (fun _ _ => trivial) ?_
  intro isText other sameMem _
  rw [sameMem]
  exact held isText.symm

/-- A request that is not served is refused. -/
theorem HeapShape.refuse {heap : Heap} {bytes : Nat}
    (shape : HeapShape level heap tree)
    (valid : ValidRequest bytes) (refused : ¬ Serves heap.self bytes) :
    emsMem_alloc heap.self bytes = .ok (-1, heap.self) := by
  have spec := shape.alloc valid
  cases result : BuddyTree.take (orderFor bytes) level tree with
  | none => simpa only [result] using spec
  | some taken =>
      simp only [result] at spec
      obtain ⟨mem, success, after⟩ := spec
      refine absurd ?_ refused
      intro address later same
      obtain ⟨rfl, rfl⟩ := Prod.mk.inj (Except.ok.inj (success.symm.trans same))
      omega

/-- The entry is not written when the heap cannot hold the string. -/
theorem alone_storeEntry_refused (fits : value.Fits)
    (shape : HeapShape level ⟨buf.mem, live⟩ tree)
    (free : buf.memMutex = .empty)
    (patient : patience = 0 → spins) (refused : ¬ CanHold buf.mem value) :
    (aloneSolo spins).Yields (storeEntry patience idx value) buf
    (.error .outOfMemory) buf := by
  simp only [CanHold, Classical.not_imp] at refused
  obtain ⟨isText, notServed⟩ := refused
  have valid : ValidRequest (value.text.bytes.length + 1) := by
    have short := fits.2
    constructor <;> omega
  have text : (aloneSolo spins).Yields
      (emsMutexMem_alloc patience (value.text.bytes.length + 1) >>=
          fun textOffset =>
        if textOffset < 0 then pure (Except.error EMSError.outOfMemory)
        else do
          store (EMSdataCell idx) textOffset
          copyToHeap textOffset value.text.bytes
          return .ok ()) buf (.error .outOfMemory) buf := by
    apply Solo.Ends.bind
    refine emsMutexMem_alloc_ends free (fun _ _ => trivial) (fun _ => trivial)
      patient trivial ?_
    intro _
    exact ⟨-1, buf.mem, shape.refuse valid notServed, rfl, rfl⟩
  obtain ⟨type, word, valueText, length⟩ := value
  rcases isText with string | json
  · cases string
    exact text
  · cases json
    exact text

end Alone

/-! ## One call after the other -/

/-- The bound for the loops is above the length of every string among the
values. -/
def Patient (patience : Nat) (values : List EMSvalueType) : Prop :=
  0 < patience ∧ ∀ value ∈ values, value.text.bytes.length < patience

private theorem exists_patient (values : List EMSvalueType) :
    ∃ enough, ∀ patience, enough ≤ patience → Patient patience values := by
  induction values with
  | nil => exact ⟨1, fun patience many => ⟨many, by simp⟩⟩
  | cons value values induction =>
      obtain ⟨enough, patient⟩ := induction
      refine ⟨enough + value.text.bytes.length + 1, fun patience many => ?_⟩
      obtain ⟨positive, reaches⟩ := patient patience (by omega)
      refine ⟨positive, ?_⟩
      simp only [List.mem_cons, forall_eq_or_imp]
      exact ⟨by omega, reaches⟩

/-- What a call leaves that runs out of room: `STACKTOP` is busy and counts a
value that there is not. -/
structure Overflowed (buf after : EmsBuf) : Prop where
  busy : (after.tag stackTop).fe = .busy
  counted : after.word stackTop = buf.word stackTop + 1

section Follows

variable {Op : Type} (code : Op → Nat → EmsProg EntryRes)
  (admits hasRoom : Op → EmsBuf → Prop)
  (shape : List EMSvalueType → EmsBuf → Prop)
  (law : List EMSvalueType × EmsBuf → Op × EntryRes →
    List EMSvalueType × EmsBuf → Prop)

/-- A call that has returned and followed the law. -/
structure LawfulCall (state : List EMSvalueType × EmsBuf)
    (label : Op × EntryRes)
    (next : List EMSvalueType × EmsBuf) : Prop where
  call : (aloneSolo True).Call code admits state.2 label next.2
  lawful : law state label next

/-- How a call ends on a memory in order. -/
structure CallEnds (values : List EMSvalueType) (op : Op) (buf : EmsBuf)
    (res : EntryRes)
    (after : EmsBuf) : Prop where
  room : hasRoom op buf →
    ∃ next, law (values, buf) (op, res) (next, after) ∧ shape next after
  overflow : ¬ hasRoom op buf →
    (∃ error, res = .index (.error error)) ∧ Overflowed buf after

/-- The calls follow the law when they have room, and only then. -/
structure Follows : Prop where
  ends : ∀ {op : Op} {values : List EMSvalueType} {buf : EmsBuf}
    {patience : Nat} {spins : Prop},
    shape values buf → admits op buf → (¬ Patient patience values → spins) →
    (aloneSolo spins).Ends (CallEnds hasRoom shape law values op buf)
      (code op patience) buf
  lawless : ∀ {op : Op} {values next : List EMSvalueType} {buf after : EmsBuf}
    {error : EMSError},
    Overflowed buf after → ¬ hasRoom op buf →
    ¬ law (values, buf) (op, .index (.error error)) (next, after)

/-- What is known of the next call: it returns when its loops are patient, it
follows the law exactly if it has room, and otherwise it leaves `STACKTOP`
busy. -/
structure NextCall (values : List EMSvalueType) (buf : EmsBuf)
    (op : Op) : Prop where
  completes : ∃ enough, ∀ patience, enough ≤ patience →
    ∃ res after, (aloneSolo True).Returns (code op patience) buf res after
  lawful_iff : ∀ patience res after,
    (aloneSolo True).Returns (code op patience) buf res after →
    ((∃ next, law (values, buf) (op, res) (next, after)) ↔ hasRoom op buf)
  overflows : ∀ patience res after,
    (aloneSolo True).Returns (code op patience) buf res after →
    ¬ hasRoom op buf → Overflowed buf after

variable {code admits hasRoom shape law} {values : List EMSvalueType}
  {buf after : EmsBuf} {op : Op}

theorem CallEnds.of_room {res : EntryRes} {next : List EMSvalueType}
    (here : hasRoom op buf)
    (lawful : law (values, buf) (op, res) (next, after))
    (ordered : shape next after) :
    CallEnds hasRoom shape law values op buf res after where
  room := fun _ => ⟨next, lawful, ordered⟩
  overflow := fun noRoom => absurd here noRoom

theorem CallEnds.of_overflow {error : EMSError} (noRoom : ¬ hasRoom op buf)
    (busy : (after.tag stackTop).fe = .busy)
    (counted : after.word stackTop = buf.word stackTop + 1) :
    CallEnds hasRoom shape law values op buf (.index (.error error)) after where
  room := fun here => absurd here noRoom
  overflow := fun _ => ⟨⟨error, rfl⟩, busy, counted⟩

theorem Follows.next (follows : Follows code admits hasRoom shape law)
    (ordered : shape values buf) (admitted : admits op buf) :
    NextCall code hasRoom law values buf op where
  completes := by
    obtain ⟨enough, patient⟩ := exists_patient values
    refine ⟨enough, fun patience many => ?_⟩
    have ends :=
      follows.ends ordered admitted fun short => short (patient patience many)
    obtain ⟨res, after, returned, -⟩ := ends.exists_returns fun _ _ => trivial
    exact ⟨res, after, returned⟩
  lawful_iff := by
    intro patience res after returned
    have ends :=
      (follows.ends ordered admitted fun _ => trivial).returns returned
    constructor
    · rintro ⟨next, lawful⟩
      by_contra noRoom
      obtain ⟨⟨error, rfl⟩, overflowed⟩ := ends.overflow noRoom
      exact follows.lawless overflowed noRoom lawful
    · intro here
      obtain ⟨next, lawful, -⟩ := ends.room here
      exact ⟨next, lawful⟩
  overflows := by
    intro patience res after returned noRoom
    have ends :=
      (follows.ends ordered admitted fun _ => trivial).returns returned
    exact (ends.overflow noRoom).2

/-- In every run of calls that have room, the calls follow the law. -/
theorem Follows.run {history : List (Op × EntryRes)}
    (follows : Follows code admits hasRoom shape law) (ordered : shape [] buf)
    (calls : Run ((aloneSolo True).Call code fun op buf =>
      admits op buf ∧ hasRoom op buf) buf
      history after) :
    ∃ values, Run (LawfulCall code
      (fun op buf => admits op buf ∧ hasRoom op buf) law) ([], buf)
        history (values, after) ∧ shape values after ∧
      ∀ op, admits op after → NextCall code hasRoom law values after op := by
  suffices reached : ∃ values,
      Run (LawfulCall code (fun op buf => admits op buf ∧ hasRoom op buf)
      law) ([], buf) history (values, after) ∧ shape values after by
    obtain ⟨values, run, ordered⟩ := reached
    exact ⟨values, run, ordered,
      fun op admitted => follows.next ordered admitted⟩
  induction calls with
  | nil => exact ⟨[], .nil, ordered⟩
  | snoc _ call induction =>
      obtain ⟨values, run, ordered⟩ := induction
      cases call with
      | mk patience both returned =>
          have ends :=
            (follows.ends ordered both.1 fun _ => trivial).returns returned
          obtain ⟨next, lawful, ordered⟩ := ends.room both.2
          exact ⟨next, .snoc run ⟨.mk patience both returned, lawful⟩, ordered⟩

end Follows

end EMS
