import EMS.AloneCalls
import EMS.Stack

/-!
# The capacity of the stack

A push makes the tag of `STACKTOP` busy and counts its entry before it knows
whether there is room for one, and it returns from the middle of its work when
there is none.  As long as no push comes that far, the stack is one in every
run of calls.
-/

namespace EMS

open SharedProgram Interleaving

/-! ## One call -/

section Calls

variable {array : EmsArray} {level : Nat} {kept : List Block} {buf : EmsBuf}
  {stack : List EMSvalueType} {patience : Nat} {spins : Prop}
    {value : EMSvalueType}

/-- A value of one of the types, for an entry whose number has 32 bits. -/
def StackOp.Admitted : StackOp → EmsBuf → Prop
  | .push value, buf => value.Fits ∧ buf.word stackTop < 2 ^ 31
  | .pop, _ => True

/-- A push leaves the last entry free, and the heap can hold its string. -/
def StackOp.HasRoom (array : EmsArray) : StackOp → EmsBuf → Prop
  | .push value, buf =>
    buf.word stackTop + 1 < array.nElem ∧ CanHold buf.mem value
  | .pop, _ => True

instance StackOp.decidableHasRoom (array : EmsArray) :
    (op : StackOp) → (buf : EmsBuf) → Decidable (op.HasRoom array buf)
  | .push _, _ => inferInstanceAs (Decidable (_ ∧ _))
  | .pop, _ => isTrue trivial

/-- A call that is admitted and has room. -/
def StackOp.Within (array : EmsArray) (op : StackOp) (buf : EmsBuf) : Prop :=
  op.Admitted buf ∧ op.HasRoom array buf

instance StackOp.decidableAdmitted : (op : StackOp) → (buf : EmsBuf) →
    Decidable (op.Admitted buf)
  | .push _, _ => inferInstanceAs (Decidable (_ ∧ _))
  | .pop, _ => isTrue trivial

instance (array : EmsArray) (op : StackOp) (buf : EmsBuf) :
    Decidable (op.Within array buf) :=
  inferInstanceAs (Decidable (_ ∧ _))

/-- `STACKTOP`, its tag, the elements and the heap are as they were. -/
structure StackUnchanged (array : EmsArray) (buf after : EmsBuf) : Prop where
  top : after.word stackTop = buf.word stackTop
  topTag : after.tag stackTop = buf.tag stackTop
  elements : ∀ i : Int, 0 ≤ i → i < array.nElem →
    after.tag (EMSdataCell i) = buf.tag (EMSdataCell i) ∧
      after.word (EMSdataCell i) = buf.word (EMSdataCell i)
  mem : after.mem = buf.mem
  heap : after.heap = buf.heap

/-- A stack that holds as many values as there are elements.  A push succeeds
when there is an element and the heap can hold its string, and otherwise it
fails and changes nothing. -/
inductive StackLaw (array : EmsArray) :
    List EMSvalueType × EmsBuf → StackOp × EntryRes →
      List EMSvalueType × EmsBuf → Prop where
  | pushed {stack : List EMSvalueType} {buf after : EmsBuf}
      {value : EMSvalueType} {idx : Int} :
      (stack.length : Int) < array.nElem → CanHold buf.mem value →
      StackLaw array (stack, buf) (.push value, .index (.ok idx))
        (stack ++ [value], after)
  | refused {stack : List EMSvalueType} {buf after : EmsBuf}
      {value : EMSvalueType}
      {error : EMSError} :
      ¬ ((stack.length : Int) < array.nElem ∧ CanHold buf.mem value) →
      StackUnchanged array buf after →
      StackLaw array (stack, buf) (.push value, .index (.error error))
        (stack, after)
  | popped {stack next : List EMSvalueType} {buf after : EmsBuf}
      {res : EntryRes} :
      StackOp.pop.apply stack = (next, res) →
      StackLaw array (stack, buf) (.pop, res) (next, after)

/-- How a push or a pop ends on a stack in order. -/
abbrev StackEnds (array : EmsArray) (level : Nat) (kept : List Block) :
    List EMSvalueType → StackOp → EmsBuf → EntryRes → EmsBuf → Prop :=
  CallEnds (StackOp.HasRoom array)
    (fun stack buf => StackShape array level kept buf stack)
    (StackLaw array)

theorem EMSpush_ends (fits : value.Fits)
    (shape : StackShape array level kept buf stack)
    (positive : 0 < array.nElem) (bounded : (stack.length : Int) < 2 ^ 31)
    (patient : patience = 0 → spins) :
    (aloneSolo spins).Ends
      (fun res => StackEnds array level kept stack (.push value) buf
        (.index res))
      (EMSpush patience array value) buf := by
  have different : EMSdataCell stack.length ≠ stackTop :=
    EMSdataCell_ne_stackTop (by omega)
  have top := shape.top
  have index : toInt32 stack.length = stack.length :=
    toInt32_eq (by omega) bounded
  have below : (stack.length : Int) < array.nElem := by
    rcases shape.room with rfl | room
    · simpa using positive
    · exact room
  obtain ⟨live, ⟨tree, heapShape⟩, entries⟩ := shape.entries
  rw [EMSpush]
  apply alone_transition shape.free patient
  apply alone_load
  apply alone_load
  apply alone_store
  simp only [EmsBuf.setTag_word, top, index]
  by_cases full : (stack.length : Int) = array.nElem - 1
  · rw [if_pos full]
    have noRoom : ¬ (StackOp.push value).HasRoom array buf := by
      rintro ⟨room, -⟩
      omega
    exact .of_overflow noRoom (by simp) (by simp [top])
  · rw [if_neg full]
    have room : (stack.length : Int) + 1 < array.nElem := by omega
    refine alone_transition ?_ patient ?_
    · simpa [different] using shape.filled stack.length (by omega) (by omega)
    · -- what the memory is while the entry is busy
      generalize isHeld : EmsBuf.setTag _ (EMSdataCell _) _ = held
      have mem : held.mem = buf.mem := by simp [← isHeld]
      have mutex : held.memMutex = .empty := by
        simpa [← isHeld] using shape.mutex
      rw [← mem] at heapShape
      by_cases canHold : CanHold held.mem value
      · have hasRoom : (StackOp.push value).HasRoom array buf :=
          ⟨by rwa [top], mem ▸ canHold⟩
        apply Solo.Ends.bind
        apply (alone_storeEntry fits heapShape mutex patient canHold).mono
        rintro _ after ⟨rfl, blocks, stored⟩
        apply alone_storeTag
        apply alone_storeFE
        refine .of_room hasRoom (.pushed below (mem ▸ canHold))
          (shape.push entries room ?_ ?_ ?_ ?_ ?_ ⟨?_, ?_⟩ ?_ stored.shape)
        · simp [stored.word _ (Ne.symm different), ← isHeld]
        · simp
        · simpa [stored.mutex] using mutex
        · intro i inside notTop
          have apart : EMSdataCell i ≠ stackTop :=
            EMSdataCell_ne_stackTop inside
          have notEntry : EMSdataCell i ≠ EMSdataCell stack.length := by
            simpa using notTop
          simp [stored.word _ notEntry, stored.tag, apart, notTop, ← isHeld]
        · simp [different]
        · simp [different]
        · simpa using stored.contents
        · simpa [← isHeld] using stored.heap
      · have noRoom : ¬ (StackOp.push value).HasRoom array buf := by
          rintro ⟨-, holds⟩
          exact canHold (mem ▸ holds)
        apply (alone_storeEntry_refused fits heapShape mutex patient
          canHold).bind
        apply CallEnds.of_overflow noRoom
        · simp [← isHeld, Ne.symm different]
        · simp [← isHeld, top]

/-- The end of a pop: the entry becomes empty, and the stack is released. -/
theorem alone_popped {before : EmsBuf} {live : List Block} {tree : BuddyTree}
    {result : EMSvalueType}
    (shape : StackShape array level kept buf (stack ++ [value]))
    (entries : Entries buf kept stack.reverse live)
    (heapShape : HeapShape level ⟨before.mem, live⟩ tree)
    (top : before.word stackTop = stack.length)
    (others : ∀ i : Int, 0 ≤ i → i ≠ stack.length →
      before.tag (EMSdataCell i) = buf.tag (EMSdataCell i) ∧
        before.word (EMSdataCell i) = buf.word (EMSdataCell i))
    (mutex : before.memMutex = .empty) (heap : before.heap = buf.heap)
    (isBack : result = value.back) :
    (aloneSolo spins).Ends
      (fun res => StackEnds array level kept (stack ++ [value]) .pop buf
        (.value res))
      (do
        storeFE (EMSdataCell stack.length) .empty
        storeFE stackTop .full
        return .ok result) before := by
  subst isBack
  have different : EMSdataCell stack.length ≠ stackTop :=
    EMSdataCell_ne_stackTop (by omega)
  have applied : StackOp.pop.apply (stack ++ [value]) =
      (stack, .value (.ok value.back)) := by
    simp [StackOp.apply]
  apply alone_storeFE
  apply alone_storeFE
  refine .of_room (show StackOp.pop.HasRoom array buf from trivial)
    (.popped applied)
    (shape.pop entries ?_ ?_ mutex ?_ ?_ heap ⟨tree, heapShape⟩)
  · exact top
  · simp
  · intro i inside notTop
    have apart : EMSdataCell i ≠ stackTop := EMSdataCell_ne_stackTop inside
    simpa [apart, notTop] using others i inside notTop
  · simp [different]

theorem EMSpop_ends (small : EMS_MEM_BLOCKSZ * 2 ^ level < 2 ^ 63)
    (shape : StackShape array level kept buf stack)
    (patient : patience = 0 → spins)
    (reaches : ∀ value ∈ stack, patience ≤ value.text.bytes.length → spins) :
    (aloneSolo spins).Ends
    (fun res => StackEnds array level kept stack .pop buf (.value res))
      (EMSpop patience) buf := by
  rw [EMSpop]
  apply alone_transition shape.free patient
  apply alone_load
  apply alone_store
  apply alone_load
  rcases List.eq_nil_or_concat' stack with rfl | ⟨below, value, rfl⟩
  · have top : buf.word stackTop = 0 := shape.top
    simp only [EmsBuf.setWord_word, EmsBuf.setTag_word, top,
      Function.update_self]
    rw [if_pos (by omega)]
    apply alone_store
    apply alone_storeFE
    obtain ⟨live, heapShape, entries⟩ := shape.entries
    refine .of_room (show StackOp.pop.HasRoom array buf from trivial)
      (.popped rfl) ?_
    refine
      ⟨by simp, by simp, .inl rfl, ?_, shape.mutex, live, heapShape, entries⟩
    intro i inside below
    simpa [EMSdataCell_ne_stackTop inside] using shape.filled i inside below
  · obtain ⟨live, ⟨tree, heapShape⟩, entries⟩ := shape.entries
    rw [List.reverse_append, List.reverse_singleton,
      List.singleton_append] at entries
    obtain ⟨blocks, under, rfl, ⟨type, contents⟩, rest⟩ := entries
    rw [List.length_reverse] at type contents
    have top : buf.word stackTop = below.length + 1 := by simpa using shape.top
    have different : EMSdataCell below.length ≠ stackTop :=
      EMSdataCell_ne_stackTop (by omega)
    have room := shape.room.resolve_left (by simp)
    simp only [List.length_append, List.length_singleton, Nat.cast_add,
      Nat.cast_one] at room
    have full : (buf.tag (EMSdataCell below.length)).fe = .full := by
      have filled := shape.filled below.length (by omega) (by omega)
      simpa using filled
    simp only [EmsBuf.setWord_word, EmsBuf.setTag_word, top,
      Function.update_self,
      Int.add_sub_cancel]
    rw [if_neg (by omega)]
    refine alone_transition ?_ patient ?_
    · simpa [different] using full
    · simp only [EmsBuf.setWord_tag, EmsBuf.setTag_tag,
        Function.update_of_ne different, type]
      -- what the memory is while the entry is busy
      generalize isBefore : EmsBuf.setTag _ (EMSdataCell _) _ = before
      have beforeTop : before.word stackTop = below.length := by
        simp [← isBefore]
      have beforeWord : before.word (EMSdataCell below.length) =
          buf.word (EMSdataCell below.length) := by simp [← isBefore, different]
      have others : ∀ i : Int, 0 ≤ i → i ≠ below.length →
          before.tag (EMSdataCell i) = buf.tag (EMSdataCell i) ∧
            before.word (EMSdataCell i) = buf.word (EMSdataCell i) := by
        intro i inside notTop
        have apart : EMSdataCell i ≠ stackTop := EMSdataCell_ne_stackTop inside
        simp [← isBefore, apart, notTop]
      have mutex : before.memMutex = .empty := by
        simpa [← isBefore] using shape.mutex
      have heap : before.heap = buf.heap := by simp [← isBefore]
      have mem : before.mem = buf.mem := by simp [← isBefore]
      rw [← mem] at heapShape
      have reachesTop := reaches value (by simp)
      obtain ⟨valueType, word, text, length⟩ := value
      cases valueType with
      | invalid | unassigned => exact contents.elim
      | boolean | integer | float =>
          obtain ⟨rfl, rfl⟩ := contents
          apply alone_load
          exact alone_popped shape rest heapShape beforeTop others mutex heap
            (by rw [beforeWord]; rfl)
      | undefined =>
          obtain rfl : blocks = [] := contents
          exact alone_popped shape rest heapShape beforeTop others
            mutex heap rfl
      | json | string =>
          obtain ⟨address, sameWord, rfl, holds⟩ := contents
          have member : text.block address ∈ [text.block address] ++ under := by
            simp
          obtain ⟨mem', given, success, heapShape'⟩ := heapShape.free member
          rw [List.singleton_append, List.erase_cons_head] at heapShape'
          have bound := (heapShape.safe small).addressable _ member
          simp only [CString.block] at bound
          have unwrapped : ((address : Int) % 2 ^ 64).toNat = address := by
            omega
          rw [← heap] at holds
          apply alone_load
          rw [beforeWord, sameWord]
          apply (heapStrlen_yields holds (fun _ _ _ => trivial) reachesTop).bind
          apply alone_load
          rw [beforeWord, sameWord]
          apply (copyFromHeap_yields holds (fun _ _ _ => trivial)
            reachesTop).bind
          apply alone_load
          rw [beforeWord, sameWord]
          apply (emsMutexMem_free_yields mutex (fun _ _ => trivial)
            (fun _ => trivial) patient
            trivial (by rw [unwrapped]; exact success)).bind
          exact alone_popped shape rest heapShape' beforeTop others
            mutex heap rfl

theorem StackOp.code_ends {op : StackOp}
    (small : EMS_MEM_BLOCKSZ * 2 ^ level < 2 ^ 63)
    (positive : 0 < array.nElem) (shape : StackShape array level kept buf stack)
    (admitted : op.Admitted buf) (patient : ¬ Patient patience stack → spins) :
    (aloneSolo spins).Ends (StackEnds array level kept stack op buf)
    (op.code array patience)
      buf := by
  have some : patience = 0 → spins := by
    rintro rfl
    exact patient fun both => absurd both.1 (lt_irrefl 0)
  cases op with
  | push value =>
      obtain ⟨fits, bounded⟩ := admitted
      rw [shape.top] at bounded
      rw [StackOp.code, ← bind_pure_comp]
      apply Solo.Ends.bind
      exact EMSpush_ends fits shape positive bounded some
  | pop =>
      rw [StackOp.code, ← bind_pure_comp]
      apply Solo.Ends.bind
      refine EMSpop_ends small shape some fun value member short => patient ?_
      intro both
      exact absurd (both.2 value member) (by omega)

private theorem stackFollows (small : EMS_MEM_BLOCKSZ * 2 ^ level < 2 ^ 63)
    (positive : 0 < array.nElem) :
    Follows (StackOp.code array) StackOp.Admitted (StackOp.HasRoom array)
      (fun stack buf => StackShape array level kept buf stack)
        (StackLaw array) where
  ends := fun shape admitted patient =>
    StackOp.code_ends small positive shape admitted patient
  lawless := by
    intro op stack next buf after error overflowed noRoom lawful
    cases lawful with
    | refused _ unchanged =>
        have counted := overflowed.counted
        rw [unchanged.top] at counted
        omega
    | popped applies => exact noRoom trivial

/-- In every run of calls that have room, pushes and pops follow the law, and
every call that is admitted next returns. -/
theorem stack_capacity (small : EMS_MEM_BLOCKSZ * 2 ^ level < 2 ^ 63)
    (positive : 0 < array.nElem)
    {after : EmsBuf} {history : List (StackOp × EntryRes)}
    (initially : EmptyStack array level kept buf)
    (calls : Run ((aloneSolo True).Call (StackOp.code array)
      (StackOp.Within array)) buf history
      after) :
    ∃ stack, Run (LawfulCall (StackOp.code array) (StackOp.Within array)
      (StackLaw array))
        ([], buf) history (stack, after) ∧
          StackShape array level kept after stack ∧
      ∀ op : StackOp, op.Admitted after →
        NextCall (StackOp.code array) (StackOp.HasRoom array) (StackLaw array)
          stack after op :=
  (stackFollows small positive).run initially.shape calls

end Calls

/-- A string on a stack of two elements, and what is on it popped again. -/
theorem stack_capacity_string :
    ∃ history after stack,
      Run (LawfulCall (StackOp.code ⟨2, false⟩) (StackOp.Within ⟨2, false⟩)
        (StackLaw ⟨2, false⟩)) ([], emptyStackBuf) history (stack, after) ∧
      (history.any fun label => match label with
        | (_, .value (.ok value)) => value = shortString
        | _ => false) = true := by
  obtain ⟨history, after, calls, popped⟩ := (aloneSolo True).exists_calls
    (StackOp.code ⟨2, false⟩) (StackOp.Within ⟨2, false⟩) 8 emptyStackBuf
    [.push shortString, .pop, .pop]
    (fun played => played.1.any fun label => match label with
      | (_, .value (.ok value)) => value = shortString
      | _ => false) (by decide +kernel)
  obtain ⟨stack, run, -⟩ :=
    stack_capacity (by decide) (by decide) (emptyStackBuf_empty _) calls
  exact ⟨history, after, stack, run, popped⟩

/-- There has been one call, a push that has failed. -/
def onlyPushFailed (type : EMSType) : List (StackOp × EntryRes) → Bool
  | [(.push value, .index (.error _))] => value.type = type
  | _ => false

/-- A push that fills the last element fails and leaves the stack busy. -/
theorem not_stack_capacity :
    ¬ ∀ (array : EmsArray) (level : Nat) (kept : List Block)
      (buf after : EmsBuf)
      (history : List (StackOp × EntryRes)), 0 < array.nElem →
      EMS_MEM_BLOCKSZ * 2 ^ level < 2 ^ 63 → EmptyStack array level kept buf →
      Run ((aloneSolo True).Call (StackOp.code array) StackOp.Admitted) buf
        history after →
      ∃ stack, Run (LawfulCall (StackOp.code array) StackOp.Admitted
        (StackLaw array)) ([], buf)
        history (stack, after) := by
  intro claim
  obtain ⟨history, after, calls, failed⟩ := (aloneSolo True).exists_calls
    (StackOp.code ⟨1, false⟩) StackOp.Admitted 2 emptyStackBuf
    [.push (scalar .integer 5)]
    (fun played => onlyPushFailed .integer played.1) (by decide +kernel)
  obtain ⟨stack, run⟩ :=
    claim ⟨1, false⟩ 0 [] emptyStackBuf after history (by decide) (by decide)
    (emptyStackBuf_empty _) calls
  unfold onlyPushFailed at failed
  split at failed
  next value error isHistory =>
    obtain rfl : history = _ := isHistory
    have type : value.type = .integer := by simpa using failed
    cases run.single.lawful with
    | refused full _ =>
        refine full ⟨by decide, fun isText => ?_⟩
        simp [type, EMSType.IsText] at isText
  · cases failed

end EMS
