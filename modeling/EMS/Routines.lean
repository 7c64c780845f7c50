import EMS.AllocHistory
import EMS.Elements

/-!
# Routines that run undisturbed

What the small routines do to a memory that nobody else accesses meanwhile:
the transition of a tag, the calls of the allocator under its mutex, and the
copying of strings into the heap and out of it.
-/

namespace EMS

open SharedProgram

/-! ## Changing a memory -/

def EmsBuf.setWord (buf : EmsBuf) (cell : Cell) (word : Int) : EmsBuf :=
  { buf with word := Function.update buf.word cell word }

def EmsBuf.setTag (buf : EmsBuf) (cell : Cell) (tag : Tag) : EmsBuf :=
  { buf with tag := Function.update buf.tag cell tag }

def EmsBuf.setMem (buf : EmsBuf) (mem : EmsMem) : EmsBuf :=
  { buf with mem := mem }

def EmsBuf.setHeap (buf : EmsBuf) (heap : Int → UInt8) : EmsBuf :=
  { buf with heap := heap }

section Fields

variable (buf : EmsBuf) (cell : Cell) (word : Int) (tag : Tag) (mem : EmsMem)
  (heap : Int → UInt8)

@[simp] theorem EmsBuf.setWord_word :
    (buf.setWord cell word).word = Function.update buf.word cell word := rfl
@[simp] theorem EmsBuf.setWord_tag :
    (buf.setWord cell word).tag = buf.tag := rfl
@[simp] theorem EmsBuf.setWord_memMutex :
    (buf.setWord cell word).memMutex = buf.memMutex := rfl
@[simp] theorem EmsBuf.setWord_mem :
    (buf.setWord cell word).mem = buf.mem := rfl
@[simp] theorem EmsBuf.setWord_heap :
    (buf.setWord cell word).heap = buf.heap := rfl

@[simp] theorem EmsBuf.setTag_word :
    (buf.setTag cell tag).word = buf.word := rfl
@[simp] theorem EmsBuf.setTag_tag :
    (buf.setTag cell tag).tag = Function.update buf.tag cell tag := rfl
@[simp] theorem EmsBuf.setTag_memMutex :
    (buf.setTag cell tag).memMutex = buf.memMutex := rfl
@[simp] theorem EmsBuf.setTag_mem : (buf.setTag cell tag).mem = buf.mem := rfl
@[simp] theorem EmsBuf.setTag_heap :
    (buf.setTag cell tag).heap = buf.heap := rfl

@[simp] theorem EmsBuf.setTag_setTag (tag' : Tag) :
    (buf.setTag cell tag).setTag cell tag' = buf.setTag cell tag' := by
  simp [EmsBuf.setTag]

@[simp] theorem EmsBuf.setTag_self : buf.setTag cell (buf.tag cell) = buf := by
  simp [EmsBuf.setTag]

@[simp] theorem EmsBuf.setMem_word : (buf.setMem mem).word = buf.word := rfl
@[simp] theorem EmsBuf.setMem_tag : (buf.setMem mem).tag = buf.tag := rfl
@[simp] theorem EmsBuf.setMem_memMutex :
    (buf.setMem mem).memMutex = buf.memMutex := rfl
@[simp] theorem EmsBuf.setMem_mem : (buf.setMem mem).mem = mem := rfl
@[simp] theorem EmsBuf.setMem_heap : (buf.setMem mem).heap = buf.heap := rfl

@[simp] theorem EmsBuf.setHeap_word : (buf.setHeap heap).word = buf.word := rfl
@[simp] theorem EmsBuf.setHeap_tag : (buf.setHeap heap).tag = buf.tag := rfl
@[simp] theorem EmsBuf.setHeap_memMutex :
    (buf.setHeap heap).memMutex = buf.memMutex := rfl
@[simp] theorem EmsBuf.setHeap_mem : (buf.setHeap heap).mem = buf.mem := rfl
@[simp] theorem EmsBuf.setHeap_heap : (buf.setHeap heap).heap = heap := rfl

end Fields

/-! ## Strings in the heap -/

/-- The bytes stand at the address, followed by a zero. -/
def HeapHolds (heap : Int → UInt8) : Int → List UInt8 → Prop
  | address, [] => heap address = 0
  | address, byte :: text =>
      heap address = byte ∧ HeapHolds heap (address + 1) text

instance decidableHeapHolds (heap : Int → UInt8) :
    (address : Int) → (text : List UInt8) → Decidable
    (HeapHolds heap address text)
  | address, [] => inferInstanceAs (Decidable (heap address = 0))
  | address, byte :: text =>
      have := decidableHeapHolds heap (address + 1) text
      inferInstanceAs (Decidable
        (heap address = byte ∧ HeapHolds heap (address + 1) text))

/-- The heap after `strcpy`. -/
def writeText : (Int → UInt8) → Int → List UInt8 → Int → UInt8
  | heap, address, [] => Function.update heap address 0
  | heap, address, byte :: text =>
      writeText (Function.update heap address byte) (address + 1) text

theorem HeapHolds.congr {heap heap' : Int → UInt8} {address : Int}
    {text : List UInt8}
    (same : ∀ a, address ≤ a → a ≤ address + text.length → heap' a = heap a)
    (holds : HeapHolds heap address text) : HeapHolds heap' address text := by
  induction text generalizing address with
  | nil => exact (same address le_rfl (by simp)).trans holds
  | cons byte text induction =>
      simp only [List.length_cons] at same
      refine ⟨(same address le_rfl (by omega)).trans holds.1,
        induction ?_ holds.2⟩
      intro a lower upper
      exact same a (by omega) (by push_cast; omega)

/-- There is one string at an address. -/
theorem HeapHolds.unique {heap : Int → UInt8} {address : Int}
    {text text' : CString}
    (holds : HeapHolds heap address text.bytes)
    (holds' : HeapHolds heap address text'.bytes) :
    text = text' := by
  obtain ⟨bytes, terminated⟩ := text
  obtain ⟨bytes', terminated'⟩ := text'
  simp only [CString.mk.injEq]
  induction bytes generalizing address bytes' with
  | nil =>
      cases bytes' with
      | nil => rfl
      | cons byte rest =>
          have zero : heap address = 0 := holds
          have nonzero := (List.forall_mem_cons.mp terminated').1
          exact absurd (holds'.1.symm.trans zero) nonzero
  | cons byte rest induction =>
      obtain ⟨nonzero, restTerminated⟩ := List.forall_mem_cons.mp terminated
      cases bytes' with
      | nil =>
          have zero : heap address = 0 := holds'
          exact absurd (holds.1.symm.trans zero) nonzero
      | cons byte' rest' =>
          rw [holds.1.symm.trans holds'.1,
            induction restTerminated holds.2 rest'
              (List.forall_mem_cons.mp terminated').2 holds'.2]

theorem writeText_outside {heap : Int → UInt8} {address a : Int}
    {text : List UInt8}
    (outside : a < address ∨ address + text.length < a) :
    writeText heap address text a = heap a := by
  induction text generalizing heap address with
  | nil =>
      have different : a ≠ address := by simp at outside; omega
      simp [writeText, different]
  | cons byte text induction =>
      simp only [List.length_cons, Nat.cast_add, Nat.cast_one] at outside
      have different : a ≠ address := by omega
      rw [writeText, induction (by omega)]
      simp [different]

theorem writeText_holds (heap : Int → UInt8) (address : Int)
    (text : List UInt8) :
    HeapHolds (writeText heap address text) address text := by
  induction text generalizing heap address with
  | nil => simp [HeapHolds, writeText]
  | cons byte text induction =>
      refine ⟨?_, induction _ _⟩
      rw [writeText, writeText_outside (.inl (by omega))]
      simp

/-! ## Undisturbed runs -/

/-- A process alone on a memory. -/
abbrev emsSolo (given : Access → EmsBuf → Prop) (allows : Access → Prop)
    (spins : Prop) :
    Solo EmsBuf Access Reply :=
  ⟨Access.perform, given, allows, spins⟩

section Undisturbed

variable {given : Access → EmsBuf → Prop} {allows : Access → Prop}
  {spins : Prop}
  {buf : EmsBuf}

theorem storeFE_yields {cell : Cell} {fe : FE}
    (mayLoad : allows (.loadTag cell))
    (mayStore : ∀ tag, allows (.storeTag cell tag)) :
    (emsSolo given allows spins).Yields (storeFE cell fe) buf ()
      (buf.setTag cell { buf.tag cell with fe := fe }) :=
  fun _ => ⟨mayLoad, fun _ => ⟨mayStore _, rfl, rfl⟩⟩

/-- A tag that is in the awaited state changes at once. -/
theorem EMStransitionFEtag_yields {cell : Cell} {mapTag : Option Cell}
    {oldFE newFE : FE}
    {patience : Nat} (found : (buf.tag cell).fe = oldFE)
    (patient : patience = 0 → spins)
    (mayLoad : allows (.loadTag cell))
    (mayCas : ∀ old new, allows (.casTag cell old new)) :
    (emsSolo given allows spins).Yields
      (EMStransitionFEtag patience cell mapTag oldFE newFE) buf
      { buf.tag cell with fe := newFE }
        (buf.setTag cell { buf.tag cell with fe := newFE }) := by
  cases patience with
  | zero => exact patient rfl
  | succ patience =>
      have unchanged : { buf.tag cell with fe := oldFE } = buf.tag cell := by
        rw [← found]
      apply Solo.Ends.perform
      refine fun _ => ⟨mayLoad, ?_⟩
      apply Solo.Ends.perform
      refine fun _ => ⟨mayCas _ _, ?_⟩
      simp only [Access.perform, unchanged, if_true]
      exact ⟨rfl, rfl⟩

section Mutex

variable (free : buf.memMutex = .empty)
  (mayCas : ∀ old new, allows (.casMutex old new))
  (mayStore : ∀ fe, allows (.storeMutex fe))

include free mayCas

theorem lockMemMutex_yields {patience : Nat} (patient : patience = 0 → spins) :
    (emsSolo given allows spins).Yields (lockMemMutex patience) buf ()
      { buf with memMutex := .full } := by
  cases patience with
  | zero => exact patient rfl
  | succ patience =>
      apply Solo.Ends.perform
      refine fun _ => ⟨mayCas _ _, ?_⟩
      simp only [Access.perform, free, if_true]
      exact ⟨trivial, rfl⟩

include mayStore

theorem emsMutexMem_alloc_ends {post : Int → EmsBuf → Prop} {patience len : Nat}
    (patient : patience = 0 → spins) (mayAlloc : allows (.memAlloc len))
    (succeeds : given (.memAlloc len) { buf with memMutex := .full } →
      ∃ address mem, emsMem_alloc buf.mem len = .ok (address, mem) ∧
        post address (buf.setMem mem)) :
    (emsSolo given allows spins).Ends post
    (emsMutexMem_alloc patience len) buf := by
  apply (lockMemMutex_yields free mayCas patient).bind
  apply Solo.Ends.perform
  intro isGiven
  obtain ⟨address, mem, success, ends⟩ := succeeds isGiven
  have restored : { buf.setMem mem with memMutex := .empty } =
      buf.setMem mem := by
    rw [← free]
    rfl
  rw [← restored] at ends
  refine ⟨mayAlloc, ?_⟩
  simp only [Access.perform, success]
  exact fun _ => ⟨mayStore _, ends⟩

theorem emsMutexMem_free_yields {patience : Nat} {address : Int} {mem : EmsMem}
    (patient : patience = 0 → spins) (mayFree : allows (.memFree address))
    (success : emsMem_free buf.mem (address % 2 ^ 64).toNat = .ok mem) :
    (emsSolo given allows spins).Yields
    (emsMutexMem_free patience address) buf ()
      (buf.setMem mem) := by
  apply (lockMemMutex_yields free mayCas patient).bind
  apply Solo.Ends.perform
  have restored : { buf.setMem mem with memMutex := .empty } =
      buf.setMem mem := by
    rw [← free]
    rfl
  refine fun _ => ⟨mayFree, ?_⟩
  simp only [Access.perform, success]
  exact fun _ => ⟨mayStore _, trivial, restored⟩

end Mutex

theorem copyToHeap_yields {address : Int} {text : List UInt8}
    (mayStore : ∀ a byte, address ≤ a → a ≤ address + text.length →
      allows (.storeByte a byte)) :
    (emsSolo given allows spins).Yields (copyToHeap address text) buf ()
      (buf.setHeap (writeText buf.heap address text)) := by
  induction text generalizing address buf with
  | nil => exact fun _ => ⟨mayStore _ _ le_rfl (by simp), rfl, rfl⟩
  | cons byte text induction =>
      simp only [List.length_cons] at mayStore
      apply Solo.Ends.perform
      refine fun _ => ⟨mayStore _ _ le_rfl (by omega), ?_⟩
      refine (induction ?_).mono ?_
      · intro a byte lower upper
        exact mayStore _ _ (by omega) (by push_cast; omega)
      · rintro _ _ ⟨-, rfl⟩
        exact ⟨rfl, rfl⟩

section Reading

variable {address : Int} {text : CString} {patience : Nat}

theorem heapStrlen_yields (holds : HeapHolds buf.heap address text.bytes)
    (mayLoad : ∀ a, address ≤ a → a ≤ address + text.bytes.length → allows
      (.loadByte a))
    (patient : patience ≤ text.bytes.length → spins) :
    (emsSolo given allows spins).Yields (heapStrlen patience address) buf
      text.bytes.length buf := by
  obtain ⟨bytes, terminated⟩ := text
  induction bytes generalizing address patience with
  | nil =>
      cases patience with
      | zero => exact patient (by simp)
      | succ patience =>
          have zero : buf.heap address = 0 := holds
          apply Solo.Ends.perform
          refine fun _ => ⟨mayLoad _ le_rfl (by simp), ?_⟩
          simp only [Access.perform, zero, if_true]
          exact ⟨rfl, rfl⟩
  | cons byte bytes induction =>
      simp only [List.length_cons, Nat.cast_add, Nat.cast_one] at mayLoad
      cases patience with
      | zero => exact patient (by simp)
      | succ patience =>
          obtain ⟨nonzero, terminated⟩ := List.forall_mem_cons.mp terminated
          have found : buf.heap address = byte := holds.1
          apply Solo.Ends.perform
          refine fun _ => ⟨mayLoad _ le_rfl (by omega), ?_⟩
          simp only [Access.perform, found, if_neg nonzero]
          apply Solo.Yields.bind (induction terminated holds.2
            (fun a lower upper =>
              mayLoad a (by omega) (by simp only at upper; omega))
            fun short => patient (by simpa using short))
          exact ⟨rfl, rfl⟩

theorem copyFromHeap_yields (holds : HeapHolds buf.heap address text.bytes)
    (mayLoad : ∀ a, address ≤ a → a ≤ address + text.bytes.length → allows
      (.loadByte a))
    (patient : patience ≤ text.bytes.length → spins) :
    (emsSolo given allows spins).Yields
    (copyFromHeap patience address) buf text buf := by
  obtain ⟨bytes, terminated⟩ := text
  induction bytes generalizing address patience with
  | nil =>
      cases patience with
      | zero => exact patient (by simp)
      | succ patience =>
          have zero : buf.heap address = 0 := holds
          apply Solo.Ends.perform
          refine fun _ => ⟨mayLoad _ le_rfl (by simp), ?_⟩
          simp only [Access.perform, zero, dite_true]
          exact ⟨rfl, rfl⟩
  | cons byte bytes induction =>
      simp only [List.length_cons, Nat.cast_add, Nat.cast_one] at mayLoad
      cases patience with
      | zero => exact patient (by simp)
      | succ patience =>
          obtain ⟨nonzero, terminated⟩ := List.forall_mem_cons.mp terminated
          have found : buf.heap address = byte := holds.1
          apply Solo.Ends.perform
          refine fun _ => ⟨mayLoad _ le_rfl (by omega), ?_⟩
          simp only [Access.perform, found, dif_neg nonzero]
          apply Solo.Yields.bind (induction terminated holds.2
            (fun a lower upper =>
              mayLoad a (by omega) (by simp only at upper; omega))
            fun short => patient (by simpa using short))
          exact ⟨rfl, rfl⟩

/-- `strcmp` with a string in the heap. -/
theorem equalsHeap_yields (holds : HeapHolds buf.heap address text.bytes)
    (mayLoad : ∀ a, address ≤ a → a ≤ address + text.bytes.length → allows
      (.loadByte a))
    (expected : CString) :
    (emsSolo given allows spins).Yields (equalsHeap expected.bytes address) buf
      (decide (expected = text)) buf := by
  obtain ⟨bytes, terminated⟩ := text
  obtain ⟨expected, expectedTerminated⟩ := expected
  simp only [CString.mk.injEq]
  induction expected generalizing address bytes with
  | nil =>
      apply Solo.Ends.perform
      refine fun _ => ⟨mayLoad _ le_rfl (by omega), ?_, rfl⟩
      cases bytes with
      | nil =>
          have zero : buf.heap address = 0 := holds
          simp [Access.perform, zero]
      | cons byte bytes =>
          have nonzero := terminated byte List.mem_cons_self
          have found : buf.heap address = byte := holds.1
          simp [Access.perform, found, nonzero]
  | cons first expected induction =>
      obtain ⟨nonzero, restTerminated⟩ :=
        List.forall_mem_cons.mp expectedTerminated
      apply Solo.Ends.perform
      refine fun _ => ⟨mayLoad _ le_rfl (by omega), ?_⟩
      cases bytes with
      | nil =>
          have zero : buf.heap address = 0 := holds
          simp only [Access.perform, zero, if_neg nonzero.symm]
          exact ⟨by simp, rfl⟩
      | cons byte bytes =>
          simp only [List.length_cons, Nat.cast_add, Nat.cast_one] at mayLoad
          have found : buf.heap address = byte := holds.1
          by_cases same : byte = first
          · subst same
            simp only [Access.perform, found, if_true]
            simp only [List.cons.injEq, true_and]
            exact induction bytes (List.forall_mem_cons.mp terminated).2 holds.2
              (fun a lower upper =>
                mayLoad a (by omega) (by simp only at upper; omega))
              restTerminated
          · simp only [Access.perform, found, if_neg same]
            refine ⟨?_, rfl⟩
            simp [Ne.symm same]

end Reading

end Undisturbed

/-! ## Waiting among others -/

section Waiting

variable {ι M Op Res Γ α : Type} {protocol : Protocol ι M Access Reply Op Res Γ}
  {machine : Machine ι M Access Reply Op Res} {p : ι}

/-- A transition that waits for the tag while others change it.  Until it
succeeds it only looks at the tag. -/
theorem EMStransitionFEtag_triple {cell : Cell} {oldFE newFE : FE}
    (buf : M → EmsBuf)
    (finds : ∀ memory old new,
      (machine.perform p (.casTag cell old new) memory).1 =
        (buf memory).tag cell)
    {pending : Γ × M → Prop} (acquired : Tag → Γ × M → Prop)
    (stable : protocol.Stable p pending)
    (looks : ∀ ghost memory, protocol.inv (ghost, memory) → pending
      (ghost, memory) →
      ∃ ghost', protocol.move p (.access (.loadTag cell)
          (machine.perform p (.loadTag cell) memory).1) (ghost, memory)
          (ghost', (machine.perform p (.loadTag cell) memory).2) ∧
        pending (ghost', (machine.perform p (.loadTag cell) memory).2))
    (fails : ∀ ghost memory old new, protocol.inv (ghost, memory) → pending
      (ghost, memory) →
      (buf memory).tag cell ≠ old →
      ∃ ghost', protocol.move p (.access (.casTag cell old new)
          (machine.perform p (.casTag cell old new) memory).1) (ghost, memory)
          (ghost', (machine.perform p (.casTag cell old new) memory).2) ∧
        pending (ghost', (machine.perform p (.casTag cell old new) memory).2))
    (succeeds : ∀ ghost memory tag, protocol.inv (ghost, memory) → pending
      (ghost, memory) →
      tag.fe = oldFE → (buf memory).tag cell = tag →
      ∃ ghost', protocol.move p
        (.access (.casTag cell tag { tag with fe := newFE })
          (machine.perform p
            (.casTag cell tag { tag with fe := newFE }) memory).1)
          (ghost, memory)
          (ghost', (machine.perform p
            (.casTag cell tag { tag with fe := newFE }) memory).2) ∧
        acquired tag
          (ghost', (machine.perform p
            (.casTag cell tag { tag with fe := newFE }) memory).2))
    {patience : Nat} {rest : Tag → EmsProg α} {post : α → Γ × M → Prop}
    (continues : ∀ tag : Tag,
      protocol.Triple machine p (acquired tag)
        (rest { tag with fe := newFE }) post) :
    protocol.Triple machine p pending
      (EMStransitionFEtag patience cell none oldFE newFE >>= rest) post := by
  induction patience with
  | zero => exact Protocol.Triple.spin
  | succ patience induction =>
      simp only [EMStransitionFEtag, Prog.perform_bind, Prog.access_bind]
      apply Protocol.Triple.access (fun _ => pending) stable
      · intro ghost memory inv holds _
        exact looks ghost memory inv holds
      intro (memTag : Tag)
      apply Protocol.Triple.access (fun (found : Tag) state =>
        if found = { memTag with fe := oldFE } then
          acquired { memTag with fe := oldFE } state
        else pending state) stable
      · intro ghost memory inv holds _
        by_cases same : (buf memory).tag cell = { memTag with fe := oldFE }
        · simp only [finds, same, if_true]
          simpa only [finds,
            same] using succeeds ghost memory _ inv holds rfl same
        · simp only [finds, same, if_false]
          simpa only [finds] using fails ghost memory _ _ inv holds same
      intro (found : Tag)
      by_cases same : found = { memTag with fe := oldFE }
      · simpa only [same, if_true, Prog.pure_eq, Prog.ret_bind] using
          continues { memTag with fe := oldFE }
      · simpa only [same, if_false] using induction

end Waiting

end EMS
