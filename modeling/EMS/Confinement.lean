import EMS.ReturningCalls

/-!
# What a program cannot change

A program that stores only certain words and changes only certain tags leaves
all others as they are, whatever it reads and however it ends.
-/

namespace EMS

open SharedProgram

/-- The word that the access may change. -/
def Access.stores : Access → Option Cell
  | .store cell _ => some cell
  | _ => none

/-- The access changes no tags and words but these. -/
def Access.Confined (tags words : Cell → Prop) (act : Access) : Prop :=
  (∀ cell, act.tagged = some cell → tags cell) ∧ ∀ cell,
    act.stores = some cell → words cell

/-- The program changes no tags and words but these. -/
abbrev Confined {α : Type} (tags words : Cell → Prop)
    (prog : EmsProg α) : Prop :=
  prog.Only (Access.Confined tags words)

theorem Access.perform_word {act : Access} {cell : Cell}
    (untouched : act.stores ≠ some cell)
    (buf : EmsBuf) : (act.perform buf).2.word cell = buf.word cell := by
  cases act with
  | store other word =>
      have different : cell ≠ other := by
        rintro rfl
        exact untouched rfl
      simp [perform, different]
  | casTag other old new => simp only [perform]; split <;> rfl
  | casMutex old new => simp only [perform]; split <;> rfl
  | memAlloc bytes => simp only [perform]; split <;> rfl
  | memFree address => simp only [perform]; split <;> rfl
  | _ => rfl

section Frames

variable {α β : Type} {tags words : Cell → Prop} {ledger after : Ledger}
  {value : α} {cell : Cell}

theorem Confined.tag {prog : EmsProg α} (confined : Confined tags words prog)
    (returned : heapSolo.Returns prog ledger value after)
    (other : ¬ tags cell) :
    after.buf.tag cell = ledger.buf.tag cell := by
  refine returned.keeps (fun known => known.buf.tag cell = ledger.buf.tag cell)
    confined ?_ rfl
  intro act known allowed same
  rw [← same]
  exact Access.perform_tag
    (fun tagged => other (allowed.1 cell tagged)) known.buf

theorem Confined.word {prog : EmsProg α} (confined : Confined tags words prog)
    (returned : heapSolo.Returns prog ledger value after)
    (other : ¬ words cell) :
    after.buf.word cell = ledger.buf.word cell := by
  refine returned.keeps
    (fun known => known.buf.word cell = ledger.buf.word cell) confined ?_ rfl
  intro act known allowed same
  rw [← same]
  exact Access.perform_word
    (fun stored => other (allowed.2 cell stored)) known.buf

end Frames

/-! ## The routines -/

section Routines

variable {α β : Type} {tags words : Cell → Prop} {cell : Cell} {patience : Nat}

theorem confined_perform {act : Access} {rest : Reply act → EmsProg α}
    (free : act.tagged = none ∧ act.stores = none)
    (next : ∀ reply, Confined tags words (rest reply)) :
    Confined tags words (Prog.perform act >>= rest) := by
  refine ⟨⟨?_, ?_⟩, next⟩
  · rw [free.1]
    nofun
  · rw [free.2]
    nofun

theorem confined_load {rest : Int → EmsProg α}
    (next : ∀ word, Confined tags words (rest word)) :
    Confined tags words (load cell >>= rest) :=
  confined_perform ⟨rfl, rfl⟩ next

theorem confined_loadTag {rest : Tag → EmsProg α}
    (next : ∀ tag, Confined tags words (rest tag)) :
    Confined tags words (loadTag cell >>= rest) :=
  confined_perform ⟨rfl, rfl⟩ next

theorem confined_store {word : Int} {rest : Unit → EmsProg α} (may : words cell)
    (next : Confined tags words (rest ())) :
    Confined tags words (store cell word >>= rest) := by
  refine ⟨⟨nofun, ?_⟩, fun _ => next⟩
  rintro _ ⟨⟩
  exact may

theorem confined_storeTag {tag : Tag} {rest : Unit → EmsProg α}
    (may : tags cell)
    (next : Confined tags words (rest ())) :
    Confined tags words (storeTag cell tag >>= rest) := by
  refine ⟨⟨?_, nofun⟩, fun _ => next⟩
  rintro _ ⟨⟩
  exact may

private theorem confined_casTag {old new : Tag} {rest : Tag → EmsProg α}
    (may : tags cell)
    (next : ∀ tag, Confined tags words (rest tag)) :
    Confined tags words (casTag cell old new >>= rest) := by
  refine ⟨⟨?_, nofun⟩, next⟩
  rintro _ ⟨⟩
  exact may

theorem confined_storeFE {fe : FE} {rest : Unit → EmsProg α} (may : tags cell)
    (next : Confined tags words (rest ())) :
    Confined tags words (storeFE cell fe >>= rest) := by
  rw [storeFE, bind_assoc]
  exact confined_loadTag fun tag => confined_storeTag may next

theorem transition_confined {mapTag : Option Cell} {oldFE newFE : FE}
    (may : tags cell)
    (mayMap : ∀ map, mapTag = some map → tags map) :
    Confined tags words
      (EMStransitionFEtag patience cell mapTag oldFE newFE) := by
  induction patience generalizing cell mapTag oldFE newFE with
  | zero => trivial
  | succ patience induction =>
      simp only [EMStransitionFEtag]
      apply confined_loadTag
      intro tag
      apply confined_casTag may
      intro found
      split
      · trivial
      · cases mapTag with
        | none => exact induction may mayMap
        | some map =>
            apply confined_storeFE (mayMap map rfl)
            apply Prog.Only.bind
            · exact induction (mayMap map rfl) (by simp)
            · exact fun _ => induction may mayMap

theorem heapStrlen_confined {address : Int} :
    Confined tags words (heapStrlen patience address) := by
  induction patience generalizing address with
  | zero => trivial
  | succ patience induction =>
      rw [heapStrlen]
      apply confined_perform ⟨rfl, rfl⟩
      intro byte
      split
      · trivial
      · exact induction.bind fun _ => trivial

theorem copyFromHeap_confined {address : Int} :
    Confined tags words (copyFromHeap patience address) := by
  induction patience generalizing address with
  | zero => trivial
  | succ patience induction =>
      rw [copyFromHeap]
      apply confined_perform ⟨rfl, rfl⟩
      intro byte
      split
      · trivial
      · exact induction.bind fun _ => trivial

theorem copyToHeap_confined {address : Int} {text : List UInt8} :
    Confined tags words (copyToHeap address text) := by
  induction text generalizing address with
  | nil => exact ⟨⟨nofun, nofun⟩, fun _ => trivial⟩
  | cons byte text induction =>
      rw [copyToHeap]
      exact confined_perform ⟨rfl, rfl⟩ fun _ => induction

theorem lockMemMutex_confined :
    Confined tags words (lockMemMutex patience) := by
  induction patience with
  | zero => trivial
  | succ patience induction =>
      rw [lockMemMutex]
      apply confined_perform ⟨rfl, rfl⟩
      intro acquired
      split
      · trivial
      · exact induction

theorem alloc_confined {bytes : Nat} :
    Confined tags words (emsMutexMem_alloc patience bytes) := by
  apply lockMemMutex_confined.bind
  intro _
  apply confined_perform ⟨rfl, rfl⟩
  intro answer
  cases answer with
  | error fault => trivial
  | ok address => exact confined_perform ⟨rfl, rfl⟩ fun _ => trivial

theorem free_confined {address : Int} :
    Confined tags words (emsMutexMem_free patience address) := by
  apply lockMemMutex_confined.bind
  intro _
  apply confined_perform ⟨rfl, rfl⟩
  intro answer
  cases answer with
  | error fault => trivial
  | ok => exact ⟨⟨nofun, nofun⟩, fun _ => trivial⟩

end Routines

end EMS
