import EMS.Ledger

/-!
# Calls that have returned

What a process alone knows once a routine has returned: what must have been the
case before, and what the routine has left behind.  The allocator may refuse
requests here.  A call that waits for ever or fails an assertion does not
return, so nothing is said about it.
-/

namespace EMS

open SharedProgram

/-- A process alone on a memory whose allocator may refuse requests. -/
abbrev heapSolo : Solo Ledger Access Reply where
  perform := Access.account
  given := fun _ _ => True
  allows := fun _ => True
  spins := True

instance heapSolo.decidableGiven (act : Access) (ledger : Ledger) :
    Decidable (heapSolo.given act ledger) :=
  isTrue trivial

/-! ## Changing a ledger -/

def Ledger.setTag (ledger : Ledger) (cell : Cell) (tag : Tag) : Ledger :=
  { ledger with buf := ledger.buf.setTag cell tag }

def Ledger.setWord (ledger : Ledger) (cell : Cell) (word : Int) : Ledger :=
  { ledger with buf := ledger.buf.setWord cell word }

def Ledger.setHeap (ledger : Ledger) (heap : Int → UInt8) : Ledger :=
  { ledger with buf := ledger.buf.setHeap heap }

/-- The ledger after the allocator has answered a request with the address. -/
def Ledger.allocated (ledger : Ledger) (bytes : Nat) (address : Int)
    (mem : EmsMem) : Ledger where
  buf := ledger.buf.setMem mem
  live := if 0 ≤ address then ⟨address.toNat, bytes⟩ :: ledger.live
    else ledger.live
  misfreed := ledger.misfreed

/-- The ledger after the allocator has taken back what stands at the address. -/
def Ledger.freed (ledger : Ledger) (address : Int) (mem : EmsMem) : Ledger where
  buf := ledger.buf.setMem mem
  live := ledger.live.eraseP fun block => block.address = heapOffset address
  misfreed := ledger.misfreed || Access.misfrees (.memFree address) ledger.live

section Fields

variable (ledger : Ledger) (cell : Cell) (tag : Tag) (word : Int)
  (heap : Int → UInt8)
  (bytes : Nat) (address : Int) (mem : EmsMem)

@[simp] theorem Ledger.setTag_buf :
    (ledger.setTag cell tag).buf = ledger.buf.setTag cell tag := rfl
@[simp] theorem Ledger.setTag_live :
    (ledger.setTag cell tag).live = ledger.live := rfl
@[simp] theorem Ledger.setTag_misfreed :
    (ledger.setTag cell tag).misfreed = ledger.misfreed := rfl

@[simp] theorem Ledger.setWord_buf :
    (ledger.setWord cell word).buf = ledger.buf.setWord cell word := rfl
@[simp] theorem Ledger.setWord_live :
    (ledger.setWord cell word).live = ledger.live := rfl
@[simp] theorem Ledger.setWord_misfreed :
    (ledger.setWord cell word).misfreed = ledger.misfreed := rfl

@[simp] theorem Ledger.setHeap_buf :
    (ledger.setHeap heap).buf = ledger.buf.setHeap heap := rfl
@[simp] theorem Ledger.setHeap_live :
    (ledger.setHeap heap).live = ledger.live := rfl
@[simp] theorem Ledger.setHeap_misfreed :
    (ledger.setHeap heap).misfreed = ledger.misfreed := rfl

@[simp] theorem Ledger.allocated_buf :
    (ledger.allocated bytes address mem).buf = ledger.buf.setMem mem := rfl
@[simp] theorem Ledger.freed_buf :
    (ledger.freed address mem).buf = ledger.buf.setMem mem := rfl

@[simp] theorem Ledger.setTag_setTag (tag' : Tag) :
    (ledger.setTag cell tag).setTag cell tag' = ledger.setTag cell tag' := by
  simp [Ledger.setTag]

@[simp] theorem Ledger.setTag_self : ledger.setTag cell (ledger.buf.tag cell) =
    ledger := by
  simp [Ledger.setTag]

theorem Ledger.allocated_live (refused : address < 0) :
    (ledger.allocated bytes address mem).live = ledger.live :=
  if_neg (by omega)

end Fields

/-! ## Accesses -/

section Accesses

variable {α : Type} {ledger after : Ledger} {value : α} {cell : Cell}

theorem quiet_returns (act : Access) (quiet : act.Quiet)
    {rest : Reply act → EmsProg α} :
    heapSolo.Returns (Prog.perform act >>= rest) ledger value after ↔
      heapSolo.Returns (rest (act.perform ledger.buf).1)
        { ledger with buf := (act.perform ledger.buf).2 } value after := by
  rw [Prog.perform_bind, Solo.returns_access_iff]
  change True ∧ heapSolo.Returns (rest (act.account ledger).1)
    (act.account ledger).2 _ _ ↔ _
  rw [quiet.account, true_and]

theorem load_returns {rest : Int → EmsProg α} :
    heapSolo.Returns (load cell >>= rest) ledger value after ↔
      heapSolo.Returns (rest (ledger.buf.word cell)) ledger value after :=
  quiet_returns (.load cell) trivial

theorem store_returns {word : Int} {rest : Unit → EmsProg α} :
    heapSolo.Returns (store cell word >>= rest) ledger value after ↔
      heapSolo.Returns (rest ()) (ledger.setWord cell word) value after :=
  quiet_returns (.store cell word) trivial

theorem loadTag_returns {rest : Tag → EmsProg α} :
    heapSolo.Returns (loadTag cell >>= rest) ledger value after ↔
      heapSolo.Returns (rest (ledger.buf.tag cell)) ledger value after :=
  quiet_returns (.loadTag cell) trivial

theorem storeTag_returns {tag : Tag} {rest : Unit → EmsProg α} :
    heapSolo.Returns (storeTag cell tag >>= rest) ledger value after ↔
      heapSolo.Returns (rest ()) (ledger.setTag cell tag) value after :=
  quiet_returns (.storeTag cell tag) trivial

theorem loadByte_returns {address : Int} {rest : UInt8 → EmsProg α} :
    heapSolo.Returns (loadByte address >>= rest) ledger value after ↔
      heapSolo.Returns (rest (ledger.buf.heap address)) ledger value after :=
  quiet_returns (.loadByte address) trivial

theorem storeFE_returns {fe : FE} {rest : Unit → EmsProg α} :
    heapSolo.Returns (storeFE cell fe >>= rest) ledger value after ↔
      heapSolo.Returns (rest ())
        (ledger.setTag cell { ledger.buf.tag cell with fe := fe })
          value after := by
  simp only [storeFE, bind_assoc, loadTag_returns, storeTag_returns]

theorem storeType_returns {type : EMSType} {rest : Unit → EmsProg α} :
    heapSolo.Returns (storeType cell type >>= rest) ledger value after ↔
      heapSolo.Returns (rest ())
        (ledger.setTag cell { ledger.buf.tag cell with type := type })
          value after := by
  simp only [storeType, bind_assoc, loadTag_returns, storeTag_returns]

/-- A compare-and-swap that finds the tag that is there. -/
theorem casTag_returns {tag : Tag} {rest : Tag → EmsProg α} :
    heapSolo.Returns (casTag cell (ledger.buf.tag cell) tag >>= rest) ledger
      value after ↔
      heapSolo.Returns (rest (ledger.buf.tag cell)) (ledger.setTag cell tag)
        value after := by
  rw [quiet_returns (.casTag cell (ledger.buf.tag cell) tag) trivial]
  simp only [Access.perform, if_true]
  rfl

theorem casTag_returns_ne {old tag : Tag} {rest : Tag → EmsProg α}
    (other : ledger.buf.tag cell ≠ old) :
    heapSolo.Returns (casTag cell old tag >>= rest) ledger value after ↔
      heapSolo.Returns (rest (ledger.buf.tag cell)) ledger value after := by
  rw [quiet_returns (.casTag cell old tag) trivial]
  simp only [Access.perform, if_neg other]

end Accesses

/-! ## Routines that are not accounted for -/

section Quiet

variable {α : Type} {ledger after : Ledger} {value : α}

theorem Ends.quiet_returns {post : α → EmsBuf → Prop} {prog : EmsProg α}
    (ends : (quietSolo True).Ends post prog ledger.buf)
    (returned : heapSolo.Returns prog ledger value after) :
    ∃ buf, after = { ledger with buf := buf } ∧ post value buf := by
  induction prog generalizing ledger with
  | ret result =>
      obtain ⟨rfl, rfl⟩ := Solo.returns_ret_iff.mp returned
      exact ⟨_, rfl, ends⟩
  | access act next induction =>
      obtain ⟨quiet, ends⟩ := ends trivial
      have continued := (quiet_returns act quiet).mp returned
      exact @induction _ { ledger with buf := (act.perform ledger.buf).2 }
        ends continued
  | spin => cases returned
  | abort => cases returned

theorem Ends.exists_quiet {post : α → EmsBuf → Prop} {prog : EmsProg α}
    (ends : (quietSolo False).Ends post prog ledger.buf) :
    ∃ value buf, heapSolo.Returns prog ledger value { ledger with buf := buf } ∧
      post value buf := by
  induction prog generalizing ledger with
  | ret result => exact ⟨result, ledger.buf, .ret, ends⟩
  | access act next induction =>
      obtain ⟨quiet, ends⟩ := ends trivial
      obtain ⟨value, buf, returned, holds⟩ :=
        @induction _ { ledger with buf := (act.perform ledger.buf).2 } ends
      exact ⟨value, buf, (EMS.quiet_returns act quiet).mpr returned, holds⟩
  | spin => exact ends.elim
  | abort => exact ends.elim

/-- A tag is awaited only in the state in which it is found. -/
theorem EMStransitionFEtag_returns {patience : Nat} {cell : Cell}
    {mapTag : Option Cell}
    {oldFE newFE : FE} {tag : Tag}
    (apart : ∀ map, mapTag = some map → cell ≠ map)
    (returned : heapSolo.Returns
      (EMStransitionFEtag patience cell mapTag oldFE newFE)
      ledger tag after) :
    (ledger.buf.tag cell).fe = oldFE ∧
      tag = { ledger.buf.tag cell with fe := newFE } ∧
      after = ledger.setTag cell { ledger.buf.tag cell with fe := newFE } := by
  induction patience generalizing ledger after cell mapTag oldFE newFE tag with
  | zero => cases returned
  | succ patience induction =>
      by_cases found : (ledger.buf.tag cell).fe = oldFE
      · obtain ⟨buf, rfl, sameTag, rfl⟩ := Ends.quiet_returns
          (EMStransitionFEtag_yields found (fun _ => trivial) trivial fun _ _ =>
            trivial) returned
        exact ⟨found, sameTag, rfl⟩
      · exfalso
        have other : ledger.buf.tag cell ≠
            { ledger.buf.tag cell with fe := oldFE } := by
          intro same
          exact found (congrArg Tag.fe same)
        cases mapTag with
        | none =>
            simp only [EMStransitionFEtag, loadTag_returns,
              casTag_returns_ne other,
              if_neg other] at returned
            exact found (induction apart returned).1
        | some map =>
            have different := apart map rfl
            simp only [EMStransitionFEtag, loadTag_returns,
              casTag_returns_ne other,
              if_neg other, storeFE_returns] at returned
            obtain ⟨mapBusy, between, waited, again⟩ :=
              Solo.returns_bind_iff.mp returned
            obtain ⟨-, -, rfl⟩ := induction (by simp) waited
            have here := (induction apart again).1
            simp only [Ledger.setTag_buf, EmsBuf.setTag_tag,
              Function.update_of_ne different] at here
            exact found here

theorem transition_returns {patience : Nat} {cell : Cell} {oldFE newFE : FE}
    {rest : Tag → EmsProg α}
    (returned : heapSolo.Returns
      (EMStransitionFEtag patience cell none oldFE newFE >>= rest)
      ledger value after) :
    (ledger.buf.tag cell).fe = oldFE ∧
      heapSolo.Returns (rest { ledger.buf.tag cell with fe := newFE })
        (ledger.setTag cell { ledger.buf.tag cell with fe := newFE })
          value after := by
  obtain ⟨tag, between, waited, continued⟩ := Solo.returns_bind_iff.mp returned
  obtain ⟨found, rfl, rfl⟩ :=
    EMStransitionFEtag_returns
      (fun _ (wrong : none = some _) => nomatch wrong) waited
  exact ⟨found, continued⟩

/-- A tag that is found in the awaited state is not waited for. -/
theorem transition_found {patience : Nat} {cell : Cell} {mapTag : Option Cell}
    {oldFE newFE : FE}
    {rest : Tag → EmsProg α} (found : (ledger.buf.tag cell).fe = oldFE) :
    heapSolo.Returns (EMStransitionFEtag (patience + 1) cell mapTag oldFE
      newFE >>= rest)
        ledger value after ↔
      heapSolo.Returns (rest { ledger.buf.tag cell with fe := newFE })
        (ledger.setTag cell { ledger.buf.tag cell with fe := newFE })
          value after := by
  have same : { ledger.buf.tag cell with fe := oldFE } =
    ledger.buf.tag cell := by rw [← found]
  simp only [EMStransitionFEtag, bind_assoc, loadTag_returns, same,
    casTag_returns, if_true,
    pure_bind]

theorem heapStrlen_returns {patience : Nat} {address : Int} {length : Nat}
    (returned : heapSolo.Returns
      (heapStrlen patience address) ledger length after) :
    after = ledger ∧ ∃ text : CString,
      HeapHolds ledger.buf.heap address text.bytes ∧
      length = text.bytes.length := by
  suffices ends : (quietSolo True).Ends
      (fun length buf => buf = ledger.buf ∧ ∃ text : CString,
      HeapHolds ledger.buf.heap address text.bytes ∧ length = text.bytes.length)
      (heapStrlen patience address) ledger.buf by
    obtain ⟨_, rfl, rfl, text⟩ := Ends.quiet_returns ends returned
    exact ⟨rfl, text⟩
  clear returned
  induction patience generalizing address with
  | zero => trivial
  | succ patience induction =>
      apply Solo.Ends.perform
      refine fun _ => ⟨trivial, ?_⟩
      change (quietSolo True).Ends _
        (if ledger.buf.heap address = 0 then _ else _) ledger.buf
      split
      · next zero => exact ⟨rfl, .empty, zero, rfl⟩
      · next nonzero =>
          apply Solo.Ends.bind
          apply induction.mono
          rintro _ _ ⟨rfl, text, holds, rfl⟩
          exact ⟨rfl, ⟨_ :: text.bytes,
            List.forall_mem_cons.mpr ⟨nonzero, text.terminated⟩⟩,
            ⟨rfl, holds⟩, rfl⟩

theorem copyFromHeap_returns {patience : Nat} {address : Int} {text : CString}
    (returned : heapSolo.Returns
      (copyFromHeap patience address) ledger text after) :
    after = ledger ∧ HeapHolds ledger.buf.heap address text.bytes := by
  suffices ends : (quietSolo True).Ends (fun text buf => buf = ledger.buf ∧
      HeapHolds ledger.buf.heap address text.bytes)
        (copyFromHeap patience address)
      ledger.buf by
    obtain ⟨_, rfl, rfl, holds⟩ := Ends.quiet_returns ends returned
    exact ⟨rfl, holds⟩
  clear returned
  induction patience generalizing address with
  | zero => trivial
  | succ patience induction =>
      apply Solo.Ends.perform
      refine fun _ => ⟨trivial, ?_⟩
      change (quietSolo True).Ends _
        (if nonzero : ledger.buf.heap address = 0 then _ else _) ledger.buf
      split
      · next zero => exact ⟨rfl, zero⟩
      · next nonzero =>
          apply Solo.Ends.bind
          apply induction.mono
          rintro _ _ ⟨rfl, holds⟩
          exact ⟨rfl, rfl, holds⟩

theorem copyToHeap_returns {address : Int} {text : List UInt8}
    {rest : Unit → EmsProg α}
    (returned : heapSolo.Returns
      (copyToHeap address text >>= rest) ledger value after) :
    heapSolo.Returns (rest ())
      (ledger.setHeap (writeText ledger.buf.heap address text))
      value after := by
  obtain ⟨_, between, copied, continued⟩ := Solo.returns_bind_iff.mp returned
  obtain ⟨_, rfl, -, rfl⟩ := Ends.quiet_returns
    (copyToHeap_yields (fun _ _ _ _ => trivial)) copied
  exact continued

end Quiet

/-! ## The allocator -/

section Allocator

variable {α : Type} {ledger after : Ledger} {value : α} {patience : Nat}

theorem lockMemMutex_returns {rest : Unit → EmsProg α}
    (returned : heapSolo.Returns
      (lockMemMutex patience >>= rest) ledger value after) :
    ledger.buf.memMutex = .empty ∧
      heapSolo.Returns (rest ()) { ledger with buf.memMutex := .full }
        value after := by
  induction patience with
  | zero => cases returned
  | succ patience induction =>
      simp only [lockMemMutex, bind_assoc] at returned
      rw [quiet_returns (.casMutex .empty .full) trivial] at returned
      by_cases free : ledger.buf.memMutex = .empty
      · simp only [Access.perform, if_pos free, if_true] at returned
        exact ⟨free, returned⟩
      · simp only [Access.perform, if_neg free] at returned
        exact induction returned

/-- The allocator has answered. -/
theorem emsMutexMem_alloc_returns {bytes : Nat} {address : Int}
    (returned : heapSolo.Returns
      (emsMutexMem_alloc patience bytes) ledger address after) :
    ∃ mem, emsMem_alloc ledger.buf.mem bytes = .ok (address, mem) ∧
      after = ledger.allocated bytes address mem := by
  obtain ⟨free, answered⟩ := lockMemMutex_returns returned
  simp only [Prog.perform_bind, Solo.returns_access_iff, true_and] at answered
  cases result : emsMem_alloc ledger.buf.mem bytes with
  | error fault =>
      simp only [Access.account, Access.perform, result] at answered
      cases answered
  | ok served =>
      obtain ⟨offset, mem⟩ := served
      simp only [Access.account, Access.perform, result, Access.settle,
        Access.misfrees,
        Bool.or_false, Solo.returns_access_iff, true_and] at answered
      obtain ⟨rfl, rfl⟩ := Solo.returns_ret_iff.mp answered
      refine ⟨mem, rfl, ?_⟩
      simp only [Ledger.allocated, EmsBuf.setMem, free]

/-- The allocator has taken the block back. -/
theorem emsMutexMem_free_returns {address : Int} {rest : Unit → EmsProg α}
    (returned : heapSolo.Returns
      (emsMutexMem_free patience address >>= rest) ledger value after) :
    ∃ mem, emsMem_free ledger.buf.mem (heapOffset address) = .ok mem ∧
      heapSolo.Returns (rest ()) (ledger.freed address mem) value after := by
  rw [emsMutexMem_free, bind_assoc] at returned
  obtain ⟨free, answered⟩ := lockMemMutex_returns returned
  rw [bind_assoc, Prog.perform_bind, Solo.returns_access_iff] at answered
  replace answered := answered.2
  cases result : emsMem_free ledger.buf.mem (heapOffset address) with
  | error fault =>
      simp only [heapOffset] at result
      simp only [Access.account, Access.perform, result] at answered
      cases answered
  | ok mem =>
      simp only [heapOffset] at result
      simp only [Access.account, Access.perform, result, Access.settle,
        Prog.perform_bind,
        Solo.returns_access_iff, true_and] at answered
      refine ⟨mem, rfl, ?_⟩
      simpa only [Ledger.freed, EmsBuf.setMem, free, Access.misfrees,
        Bool.or_false] using answered

end Allocator

end EMS
