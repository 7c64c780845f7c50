import EMS.QueueProtocol

/-!
# The shared queue loses and duplicates nothing while enqueues are careful

The programs of enqueue and dequeue keep to the protocol of the queue in every
run whose steps are careful.  An enqueue that overtakes the dequeue that has its
slot is not careful, and the queue then loses a value.
-/

namespace EMS

open SharedProgram Interleaving

section Programs

variable {ι : Type} [DecidableEq ι] {array : EmsArray} {level : Nat} {p : ι}

/-! ## What the others leave alone -/

/-- What a process relies on after a move of somebody else. -/
structure Spared (p : ι) (state next : QueueGhost ι × QueueMem ι) : Prop where
  phase : next.1.spec.phase p = state.1.spec.phase p
  loaded : next.2.log.loaded p = state.2.log.loaded p
  enqueuer : next.2.log.enqueuer = some p ↔ state.2.log.enqueuer = some p
  dequeuer : next.1.dequeuer = some p ↔ state.1.dequeuer = some p
  enqueued : ∀ (k : Nat) (value : EMSvalueType),
    state.1.spec.object.enqueued[k]? = some value →
    next.1.spec.object.enqueued[k]? = some value
  taken : state.1.spec.object.taken ≤ next.1.spec.object.taken
  announced : state.2.log.enqueuer = some p →
    next.1.spec.object.enqueued.length = state.1.spec.object.enqueued.length ∧
      next.1.begun = state.1.begun
  drawn : state.1.dequeuer = some p →
    next.1.spec.object.taken = state.1.spec.object.taken ∧
      next.1.drawn = state.1.drawn
  user : ∀ i, (next.1.use i).user = some p ↔ (state.1.use i).user = some p
  mine : ∀ i, (state.1.use i).user = some p →
    next.1.use i = state.1.use i ∧ next.1.blocks i = state.1.blocks i ∧
      next.2.buf.tag (EMSdataCell i) = state.2.buf.tag (EMSdataCell i) ∧
      next.2.buf.word (EMSdataCell i) = state.2.buf.word (EMSdataCell i) ∧
      ∀ block ∈ state.1.blocks i, block.Same state.2.buf.heap next.2.buf.heap

omit [DecidableEq ι] in
theorem Spared.refl (state : QueueGhost ι × QueueMem ι) :
    Spared p state state :=
  ⟨rfl, rfl, Iff.rfl, Iff.rfl, fun _ _ same => same, le_rfl,
    fun _ => ⟨rfl, rfl⟩,
    fun _ => ⟨rfl, rfl⟩, fun _ => Iff.rfl,
    fun _ _ => ⟨rfl, rfl, rfl, rfl, fun _ _ _ _ _ => rfl⟩⟩

theorem note_loaded {q : ι} (different : q ≠ p) (log : QueueLog ι)
    (buf : EmsBuf) (act : Access)
    (reply : Reply act) :
    (log.note q buf act reply).loaded p = log.loaded p := by
  cases act with
  | load cell => simp [QueueLog.note, different.symm]
  | store cell word => simp only [QueueLog.note]; split <;> rfl
  | casTag cell old new => simp only [QueueLog.note]; split <;> rfl
  | storeTag cell tag =>
      simp only [QueueLog.note]; split <;> (try split) <;> rfl
  | _ => rfl

theorem note_slot_enqueuer {i : Int} (inside : 0 ≤ i) (log : QueueLog ι)
    (buf : EmsBuf)
    {tag : Tag} :
    (log.note p buf (.storeTag (EMSdataCell i) tag) ()).enqueuer =
      log.enqueuer := by
  simp only [QueueLog.note, if_neg (EMSdataCell_ne_stackTop inside)]
  split <;> rfl

omit [DecidableEq ι] in
/-- A process keeps its slots when only slots of others are touched. -/
theorem spared_slots (p : ι) (state next : QueueGhost ι × QueueMem ι)
    (inv : QueueInv array level state.1 state.2) (touched : Int → Prop)
    (use : ∀ j, ¬ touched j → next.1.use j = state.1.use j)
    (others : ∀ j, touched j →
      (state.1.use j).user ≠ some p ∧ (next.1.use j).user ≠ some p)
    (rest : ∀ j, ¬ touched j → 0 ≤ j → next.1.blocks j = state.1.blocks j ∧
      next.2.buf.tag (EMSdataCell j) = state.2.buf.tag (EMSdataCell j) ∧
      next.2.buf.word (EMSdataCell j) = state.2.buf.word (EMSdataCell j) ∧
      ∀ block ∈ state.1.blocks j, block.Same state.2.buf.heap next.2.buf.heap) :
    (∀ i, (next.1.use i).user = some p ↔ (state.1.use i).user = some p) ∧
      ∀ i, (state.1.use i).user = some p →
        next.1.use i = state.1.use i ∧ next.1.blocks i = state.1.blocks i ∧
        next.2.buf.tag (EMSdataCell i) = state.2.buf.tag (EMSdataCell i) ∧
        next.2.buf.word (EMSdataCell i) = state.2.buf.word (EMSdataCell i) ∧
        ∀ block ∈ state.1.blocks i,
          block.Same state.2.buf.heap next.2.buf.heap := by
  constructor
  · intro i
    by_cases isTouched : touched i
    · exact iff_of_false (others i isTouched).2 (others i isTouched).1
    · rw [use i isTouched]
  · intro i mine
    have notTouched : ¬ touched i :=
      fun isTouched => (others i isTouched).1 mine
    have used : state.1.use i ≠ .free := by
      intro free
      simp [free, SlotUse.user] at mine
    exact ⟨use i notTouched, rest i notTouched (inv.inside i used).1⟩

section Others

variable {q : ι} {ghost : QueueGhost ι} {mem : QueueMem ι}

omit [DecidableEq ι] in
private theorem spared_beside (state next : QueueGhost ι × QueueMem ι)
    (inv : QueueInv array level state.1 state.2)
    (use : next.1.use = state.1.use)
    (blocks : next.1.blocks = state.1.blocks)
    (cells : ∀ j : Int, 0 ≤ j →
      next.2.buf.tag (EMSdataCell j) = state.2.buf.tag (EMSdataCell j) ∧
        next.2.buf.word (EMSdataCell j) = state.2.buf.word (EMSdataCell j))
    (heap : next.2.buf.heap = state.2.buf.heap) :
    (∀ i, (next.1.use i).user = some p ↔ (state.1.use i).user = some p) ∧
      ∀ i, (state.1.use i).user = some p →
        next.1.use i = state.1.use i ∧ next.1.blocks i = state.1.blocks i ∧
        next.2.buf.tag (EMSdataCell i) = state.2.buf.tag (EMSdataCell i) ∧
        next.2.buf.word (EMSdataCell i) = state.2.buf.word (EMSdataCell i) ∧
        ∀ block ∈ state.1.blocks i,
          block.Same state.2.buf.heap next.2.buf.heap := by
  refine spared_slots p state next inv (fun _ => False) (fun j _ => by rw [use])
    (fun _ none => none.elim) ?_
  intro j _ inside
  obtain ⟨tag, word⟩ := cells j inside
  refine ⟨by rw [blocks], tag, word, ?_⟩
  intro block _ k _ _
  rw [heap]

private theorem spares_quiet (different : q ≠ p) {act : Access}
    (harmless : Harmless mem.buf act) :
    Spared p (ghost, mem) (ghost, (queuePerform q act mem).2) := by
  obtain ⟨word, tag, memEq, heap⟩ := harmless.same
  obtain ⟨enqueuer, taking⟩ := harmless.note (p := q)
  exact { Spared.refl (p := p) (ghost, mem) with
    loaded := note_loaded different mem.log mem.buf act (act.perform mem.buf).1
    enqueuer := by rw [queuePerform_log, enqueuer]
    mine := fun i _ => ⟨rfl, rfl, by rw [queuePerform_buf, tag],
      by rw [queuePerform_buf, word], fun _ _ _ _ _ => by rw [queuePerform_buf, heap]⟩ }

private theorem spares_lockTop (different : q ≠ p)
    (inv : QueueInv array level ghost mem)
    {tag : Tag} (found : mem.buf.tag stackTop = tag) (full : tag.fe = .full) :
    Spared p (ghost, mem)
      (ghost, (queuePerform q
        (.casTag stackTop tag { tag with fe := .busy }) mem).2) := by
  have free : mem.log.enqueuer = none := by
    apply unlocked
    rw [← inv.topLock, found, full]
  obtain ⟨user, mine⟩ := spared_beside (p := p) (ghost, mem)
    (ghost, (queuePerform q
      (.casTag stackTop tag { tag with fe := .busy }) mem).2)
    inv rfl rfl
    (fun j inside =>
      ⟨by simp [Access.perform, found, EMSdataCell_ne_stackTop inside],
      by simp [Access.perform, found]⟩)
    (by simp [Access.perform, found])
  refine { Spared.refl (p := p) (ghost, mem) with
    loaded := note_loaded different mem.log mem.buf _ _
    enqueuer := iff_of_false ?_ (by simp [free])
    user := user
    mine := mine }
  simpa [QueueLog.note, Access.perform, found] using different

/-- The other enqueue appends its value: the values before it stay. -/
private theorem spares_announce (different : q ≠ p)
    (inv : QueueInv array level ghost mem)
    {value : EMSvalueType} (enqueuer : mem.log.enqueuer = some q) :
    Spared p (ghost, mem)
      (ghost.commit q (ghost.spec.object.add value) (.enqueue value)
        (.index (.ok (slotOf array ghost.spec.object.enqueued.length))),
        (queuePerform q (.store stackTop
          (ghost.spec.object.enqueued.length + 1)) mem).2) := by
  obtain ⟨user, mine⟩ := spared_beside (p := p) (ghost, mem)
    (ghost.commit q (ghost.spec.object.add value) (.enqueue value)
      (.index (.ok (slotOf array ghost.spec.object.enqueued.length))),
      (queuePerform q (.store stackTop (ghost.spec.object.enqueued.length + 1))
        mem).2)
    inv rfl rfl
    (fun j inside =>
      ⟨rfl, by simp [Access.perform, EMSdataCell_ne_stackTop inside]⟩) rfl
  refine { Spared.refl (p := p) (ghost, mem) with
    phase := AtomicObject.State.setPhase_other _ different.symm _
    loaded := note_loaded different mem.log mem.buf _ _
    enqueuer := by simp [QueueLog.note, stackTop_ne_queueBottom]
    enqueued := ?_
    announced := ?_
    user := user
    mine := mine }
  · intro k value' isValue
    have inside : k < ghost.spec.object.enqueued.length :=
      (List.getElem?_eq_some_iff.mp isValue).1
    exact (List.getElem?_append_left inside).trans isValue
  · intro own
    exact absurd (Option.some.inj (enqueuer.symm.trans own)) different

private theorem spares_begin (different : q ≠ p)
    (inv : QueueInv array level ghost mem)
    (enqueuer : mem.log.enqueuer = some q)
    (unused : ghost.use (slotOf array ghost.begun) = .free) :
    Spared p (ghost, mem)
      ({ ghost with
        use := Function.update ghost.use (slotOf array ghost.begun) (.filling q)
        begun := ghost.begun + 1 },
        (queuePerform q (.loadTag (EMSdataCell (slotOf array ghost.begun)))
            mem).2) := by
  obtain ⟨user, mine⟩ := spared_slots p (ghost, mem)
    ({ ghost with
      use := Function.update ghost.use (slotOf array ghost.begun) (.filling q)
      begun := ghost.begun + 1 }, mem)
    inv (fun j => j = slotOf array ghost.begun) (fun j other => by simp [other])
    (by
      rintro j rfl
      simpa [unused, SlotUse.user] using different)
    (fun j _ inside => ⟨rfl, rfl, rfl, fun _ _ _ _ _ => rfl⟩)
  exact { Spared.refl (p := p) (ghost, mem) with
    announced :=
      fun own => absurd (Option.some.inj (enqueuer.symm.trans own)) different
    user := user
    mine := mine }

/-- The other enqueue writes into the slot that it fills. -/
private theorem spares_fill (different : q ≠ p)
    (inv : QueueInv array level ghost mem)
    {act : Access} {i : Int} {blocks live : List Block}
    (filling : ghost.use i = .filling q)
    (fills : Fills level i mem.buf (act.perform mem.buf).2
      (ghost.blocks i) ghost.live
      blocks live)
    (enqueuer : (mem.log.note q mem.buf act (act.perform mem.buf).1).enqueuer =
      mem.log.enqueuer) :
    Spared p (ghost, mem)
      ({ ghost
        with blocks := Function.update ghost.blocks i blocks, live := live },
        (queuePerform q act mem).2) := by
  obtain ⟨user, mine⟩ := spared_slots p (ghost, mem)
    ({ ghost
      with blocks := Function.update ghost.blocks i blocks, live := live },
      (queuePerform q act mem).2)
    inv (fun j => j = i) (fun j other => rfl)
    (by
      rintro j rfl
      simpa [filling, SlotUse.user] using different)
    (fun j other inside =>
      ⟨by simp [other], (fills.cells _ (by simpa using other)).1,
      (fills.cells _ (by simpa using other)).2,
      fun block member => fills.heap block (inv.owned j block member)
        (inv.distinct j i other block member)⟩)
  exact { Spared.refl (p := p) (ghost, mem) with
    loaded := note_loaded different mem.log mem.buf _ _
    enqueuer := by rw [queuePerform_log, enqueuer]
    user := user
    mine := mine }

private theorem spares_slotTag (different : q ≠ p)
    (inv : QueueInv array level ghost mem)
    {i : Int} {tag : Tag} {use' : SlotUse ι} (his : (ghost.use i).user = some q)
    (given : use'.user ≠ some p) :
    Spared p (ghost, mem)
      ({ ghost with use := Function.update ghost.use i use' },
        (queuePerform q (.storeTag (EMSdataCell i) tag) mem).2) := by
  have inside : 0 ≤ i := by
    refine (inv.inside i ?_).1
    intro free
    simp [free, SlotUse.user] at his
  obtain ⟨user, mine⟩ := spared_slots p (ghost, mem)
    ({ ghost with use := Function.update ghost.use i use' },
      (queuePerform q (.storeTag (EMSdataCell i) tag) mem).2)
    inv (fun j => j = i) (fun j other => by simp [other])
    (by
      rintro j rfl
      exact ⟨by simpa [his] using different, by simpa using given⟩)
    (fun j other _ =>
      ⟨rfl, by simp [Access.perform, other], rfl, fun _ _ _ _ _ => rfl⟩)
  exact { Spared.refl (p := p) (ghost, mem) with
    loaded := note_loaded different mem.log mem.buf _ _
    enqueuer := by rw [queuePerform_log, note_slot_enqueuer inside]
    user := user
    mine := mine }

private theorem spares_unlockTop (different : q ≠ p)
    (inv : QueueInv array level ghost mem)
    {tag : Tag} (enqueuer : mem.log.enqueuer = some q) :
    Spared p (ghost, mem)
      (ghost, (queuePerform q (.storeTag stackTop tag) mem).2) := by
  obtain ⟨user, mine⟩ := spared_beside (p := p) (ghost, mem)
    (ghost, (queuePerform q (.storeTag stackTop tag) mem).2) inv rfl rfl
    (fun j inside =>
      ⟨by simp [Access.perform, EMSdataCell_ne_stackTop inside], rfl⟩) rfl
  exact { Spared.refl (p := p) (ghost, mem) with
    loaded := note_loaded different mem.log mem.buf (.storeTag stackTop tag) ()
    enqueuer :=
      iff_of_false (by simp [QueueLog.note])
        (by simpa [enqueuer] using different)
    user := user
    mine := mine }

private theorem spares_lockBottom (different : q ≠ p)
    (inv : QueueInv array level ghost mem)
    {tag : Tag} (found : mem.buf.tag queueBottom = tag)
    (full : tag.fe = .full) :
    Spared p (ghost, mem)
      ({ ghost with dequeuer := some q },
        (queuePerform q (.casTag queueBottom tag { tag with fe := .busy })
          mem).2) := by
  have free : ghost.dequeuer = none := by
    apply unlocked
    rw [← inv.bottomLock, found, full]
  obtain ⟨user, mine⟩ := spared_beside (p := p) (ghost, mem)
    ({ ghost with dequeuer := some q },
      (queuePerform q (.casTag queueBottom tag { tag with fe := .busy }) mem).2)
    inv rfl rfl
    (fun j inside =>
      ⟨by simp [Access.perform, found, EMSdataCell_ne_queueBottom inside],
      by simp [Access.perform, found]⟩)
    (by simp [Access.perform, found])
  exact { Spared.refl (p := p) (ghost, mem) with
    loaded := note_loaded different mem.log mem.buf _ _
    enqueuer := by simp [QueueLog.note, stackTop_ne_queueBottom.symm]
    dequeuer := iff_of_false (by simpa using different) (by simp [free])
    drawn := by simp [free]
    user := user
    mine := mine }

private theorem spares_take (different : q ≠ p)
    (inv : QueueInv array level ghost mem)
    {value : EMSvalueType} (dequeuer : ghost.dequeuer = some q)
    (isLoaded : mem.log.loaded q = some queueBottom) :
    Spared p (ghost, mem)
      (ghost.commit q ghost.spec.object.take .dequeue (.value (.ok value.back)),
        (queuePerform q (.store queueBottom (ghost.spec.object.taken + 1))
          mem).2) := by
  obtain ⟨user, mine⟩ := spared_beside (p := p) (ghost, mem)
    (ghost.commit q ghost.spec.object.take .dequeue (.value (.ok value.back)),
      (queuePerform q (.store queueBottom (ghost.spec.object.taken + 1)) mem).2)
    inv rfl rfl
    (fun j inside =>
      ⟨rfl, by simp [Access.perform, EMSdataCell_ne_queueBottom inside]⟩) rfl
  exact { Spared.refl (p := p) (ghost, mem) with
    phase := AtomicObject.State.setPhase_other _ different.symm _
    loaded := note_loaded different mem.log mem.buf _ _
    enqueuer := by simp [QueueLog.note, isLoaded]
    taken := by simp [QueueGhost.commit, Tickets.take]
    drawn :=
      fun own => absurd (Option.some.inj (dequeuer.symm.trans own)) different
    user := user
    mine := mine }

private theorem spares_nothing (different : q ≠ p)
    (inv : QueueInv array level ghost mem)
    (isLoaded : mem.log.loaded q ≠ some queueBottom) :
    Spared p (ghost, mem)
      (ghost.commit q ghost.spec.object .dequeue (.value (.ok nothingThere)),
        (queuePerform q (.store queueBottom ghost.spec.object.taken)
          mem).2) := by
  obtain ⟨user, mine⟩ := spared_beside (p := p) (ghost, mem)
    (ghost.commit q ghost.spec.object .dequeue (.value (.ok nothingThere)),
      (queuePerform q (.store queueBottom ghost.spec.object.taken) mem).2)
    inv rfl rfl
    (fun j inside =>
      ⟨rfl, by simp [Access.perform, EMSdataCell_ne_queueBottom inside]⟩) rfl
  exact { Spared.refl (p := p) (ghost, mem) with
    phase := AtomicObject.State.setPhase_other _ different.symm _
    loaded := note_loaded different mem.log mem.buf _ _
    enqueuer := by simp [QueueLog.note, isLoaded]
    user := user
    mine := mine }

/-- The other dequeue draws the full slot of its number. -/
private theorem spares_draw (different : q ≠ p)
    (inv : QueueInv array level ghost mem)
    {tag : Tag} (dequeuer : ghost.dequeuer = some q)
    (found : mem.buf.tag (EMSdataCell (slotOf array ghost.drawn)) = tag)
    (full : tag.fe = .full) :
    Spared p (ghost, mem)
      ({ ghost with
        use :=
          Function.update ghost.use (slotOf array ghost.drawn)
            (.taking q ghost.drawn)
        drawn := ghost.drawn + 1 },
        (queuePerform q (.casTag (EMSdataCell (slotOf array ghost.drawn)) tag
          { tag with fe := .busy }) mem).2) := by
  have inside := slotOf_nonneg inv.positive ghost.drawn
  obtain ⟨k, use⟩ := (inv.slots _ inside (slotOf_lt inv.positive _)).full_of_fe
    (by rw [found, full])
  obtain ⟨user, mine⟩ := spared_slots p (ghost, mem)
    ({ ghost with
      use :=
        Function.update ghost.use (slotOf array ghost.drawn)
          (.taking q ghost.drawn)
      drawn := ghost.drawn + 1 },
      (queuePerform q (.casTag (EMSdataCell (slotOf array ghost.drawn)) tag
        { tag with fe := .busy }) mem).2)
    inv (fun j => j = slotOf array ghost.drawn) (fun j other => by simp [other])
    (by
      rintro j rfl
      simpa [use, SlotUse.user] using different)
    (fun j other _ => ⟨rfl, by simp [Access.perform, found, other],
      by simp [Access.perform, found], by simp [Access.perform, found, Block.Same]⟩)
  exact { Spared.refl (p := p) (ghost, mem) with
    loaded := note_loaded different mem.log mem.buf _ _
    enqueuer := by simp [QueueLog.note, EMSdataCell_ne_stackTop inside]
    drawn :=
      fun own => absurd (Option.some.inj (dequeuer.symm.trans own)) different
    user := user
    mine := mine }

private theorem spares_unlockBottom (different : q ≠ p)
    (inv : QueueInv array level ghost mem) {tag : Tag}
    (dequeuer : ghost.dequeuer = some q)
    (full : tag.fe = .full) :
    Spared p (ghost, mem)
      ({ ghost with dequeuer := none },
        (queuePerform q (.storeTag queueBottom tag) mem).2) := by
  obtain ⟨user, mine⟩ := spared_beside (p := p) (ghost, mem)
    ({ ghost with dequeuer := none },
      (queuePerform q (.storeTag queueBottom tag) mem).2)
    inv rfl rfl
    (fun j inside =>
      ⟨by simp [Access.perform, EMSdataCell_ne_queueBottom inside], rfl⟩) rfl
  exact { Spared.refl (p := p) (ghost, mem) with
    loaded := note_loaded different mem.log mem.buf _ _
    enqueuer := by simp [QueueLog.note, stackTop_ne_queueBottom.symm, full]
    dequeuer := iff_of_false (by simp) (by simpa [dequeuer] using different)
    drawn :=
      fun own => absurd (Option.some.inj (dequeuer.symm.trans own)) different
    user := user
    mine := mine }

/-- The other dequeue gives back the text of the slot that it emptied. -/
private theorem spares_free (different : q ≠ p)
    (inv : QueueInv array level ghost mem)
    {i : Int} {k : Nat} {block : Block} (use : ghost.use i = .draining q k) :
    Spared p (ghost, mem)
      ({ ghost with
        use := Function.update ghost.use i .free
        blocks := Function.update ghost.blocks i []
        live := ghost.live.erase block },
        (queuePerform q (.memFree block.address) mem).2) := by
  have memory : (Access.perform (.memFree block.address) mem.buf).2.tag =
      mem.buf.tag ∧
      (Access.perform (.memFree block.address) mem.buf).2.word = mem.buf.word ∧
      (Access.perform (.memFree block.address) mem.buf).2.heap =
          mem.buf.heap := by
    simp only [Access.perform]
    split <;> exact ⟨rfl, rfl, rfl⟩
  obtain ⟨sameTag, sameWord, sameHeap⟩ := memory
  obtain ⟨user, mine⟩ := spared_slots p (ghost, mem)
    ({ ghost with
      use := Function.update ghost.use i .free
      blocks := Function.update ghost.blocks i []
      live := ghost.live.erase block },
        (queuePerform q (.memFree block.address) mem).2)
    inv (fun j => j = i) (fun j other => by simp [other])
    (by
      rintro j rfl
      simpa [use, SlotUse.user] using different)
    (fun j other _ => ⟨by simp [other], by rw [queuePerform_buf, sameTag],
      by rw [queuePerform_buf, sameWord], fun _ _ _ _ _ => by rw [queuePerform_buf, sameHeap]⟩)
  exact { Spared.refl (p := p) (ghost, mem) with
    loaded := note_loaded different mem.log mem.buf (.memFree block.address)
      (Access.perform (.memFree block.address) mem.buf).1
    user := user
    mine := mine }

/-- A move of another process spares this one. -/
theorem QueueChange.spares (different : q ≠ p) {ghost' : QueueGhost ι}
    {act : Access}
    (inv : QueueInv array level ghost mem)
    (change : QueueChange array level q mem ghost act ghost') :
    Spared p (ghost, mem) (ghost', (queuePerform q act mem).2) := by
  cases change with
  | quiet harmless => exact spares_quiet different harmless
  | lockTop found full => exact spares_lockTop different inv found full
  | announce enqueuer => exact spares_announce different inv enqueuer
  | begin enqueuer announced unused =>
      exact spares_begin different inv enqueuer unused
  | fill filling hidden fills enqueuer =>
      exact spares_fill different inv filling fills enqueuer
  | finish filling =>
      exact spares_slotTag different inv (by rw [filling, SlotUse.user])
        (by simp [SlotUse.user])
  | unlockTop enqueuer => exact spares_unlockTop different inv enqueuer
  | lockBottom found full => exact spares_lockBottom different inv found full
  | take dequeuer drawn isLoaded =>
      exact spares_take different inv dequeuer isLoaded
  | nothing dequeuer drawn isLoaded =>
      exact spares_nothing different inv isLoaded
  | draw dequeuer taken found full =>
      exact spares_draw different inv dequeuer found full
  | empty use =>
      exact spares_slotTag different inv (by rw [use, SlotUse.user])
        (by simp [SlotUse.user])
  | drain use =>
      exact spares_slotTag different inv (by rw [use, SlotUse.user])
        (by simpa [SlotUse.user] using different)
  | unlockBottom dequeuer drawn unused full =>
      exact spares_unlockBottom different inv dequeuer full
  | free use owned => exact spares_free different inv use

end Others

theorem QueueMove.spares {q : ι} (different : q ≠ p) {label : QueueLabel}
    {state next : QueueGhost ι × QueueMem ι}
    (inv : QueueInv array level state.1 state.2)
    (move : QueueMove array level q label state next) :
    Spared p state next := by
  cases move with
  | call op idle =>
      exact { Spared.refl (p := p) _ with
        phase := AtomicObject.State.setPhase_other _ different.symm _ }
  | access change => exact change.spares different inv
  | ret done =>
      exact { Spared.refl (p := p) _ with
        phase := AtomicObject.State.setPhase_other _ different.symm _ }

/-! ## Where a process is -/

/-- How far a process is with its operation: the counters as an enqueue or a
dequeue knows them while it holds its lock, a ticket whose value it knows, and
how many tickets have been taken at least. -/
structure QueueStage where
  phase : AtomicObject.Phase QueueOp EntryRes
  enqueuing : Option (Nat × Nat) := none
  dequeuing : Option (Nat × Nat) := none
  entry : Option (Nat × EMSvalueType) := none
  taken : Nat := 0

structure InStage (p : ι) (stage : QueueStage)
    (state : QueueGhost ι × QueueMem ι) : Prop where
  phase : state.1.spec.phase p = stage.phase
  enqueuer : state.2.log.enqueuer = some p ↔ stage.enqueuing.isSome
  dequeuer : state.1.dequeuer = some p ↔ stage.dequeuing.isSome
  begun : ∀ begun length, stage.enqueuing = some (begun, length) →
    state.1.begun = begun ∧ state.1.spec.object.enqueued.length = length
  drawn : ∀ drawn taken, stage.dequeuing = some (drawn, taken) →
    state.1.drawn = drawn ∧ state.1.spec.object.taken = taken
  entry : ∀ k value, stage.entry = some (k, value) →
    state.1.spec.object.enqueued[k]? = some value
  taken : stage.taken ≤ state.1.spec.object.taken

/-- A slot that belongs to a process, and what it knows of the memory there. -/
structure OwnSlot (ι : Type) where
  index : Int
  use : SlotUse ι
  blocks : List Block
  known : EmsBuf

structure Owns (p : ι) (own : OwnSlot ι)
    (state : QueueGhost ι × QueueMem ι) : Prop where
  user : own.use.user = some p
  use : state.1.use own.index = own.use
  only : ∀ j, j ≠ own.index → (state.1.use j).user ≠ some p
  blocks : state.1.blocks own.index = own.blocks
  tag : state.2.buf.tag (EMSdataCell own.index) =
    own.known.tag (EMSdataCell own.index)
  word : state.2.buf.word (EMSdataCell own.index) =
    own.known.word (EMSdataCell own.index)
  heap : ∀ block ∈ own.blocks, block.Same own.known.heap state.2.buf.heap

/-- The slots of the process are as it knows. -/
def InSlot (p : ι) (own : Option (OwnSlot ι))
    (state : QueueGhost ι × QueueMem ι) : Prop :=
  match own with
  | none => ∀ i, (state.1.use i).user ≠ some p
  | some own => Owns p own state

def QueueAt (p : ι) (stage : QueueStage) (own : Option (OwnSlot ι))
    (state : QueueGhost ι × QueueMem ι) : Prop :=
  InStage p stage state ∧ InSlot p own state

/-- The word that the process has loaded last. -/
def Loaded (p : ι) (cell : Cell) (state : QueueGhost ι × QueueMem ι) : Prop :=
  state.2.log.loaded p = some cell

section Stable

variable {stage : QueueStage} {own : Option (OwnSlot ι)} {cell : Cell}

omit [DecidableEq ι] in
theorem Spared.inStage {state next : QueueGhost ι × QueueMem ι}
    (spared : Spared p state next)
    (here : InStage p stage state) : InStage p stage next where
  phase := spared.phase.trans here.phase
  enqueuer := spared.enqueuer.trans here.enqueuer
  dequeuer := spared.dequeuer.trans here.dequeuer
  begun := by
    intro begun length counted
    obtain ⟨sameLength, sameBegun⟩ :=
      spared.announced (here.enqueuer.mpr (by simp [counted]))
    rw [sameLength, sameBegun]
    exact here.begun begun length counted
  drawn := by
    intro drawn taken counted
    obtain ⟨sameTaken, sameDrawn⟩ :=
      spared.drawn (here.dequeuer.mpr (by simp [counted]))
    rw [sameTaken, sameDrawn]
    exact here.drawn drawn taken counted
  entry :=
    fun k value known => spared.enqueued k value (here.entry k value known)
  taken := here.taken.trans spared.taken

omit [DecidableEq ι] in
theorem Spared.inSlot {state next : QueueGhost ι × QueueMem ι}
    (spared : Spared p state next)
    (here : InSlot p own state) : InSlot p own next := by
  cases own with
  | none => exact fun i mine => here i ((spared.user i).mp mine)
  | some own =>
      obtain ⟨use, blocks, tag, word, heap⟩ :=
        spared.mine own.index (by rw [here.use]; exact here.user)
      refine ⟨here.user, use.trans here.use, ?_, blocks.trans here.blocks,
        tag.trans here.tag,
        word.trans here.word, ?_⟩
      · exact fun j different mine =>
          here.only j different ((spared.user j).mp mine)
      · intro block member a lower upper
        rw [heap block (here.blocks ▸ member) a lower upper]
        exact here.heap block member a lower upper

theorem QueueAt.stable :
    (queueProtocol ι array level).Stable p (QueueAt p stage own) := by
  intro q label state next different inv here move
  have spared := QueueMove.spares different inv move
  exact ⟨spared.inStage here.1, spared.inSlot here.2⟩

theorem Loaded.stable :
    (queueProtocol ι array level).Stable p (Loaded p cell) := by
  intro q label state next different inv here move
  exact (QueueMove.spares different inv move).loaded.trans here

end Stable

/-! ## Steps of a process -/

abbrev QueueTriple {α : Type} (array : EmsArray) (level : Nat) (p : ι)
    (pre : QueueGhost ι × QueueMem ι → Prop) (prog : EmsProg α)
    (post : α → QueueGhost ι × QueueMem ι → Prop) : Prop :=
  (queueProtocol ι array level).Triple (queueMachine ι array true) p
    pre prog post

variable {α β : Type} {post : β → QueueGhost ι × QueueMem ι → Prop}
  {stage : QueueStage}
  {own : OwnSlot ι} {slot : Option (OwnSlot ι)} {ghost : QueueGhost ι}
    {mem : QueueMem ι}
  {act : Access}

theorem QueueTriple.access {pre : QueueGhost ι × QueueMem ι → Prop}
    (middle : Reply act → QueueGhost ι × QueueMem ι → Prop)
    {rest : Reply act → EmsProg β}
    (stable : (queueProtocol ι array level).Stable p pre)
    (changes : ∀ ghost mem, QueueInv array level ghost mem → pre (ghost, mem) →
      QueueGiven array p act mem → QueueCareful array p act mem →
      ∃ ghost', QueueChange array level p mem ghost act ghost' ∧
        middle (act.perform mem.buf).1 (ghost', (queuePerform p act mem).2))
    (continues : ∀ reply, QueueTriple array level p (middle reply)
      (rest reply) post) :
    QueueTriple array level p pre (does act >>= rest) post := by
  refine Protocol.Triple.access middle stable ?_ continues
  intro ghost mem inv holds permitted
  obtain ⟨ghost', change, after⟩ :=
    changes ghost mem inv holds permitted.1 (permitted.2 rfl)
  exact ⟨ghost', .access change, after⟩

omit [DecidableEq ι] in
/-- A move of the process that leaves its counters alone. -/
theorem InStage.kept {state next : QueueGhost ι × QueueMem ι}
    (here : InStage p stage state)
    (spec : next.1.spec = state.1.spec)
    (enqueuer : next.2.log.enqueuer = state.2.log.enqueuer)
    (dequeuer : next.1.dequeuer = state.1.dequeuer)
    (begun : next.1.begun = state.1.begun)
    (drawn : next.1.drawn = state.1.drawn) : InStage p stage next where
  phase := by rw [spec]; exact here.phase
  enqueuer := by rw [enqueuer]; exact here.enqueuer
  dequeuer := by rw [dequeuer]; exact here.dequeuer
  begun := by rw [spec, begun]; exact here.begun
  drawn := by rw [spec, drawn]; exact here.drawn
  entry := by rw [spec]; exact here.entry
  taken := by rw [spec]; exact here.taken

theorem QueueAt.quiet (here : QueueAt p stage slot (ghost, mem))
    (harmless : Harmless mem.buf act) :
    QueueAt p stage slot (ghost, (queuePerform p act mem).2) := by
  obtain ⟨word, tag, memEq, heap⟩ := harmless.same
  refine ⟨here.1.kept rfl harmless.note.1 rfl rfl rfl, ?_⟩
  cases slot with
  | none => exact here.2
  | some own =>
      obtain ⟨user, use, only, blocks, sameTag, sameWord, sameHeap⟩ := here.2
      exact ⟨user, use, only,
        blocks, by rw [queuePerform_buf, tag]; exact sameTag,
        by rw [queuePerform_buf, word]; exact sameWord,
        by rw [queuePerform_buf, heap]; exact sameHeap⟩

/-- An access that changes nothing and teaches something about the counters. -/
theorem QueueTriple.looks {rest : Reply act → EmsProg β}
    (fact : Reply act → Prop)
    (after : Reply act → QueueStage) (harmless : ∀ buf, Harmless buf act)
    (learns : ∀ ghost mem, QueueInv array level ghost mem → InStage p stage
      (ghost, mem) →
      QueueGiven array p act mem → fact (act.perform mem.buf).1 ∧
        InStage p (after (act.perform mem.buf).1) (ghost, mem))
    (continues : ∀ reply, fact reply →
      QueueTriple array level p (QueueAt p (after reply) slot)
        (rest reply) post) :
    QueueTriple array level p (QueueAt p stage slot)
      (does act >>= rest) post := by
  refine QueueTriple.access
    (fun reply state => fact reply ∧ QueueAt p (after reply) slot state)
    QueueAt.stable ?_ ?_
  · intro ghost mem inv here given _
    obtain ⟨learned, stageAfter⟩ := learns ghost mem inv here.1 given
    exact ⟨ghost, .quiet (harmless _), learned,
      QueueAt.quiet ⟨stageAfter, here.2⟩ (harmless _)⟩
  · rintro reply state inv ⟨learned, here⟩
    exact continues reply learned state inv here

theorem QueueTriple.quiet {rest : Reply act → EmsProg β}
    (harmless : ∀ buf, Harmless buf act)
    (continues : ∀ reply,
      QueueTriple array level p (QueueAt p stage slot) (rest reply) post) :
    QueueTriple array level p (QueueAt p stage slot) (does act >>= rest) post :=
  QueueTriple.looks (fun _ => True) (fun _ => stage) harmless
    (fun _ _ _ here _ => ⟨trivial, here⟩) fun reply _ => continues reply

theorem QueueTriple.lockMemMutex {patience : Nat} {rest : Unit → EmsProg β}
    (continues : QueueTriple array level p (QueueAt p stage slot)
      (rest ()) post) :
    QueueTriple array level p (QueueAt p stage slot)
      (lockMemMutex patience >>= rest) post := by
  induction patience with
  | zero => exact Protocol.Triple.spin
  | succ patience induction =>
      rw [EMS.lockMemMutex, bind_assoc]
      apply QueueTriple.quiet
      · exact fun _ => trivial
      intro acquired
      cases acquired with
      | true => exact continues
      | false => exact induction

/-! ## Work on an own slot -/

/-- What the owner of a slot may do without asking.  An enqueue may change the
slot that it fills. -/
def OwnAccess (p : ι) (own : OwnSlot ι) : Access → Prop
  | .load cell | .loadTag cell => cell = EMSdataCell own.index
  | .loadByte a => ∃ block ∈ own.blocks, block.address ≤ a ∧
        a < block.address + block.length
  | .store cell _ => own.use = .filling p ∧ cell = EMSdataCell own.index
  | .storeTag cell tag =>
      own.use = .filling p ∧ cell = EMSdataCell own.index ∧ tag.fe = .empty
  | .storeByte a _ => own.use = .filling p ∧
      ∃ block ∈ own.blocks, block.address ≤ a ∧ a < block.address + block.length
  | _ => False

theorem QueueAt.fill {blocks live : List Block} (known : EmsBuf)
    (here : QueueAt p stage (some own) (ghost, mem))
    (filling : own.use = .filling p)
    (hidden : takesTicket act = false)
    (fills : Fills level own.index mem.buf
      (act.perform mem.buf).2 own.blocks ghost.live blocks
      live)
    (enqueuer : (mem.log.note p mem.buf act (act.perform mem.buf).1).enqueuer =
      mem.log.enqueuer)
    (taking : (mem.log.note p mem.buf act (act.perform mem.buf).1).taking =
      mem.log.taking)
    (tag : (act.perform mem.buf).2.tag (EMSdataCell own.index) =
      known.tag (EMSdataCell own.index))
    (word : (act.perform mem.buf).2.word (EMSdataCell own.index) =
      known.word (EMSdataCell own.index))
    (heap : ∀ block ∈ blocks, block.Same known.heap
      (act.perform mem.buf).2.heap) :
    ∃ ghost', QueueChange array level p mem ghost act ghost' ∧
      QueueAt p stage (some ⟨own.index, own.use, blocks, known⟩)
        (ghost', (queuePerform p act mem).2) := by
  obtain ⟨user, use, only, sameBlocks, -, -, -⟩ := here.2
  rw [← sameBlocks] at fills
  rw [filling] at use
  refine ⟨_, .fill use hidden fills enqueuer taking,
    here.1.kept rfl enqueuer rfl rfl rfl, user, ?_,
    only, ?_, tag, word, heap⟩
  · exact use.trans filling.symm
  · exact Function.update_self _ _ _

omit [DecidableEq ι] in
theorem QueueInv.of_filling (inv : QueueInv array level ghost mem) {i : Int}
    (filling : ghost.use i = .filling p) :
    (mem.buf.tag (EMSdataCell i)).fe = .empty ∧ mem.log.enqueuer = some p := by
  obtain ⟨lower, upper⟩ := inv.inside i (by simp [filling])
  have slot := inv.slots i lower upper
  simp only [SlotInv, filling] at slot
  exact ⟨slot.1, slot.2.1⟩

/-- The owner of a slot works on it as if nobody else were there. -/
theorem QueueAt.own_access {known : EmsBuf}
    (inv : QueueInv array level ghost mem)
    (here : QueueAt p stage (some ⟨own.index, own.use, own.blocks, known⟩)
      (ghost, mem))
    (allowed : OwnAccess p own act) :
    ∃ ghost', QueueChange array level p mem ghost act ghost' ∧
      (act.perform mem.buf).1 = (act.perform known).1 ∧
      QueueAt p stage (some ⟨own.index, own.use, own.blocks,
        (act.perform known).2⟩)
        (ghost', (queuePerform p act mem).2) := by
  obtain ⟨user, use, only, sameBlocks, sameTag, sameWord, sameHeap⟩ := here.2
  simp only at user use only sameBlocks sameTag sameWord sameHeap
  have inside : 0 ≤ own.index ∧ own.index < array.nElem := by
    apply inv.inside
    rw [use]
    intro free
    simp [free, SlotUse.user] at user
  have notTop := EMSdataCell_ne_stackTop inside.1
  have notBottom := EMSdataCell_ne_queueBottom inside.1
  have whileFilling : own.use = .filling p →
      (mem.buf.tag (EMSdataCell own.index)).fe = .empty ∧
          mem.log.enqueuer = some p :=
    fun filling => inv.of_filling (use.trans filling)
  have owned : ∀ block ∈ own.blocks, block ∈ ghost.live := by
    rw [← sameBlocks]
    exact inv.owned _
  cases act with
  | load cell =>
      obtain rfl : cell = EMSdataCell own.index := allowed
      exact ⟨ghost, .quiet trivial, sameWord, here.quiet trivial⟩
  | loadTag cell =>
      obtain rfl : cell = EMSdataCell own.index := allowed
      exact ⟨ghost, .quiet trivial, sameTag, here.quiet trivial⟩
  | loadByte a =>
      obtain ⟨block, member, lower, upper⟩ := allowed
      exact ⟨ghost, .quiet trivial, sameHeap block member a lower upper,
        here.quiet trivial⟩
  | store cell word =>
      obtain ⟨filling, rfl⟩ := allowed
      have fills : Fills level own.index mem.buf
          (Access.perform (.store (EMSdataCell own.index) word) mem.buf).2
            own.blocks ghost.live
          own.blocks ghost.live :=
        ⟨fun cell different => ⟨rfl, by simp [Access.perform, different]⟩,
          (whileFilling filling).1, fun _ _ _ _ _ _ => rfl, inv.heap,
          fun _ member => member,
          owned, fun _ member => .inl member⟩
      obtain ⟨ghost', change, after⟩ :=
        QueueAt.fill (Access.perform
          (.store (EMSdataCell own.index) word) known).2
        here filling (by simp [takesTicket, notTop, notBottom]) fills
          (by simp [QueueLog.note, notBottom])
          (by simp [QueueLog.note, notBottom]) sameTag
        (by simp [Access.perform]) sameHeap
      exact ⟨ghost', change, rfl, after⟩
  | storeTag cell tag =>
      obtain ⟨filling, rfl, empty⟩ := allowed
      have enqueuer := (whileFilling filling).2
      have fills : Fills level own.index mem.buf
          (Access.perform (.storeTag (EMSdataCell own.index) tag) mem.buf).2
            own.blocks ghost.live
          own.blocks ghost.live :=
        ⟨fun cell different => ⟨by simp [Access.perform, different], rfl⟩,
          by simp [Access.perform, empty], fun _ _ _ _ _ _ => rfl, inv.heap,
          fun _ member => member, owned, fun _ member => .inl member⟩
      obtain ⟨ghost', change, after⟩ :=
        QueueAt.fill (Access.perform
          (.storeTag (EMSdataCell own.index) tag) known).2
        here filling rfl fills (by simp [QueueLog.note, notTop, enqueuer])
          (by simp [QueueLog.note, notTop, enqueuer])
        (by simp [Access.perform]) sameWord sameHeap
      exact ⟨ghost', change, rfl, after⟩
  | storeByte a byte =>
      obtain ⟨filling, block, member, lower, upper⟩ := allowed
      obtain ⟨tree, shape⟩ := inv.heap
      have fills : Fills level own.index mem.buf
          (Access.perform (.storeByte a byte) mem.buf).2 own.blocks ghost.live
          own.blocks ghost.live := by
        refine ⟨fun cell different => ⟨rfl, rfl⟩, (whileFilling filling).1,
          ?_, inv.heap,
          fun _ member => member, owned, fun _ member => .inl member⟩
        intro other isLive notMine b lower' upper'
        have apart := shape.apart_of_ne (owned block member) isLive (by
          rintro rfl
          exact notMine member)
        have different : b ≠ a := by
          rintro rfl
          unfold Block.Apart at apart
          omega
        simp [Access.perform, different]
      obtain ⟨ghost', change, after⟩ :=
        QueueAt.fill (Access.perform (.storeByte a byte) known).2
        here filling rfl fills rfl rfl sameTag sameWord (by
          intro other isMine b lower' upper'
          by_cases same : b = a
          · simp [Access.perform, same]
          · simpa [Access.perform,
              same] using sameHeap other isMine b lower' upper')
      exact ⟨ghost', change, rfl, after⟩
  | _ => exact allowed.elim

/-- The owner of a slot alone. -/
abbrev ownSolo (p : ι) (own : OwnSlot ι) : Solo EmsBuf Access Reply :=
  emsSolo (fun _ _ => True) (OwnAccess p own) True

theorem QueueTriple.ends {middle : α → EmsBuf → Prop} {prog : EmsProg α}
    {rest : α → EmsProg β}
    (ends : (ownSolo p own).Ends middle prog own.known)
    (continues : ∀ value after, middle value after →
      QueueTriple array level p
        (QueueAt p stage (some ⟨own.index, own.use, own.blocks, after⟩))
          (rest value) post) :
    QueueTriple array level p (QueueAt p stage (some own))
      (prog >>= rest) post := by
  refine Solo.triple (ownSolo p own)
    (fun known =>
      QueueAt p stage (some ⟨own.index, own.use, own.blocks, known⟩))
    (fun _ => QueueAt.stable) ?_ (ends.mono continues)
  intro act known ghost mem inv here _
  refine ⟨trivial, fun allowed => ?_⟩
  obtain ⟨ghost', change, sameReply, after⟩ :=
    QueueAt.own_access inv here allowed
  exact ⟨ghost', .access change, sameReply, after⟩

theorem QueueTriple.yields {prog : EmsProg α} {rest : α → EmsProg β} {value : α}
    {after : EmsBuf} (yields :
      (ownSolo p own).Yields prog own.known value after)
    (continues : QueueTriple array level p
      (QueueAt p stage (some ⟨own.index, own.use, own.blocks, after⟩))
        (rest value) post) :
    QueueTriple array level p (QueueAt p stage (some own))
      (prog >>= rest) post := by
  apply QueueTriple.ends yields
  rintro _ _ ⟨rfl, rfl⟩
  exact continues

theorem QueueTriple.load {rest : Int → EmsProg β}
    (continues : QueueTriple array level p (QueueAt p stage (some own))
      (rest (own.known.word (EMSdataCell own.index))) post) :
    QueueTriple array level p (QueueAt p stage (some own))
      (EMS.load (EMSdataCell own.index) >>= rest) post := by
  have found : (ownSolo p own).Yields
      (EMS.load (EMSdataCell own.index)) own.known
      (own.known.word (EMSdataCell own.index)) own.known :=
        fun _ => ⟨rfl, rfl, rfl⟩
  exact QueueTriple.yields found continues

theorem QueueTriple.loadTag {rest : Tag → EmsProg β}
    (continues : QueueTriple array level p (QueueAt p stage (some own))
      (rest (own.known.tag (EMSdataCell own.index))) post) :
    QueueTriple array level p (QueueAt p stage (some own))
      (EMS.loadTag (EMSdataCell own.index) >>= rest) post := by
  have found : (ownSolo p own).Yields
      (EMS.loadTag (EMSdataCell own.index)) own.known
      (own.known.tag (EMSdataCell own.index)) own.known :=
        fun _ => ⟨rfl, rfl, rfl⟩
  exact QueueTriple.yields found continues

theorem QueueTriple.store {word : Int} {rest : Unit → EmsProg β}
    (filling : own.use = .filling p)
    (continues : QueueTriple array level p
      (QueueAt p stage (some ⟨own.index, own.use, own.blocks,
        own.known.setWord (EMSdataCell own.index) word⟩)) (rest ()) post) :
    QueueTriple array level p (QueueAt p stage (some own))
      (EMS.store (EMSdataCell own.index) word >>= rest) post := by
  have stored : (ownSolo p own).Yields (EMS.store (EMSdataCell own.index) word)
      own.known ()
      (own.known.setWord (EMSdataCell own.index) word) :=
        fun _ => ⟨⟨filling, rfl⟩, rfl, rfl⟩
  exact QueueTriple.yields stored continues

theorem QueueTriple.storeTag {tag : Tag} {rest : Unit → EmsProg β}
    (filling : own.use = .filling p) (empty : tag.fe = .empty)
    (continues : QueueTriple array level p
      (QueueAt p stage (some ⟨own.index, own.use, own.blocks,
        own.known.setTag (EMSdataCell own.index) tag⟩)) (rest ()) post) :
    QueueTriple array level p (QueueAt p stage (some own))
      (EMS.storeTag (EMSdataCell own.index) tag >>= rest) post := by
  have stored : (ownSolo p own).Yields
      (EMS.storeTag (EMSdataCell own.index) tag) own.known ()
      (own.known.setTag (EMSdataCell own.index) tag) :=
    fun _ => ⟨⟨filling, rfl, empty⟩, rfl, rfl⟩
  exact QueueTriple.yields stored continues

/-- A transition of a tag.  Until it succeeds it changes nothing. -/
theorem QueueTriple.transition {cell : Cell} {oldFE newFE : FE} {patience : Nat}
    (acquired : Tag → QueueGhost ι × QueueMem ι → Prop) {rest : Tag → EmsProg β}
    (succeeds : ∀ (ghost : QueueGhost ι) (mem : QueueMem ι) (tag : Tag),
      QueueInv array level ghost mem → QueueAt p stage slot (ghost, mem) →
        tag.fe = oldFE →
      mem.buf.tag cell = tag →
      ∃ ghost', QueueChange array level p mem ghost
        (.casTag cell tag { tag with fe := newFE })
          ghost' ∧
        acquired tag (ghost',
          (queuePerform p (.casTag cell tag { tag with fe := newFE }) mem).2))
    (continues : ∀ tag : Tag,
      QueueTriple array level p (acquired tag)
        (rest { tag with fe := newFE }) post) :
    QueueTriple array level p (QueueAt p stage slot)
      (EMStransitionFEtag patience cell none oldFE newFE >>= rest) post := by
  refine EMStransitionFEtag_triple QueueMem.buf (fun _ _ _ => rfl) acquired
    QueueAt.stable
    ?_ ?_ ?_ continues
  · intro ghost mem _ here
    exact ⟨ghost, .access (.quiet trivial), here.quiet trivial⟩
  · intro ghost mem old new _ here different
    exact ⟨ghost, .access (.quiet different), here.quiet different⟩
  · intro ghost mem tag inv here full found
    obtain ⟨ghost', change, after⟩ := succeeds ghost mem tag inv here full found
    exact ⟨ghost', .access change, after⟩

/-! ## Filling a slot -/

/-- The bytes of a new string. -/
theorem QueueTriple.alloc {patience len : Nat} {rest : Int → EmsProg β}
    (filling : own.use = .filling p) (valid : ValidRequest len)
    (continues : ∀ (address : Nat) (heap : Int → UInt8),
      QueueTriple array level p
      (QueueAt p stage (some ⟨own.index, own.use, [⟨address, len⟩],
        own.known.setHeap heap⟩))
      (rest address) post) :
    QueueTriple array level p (QueueAt p stage (some own))
      (emsMutexMem_alloc patience len >>= rest) post := by
  rw [emsMutexMem_alloc, bind_assoc]
  apply QueueTriple.lockMemMutex
  rw [bind_assoc]
  refine QueueTriple.access (fun (reply : Except AllocFault Int) state =>
      ∃ (address : Nat) (heap : Int → UInt8), reply = .ok (address : Int) ∧
        QueueAt p stage
        (some ⟨own.index, own.use, [⟨address, len⟩], own.known.setHeap heap⟩)
          state)
    QueueAt.stable ?_ ?_
  · intro ghost mem inv here given _
    obtain ⟨tree, shape⟩ := inv.heap
    obtain ⟨address, mem', tree', success, shape'⟩ := shape.serve valid given
    have success : emsMem_alloc mem.buf.mem len = .ok ((address : Int), mem') :=
      success
    have performed : (Access.perform (.memAlloc len) mem.buf) =
        (.ok (address : Int), mem.buf.setMem mem') := by
      simp only [Access.perform, success]
      rfl
    obtain ⟨-, use, -, -, tag, word, -⟩ := here.2
    have empty := inv.of_filling (use.trans filling)
    have new : (⟨address, len⟩ : Block) ∉ ghost.live := by
      intro member
      have apart := List.rel_of_pairwise_cons shape'.apart member
      have room := (⟨address, len⟩ : Block).bytes_le_length
      have positive := valid.1
      simp only [Block.Apart] at apart room
      omega
    have fills : Fills level own.index mem.buf (mem.buf.setMem mem')
        own.blocks ghost.live
        [⟨address, len⟩] (⟨address, len⟩ :: ghost.live) :=
      ⟨fun _ _ => ⟨rfl, rfl⟩, empty.1, fun _ _ _ _ _ _ => rfl, ⟨tree', shape'⟩,
        fun _ member => List.mem_cons_of_mem _
          member, by simp, by simpa using .inr new⟩
    obtain ⟨ghost', change, after⟩ :
        ∃ ghost', QueueChange array level p mem ghost (.memAlloc len)
            ghost' ∧ _ :=
      QueueAt.fill (own.known.setHeap mem.buf.heap) here filling rfl
        (by rw [performed]; exact fills) rfl rfl (by rw [performed]; exact tag)
        (by rw [performed]; exact word)
          (by rw [performed]; exact fun _ _ _ _ _ => rfl)
    exact ⟨ghost', change, address, mem.buf.heap, by rw [performed], after⟩
  · rintro reply state inv ⟨address, heap, rfl, here⟩
    refine QueueTriple.quiet ?_ ?_ state inv here
    · exact fun _ => trivial
    · exact fun _ => continues address heap

/-- Writing a value into the slot that is being filled. -/
theorem QueueTriple.storeEntry {patience : Nat} {value : EMSvalueType}
    {rest : Except EMSError Unit → EmsProg β} (fits : value.Fits)
    (filling : own.use = .filling p) (unused : own.blocks = [])
    (continues : ∀ (blocks : List Block) (known : EmsBuf),
      known.tag = own.known.tag →
      Contents (known.word (EMSdataCell own.index)) known.heap value blocks →
      QueueTriple array level p
        (QueueAt p stage (some ⟨own.index, own.use, blocks, known⟩))
        (rest (.ok ())) post) :
    QueueTriple array level p (QueueAt p stage (some own))
      (storeEntry patience own.index value >>= rest) post := by
  have scalar : ∀ word, Contents word own.known.heap value [] →
      QueueTriple array level p (QueueAt p stage (some own))
        ((EMS.store (EMSdataCell own.index) word >>= fun _ => pure (.ok ())) >>=
            rest) post := by
    intro word contents
    rw [bind_assoc]
    apply QueueTriple.store filling
    rw [unused]
    exact continues [] _ rfl (by simpa using contents)
  have text : (isText : value.type = .json ∨ value.type = .string) →
      QueueTriple array level p (QueueAt p stage (some own))
        ((emsMutexMem_alloc patience (value.text.bytes.length + 1) >>=
            fun textOffset =>
          if textOffset < 0 then pure (.error .outOfMemory)
          else do
            EMS.store (EMSdataCell own.index) textOffset
            copyToHeap textOffset value.text.bytes
            return .ok ()) >>= rest) post := by
    intro isText
    rw [bind_assoc]
    apply QueueTriple.alloc filling
    · have short := fits.2
      constructor <;> omega
    intro address heap
    rw [if_neg (by omega), bind_assoc]
    apply QueueTriple.store
    · exact filling
    rw [bind_assoc]
    apply QueueTriple.yields (copyToHeap_yields ?_)
    · refine continues _ _ rfl ?_
      have holds := writeText_holds heap address value.text.bytes
      rcases isText with type | type <;>
        · simp only [Contents, type]
          exact ⟨address, by simp, rfl, holds⟩
    · intro a byte lower upper
      have room := (value.text.block address).bytes_le_length
      simp only [CString.block] at room
      exact ⟨filling, _, List.mem_singleton_self _, lower, by simp only; omega⟩
  obtain ⟨type, word, valueText, length⟩ := value
  cases type with
  | invalid => exact absurd rfl fits.1.1
  | unassigned => exact absurd rfl fits.1.2
  | boolean | integer | float => exact scalar word ⟨rfl, rfl⟩
  | undefined => exact scalar 0xdeadbeef rfl
  | json => exact text (.inl rfl)
  | string => exact text (.inr rfl)

/-! ## Enqueue -/

omit [DecidableEq ι] in
theorem InSlot.not_filling (here : InSlot p none (ghost, mem)) (i : Int) :
    ghost.use i ≠ .filling p := by
  intro filling
  exact here i (by simp [filling, SlotUse.user])

theorem QueueTriple.lockTop {patience : Nat} {op : QueueOp}
    {rest : Tag → EmsProg β}
    (continues : ∀ (tag : Tag) (length : Nat), QueueTriple array level p
      (QueueAt p { phase := .pending op, enqueuing := some (length, length) } none)
      (rest tag) post) :
    QueueTriple array level p (QueueAt p { phase := .pending op } none)
      (EMStransitionFEtag patience stackTop none .full .busy >>=
        rest) post := by
  refine QueueTriple.transition (fun _ state => ∃ length,
    QueueAt p { phase := .pending op, enqueuing := some (length, length) } none
      state) ?_ ?_
  · intro ghost mem tag inv here full found
    have free : mem.log.enqueuer = none := by
      apply unlocked
      rw [← inv.topLock, found, full]
    obtain ⟨stage, unused⟩ := here
    refine ⟨ghost, .lockTop found full,
      ghost.spec.object.enqueued.length, ?_, unused⟩
    refine
      ⟨stage.phase, by simp [QueueLog.note, Access.perform, found], stage.dequeuer, ?_,
      stage.drawn, stage.entry, stage.taken⟩
    rintro _ _ ⟨rfl, rfl⟩
    exact ⟨inv.allBegun free, rfl⟩
  · rintro tag state inv ⟨length, here⟩
    exact continues _ length state inv here

theorem QueueTriple.loadTop {begun length : Nat} {rest : Int → EmsProg β}
    (holds : stage.enqueuing = some (begun, length))
    (continues : QueueTriple array level p (QueueAt p stage slot)
      (rest length) post) :
    QueueTriple array level p (QueueAt p stage slot)
      (EMS.load stackTop >>= rest) post := by
  refine QueueTriple.looks (fun reply => reply = (length : Int))
    (fun _ => stage)
    (fun _ => trivial) ?_ ?_
  · intro ghost mem inv here _
    have counted := (here.begun begun length holds).2
    exact ⟨by rw [← counted]; exact inv.top, here⟩
  · rintro _ rfl
    exact continues

/-- The ticket of an enqueue. -/
theorem QueueTriple.announce {length : Nat} {value : EMSvalueType}
    {rest : Unit → EmsProg β}
    (continues : (length : Int) % array.nElem < 2 ^ 31 →
      QueueTriple array level p
      (QueueAt p
        { phase := .done (.enqueue value) (.index (.ok (slotOf array length)))
          enqueuing := some (length, length + 1)
          entry := some (length, value) } none) (rest ()) post) :
    QueueTriple array level p
      (QueueAt p { phase := .pending (.enqueue value), enqueuing := some (length, length) } none)
      (EMS.store stackTop ((length : Int) + 1) >>= rest) post := by
  refine QueueTriple.access
    (fun _ state => (length : Int) % array.nElem < 2 ^ 31 ∧ QueueAt p
    { phase := .done (.enqueue value) (.index (.ok (slotOf array length)))
      enqueuing := some (length, length + 1)
      entry := some (length, value) } none state) QueueAt.stable ?_ ?_
  · rintro ghost mem inv ⟨stage, unused⟩ _ careful
    obtain ⟨begun, rfl⟩ := stage.begun _ _ rfl
    have enqueuer := stage.enqueuer.mpr rfl
    refine ⟨_, .announce enqueuer begun (InSlot.not_filling unused) stage.phase,
      ?_, ?_, unused⟩
    · rw [← inv.top]
      exact careful.1 rfl
    · have noted : (queuePerform p
          (.store stackTop (ghost.spec.object.enqueued.length + 1)) mem).2.log =
              mem.log := by
        simp [QueueLog.note, stackTop_ne_queueBottom]
      refine ⟨AtomicObject.State.setPhase_same _ _ _, ?_, stage.dequeuer, ?_,
        stage.drawn, ?_,
        Nat.zero_le _⟩
      · rw [noted]
        exact stage.enqueuer
      · rintro _ _ ⟨rfl, rfl⟩
        exact ⟨begun, by simp [QueueGhost.commit, Tickets.add]⟩
      · rintro _ _ ⟨rfl, rfl⟩
        simp [QueueGhost.commit, Tickets.add]
  · rintro reply state inv ⟨bounded, here⟩
    exact continues bounded state inv here

theorem QueueTriple.lookBottom {begun length : Nat} {rest : Int → EmsProg β}
    (holds : stage.enqueuing = some (begun, length))
    (continues : ∀ bottom : Nat, (length : Int) - bottom ≤ array.nElem →
      QueueTriple array level p
      (QueueAt p { stage with taken := bottom } slot) (rest bottom) post) :
    QueueTriple array level p (QueueAt p stage slot)
      (EMS.load queueBottom >>= rest) post := by
  refine QueueTriple.looks
      (fun reply => ∃ bottom : Nat, reply = (bottom : Int) ∧
      (length : Int) - bottom ≤ array.nElem)
        (fun reply => { stage with taken := reply.toNat })
    (fun _ => trivial) ?_ ?_
  · intro ghost mem inv here given
    obtain ⟨begunEq, lengthEq⟩ := here.begun begun length holds
    have notFull := given rfl (here.enqueuer.mpr (by simp [holds]))
    have found : (Access.perform (.load queueBottom) mem.buf).1 =
        (ghost.spec.object.taken : Int) := inv.bottom
    rw [inv.top, inv.bottom, lengthEq] at notFull
    rw [found]
    exact ⟨⟨_, rfl, notFull⟩, here.phase, here.enqueuer, here.dequeuer,
      here.begun, here.drawn,
      here.entry, by simp⟩
  · rintro _ ⟨bottom, rfl, notFull⟩
    simpa using continues bottom notFull

omit [DecidableEq ι] in
/-- The slot of an enqueue that has not begun is free when no dequeue is still
at work on the ticket before. -/
theorem QueueInv.slot_free (inv : QueueInv array level ghost mem)
    (announced : ghost.spec.object.enqueued.length = ghost.begun + 1)
    (room : (ghost.spec.object.enqueued.length : Int) ≤
      ghost.spec.object.taken + array.nElem)
    (careful : ∀ q, mem.log.taking q ≠
      some ((ghost.begun : Int) - array.nElem)) :
    (ghost.spec.object.enqueued.length : Int) ≤ ghost.drawn + array.nElem ∧
      ghost.use (slotOf array ghost.begun) = .free := by
  have positive := inv.positive
  have drawnBegun := inv.drawn_begun
  -- the dequeue of the ticket before has acquired the slot
  have enough : (ghost.spec.object.enqueued.length : Int) ≤
      ghost.drawn + array.nElem := by
    by_contra short
    have waits : ghost.spec.object.taken = ghost.drawn + 1 := by
      have atMost := inv.waits
      omega
    cases dequeuer : ghost.dequeuer with
    | none =>
        have allDrawn := inv.allDrawn dequeuer
        omega
    | some q =>
        apply careful q
        rw [inv.waiting q dequeuer waits]
        congr 1
        omega
  refine ⟨enough, ?_⟩
  have slot :=
    inv.slots _ (slotOf_nonneg positive ghost.begun) (slotOf_lt positive _)
  -- another ticket of the slot is a lap earlier
  have lap : ∀ {k : Nat}, slotOf array k = slotOf array ghost.begun →
      k < ghost.begun →
      (ghost.begun : Int) ≤ k + array.nElem →
          (k : Int) = ghost.begun - array.nElem := by
    intro k same earlier near
    by_contra other
    have equal := slotOf_inj same earlier.le (by omega)
    omega
  cases use : ghost.use (slotOf array ghost.begun) with
  | free => rfl
  | filling q => exact absurd use (inv.none_filling announced _ q)
  | full k =>
      simp only [SlotInv, use] at slot
      obtain ⟨drawn, begun, same, -⟩ := slot
      have isLap := lap same begun (by omega)
      omega
  | taking q k =>
      simp only [SlotInv, use] at slot
      obtain ⟨drawn, near, same, -, taking, -⟩ := slot
      rw [lap same (by omega) near] at taking
      exact absurd taking (careful q)
  | draining q k =>
      simp only [SlotInv, use] at slot
      obtain ⟨drawn, near, same, taking, -⟩ := slot
      rw [lap same (by omega) near] at taking
      exact absurd taking (careful q)

/-- An enqueue begins to fill its slot when it first looks at the tag. -/
theorem QueueTriple.begin {length : Nat} {rest : Tag → EmsProg β}
    (holds : stage.enqueuing = some (length, length + 1))
    (room : (length : Int) + 1 - stage.taken ≤ array.nElem)
    (continues : ∀ known : EmsBuf,
      (known.tag (EMSdataCell (slotOf array length))).fe = .empty →
      QueueTriple array level p
        (QueueAt p { stage with enqueuing := some (length + 1, length + 1) }
          (some ⟨slotOf array length, .filling p, [], known⟩))
        (rest (known.tag (EMSdataCell (slotOf array length)))) post) :
    QueueTriple array level p (QueueAt p stage none)
      (EMS.loadTag (EMSdataCell (slotOf array length)) >>= rest) post := by
  refine QueueTriple.access (fun reply state => ∃ known : EmsBuf,
    known.tag (EMSdataCell (slotOf array length)) = reply ∧
    (known.tag (EMSdataCell (slotOf array length))).fe = .empty ∧
    QueueAt p { stage with enqueuing := some (length + 1, length + 1) }
      (some ⟨slotOf array length, .filling p, [], known⟩) state)
        QueueAt.stable ?_ ?_
  · rintro ghost mem inv ⟨here, unused⟩ _ careful
    obtain ⟨begunEq, announced⟩ := here.begun _ _ holds
    have begunEq : ghost.begun = length := begunEq
    subst begunEq
    simp only at announced
    have enqueuer := here.enqueuer.mpr (by simp [holds])
    have inside := slotOf_nonneg inv.positive ghost.begun
    have taken := here.taken
    simp only at taken
    have free : ∀ q, mem.log.taking q ≠
        some ((ghost.begun : Int) - array.nElem) := by
      have top : mem.buf.word stackTop - 1 = ghost.begun := by
        rw [inv.top, announced]
        push_cast
        omega
      have free := careful enqueuer (EMSdataCell_ne_stackTop inside)
      rwa [top] at free
    obtain ⟨enough, isFree⟩ := inv.slot_free announced (by omega) free
    have slot := inv.slots _ inside (slotOf_lt inv.positive _)
    simp only [SlotInv, isFree] at slot
    refine ⟨_, .begin enqueuer announced isFree enough, mem.buf, rfl, slot.1,
      ?_, rfl, ?_, ?_,
      slot.2, rfl, rfl, fun _ _ _ _ _ => rfl⟩
    · refine ⟨here.phase, ?_, here.dequeuer, ?_, here.drawn,
        here.entry, here.taken⟩
      · exact iff_of_true enqueuer rfl
      · rintro _ _ ⟨rfl, rfl⟩
        exact ⟨rfl, announced⟩
    · exact Function.update_self _ _ _
    · intro j different
      simpa only [Function.update_of_ne different] using unused j
  · rintro _ state inv ⟨known, rfl, empty, here⟩
    exact continues known empty state inv here

/-- An enqueue has filled its slot. -/
theorem QueueTriple.finish {length : Nat} {value : EMSvalueType}
    {rest : Unit → EmsProg β}
    (holds : stage.enqueuing = some (length + 1, length + 1))
    (entry : stage.entry = some (length, value))
    (filling : own.use = .filling p)
    (type : (own.known.tag (EMSdataCell own.index)).type = value.type)
    (contents : Contents
      (own.known.word (EMSdataCell own.index)) own.known.heap value own.blocks)
    (continues : QueueTriple array level p (QueueAt p stage none)
      (rest ()) post) :
    QueueTriple array level p (QueueAt p stage (some own))
      (storeFE (EMSdataCell own.index) .full >>= rest) post := by
  rw [storeFE, bind_assoc]
  apply QueueTriple.loadTag
  refine QueueTriple.access (fun _ => QueueAt p stage none) QueueAt.stable ?_
    (fun _ => continues)
  rintro ghost mem inv ⟨here, user, use, only, blocks, tag, word, heap⟩ _ _
  have use : ghost.use own.index = .filling p := use.trans filling
  have blocks : ghost.blocks own.index = own.blocks := blocks
  have word : mem.buf.word (EMSdataCell own.index) =
    own.known.word (EMSdataCell own.index) := word
  have inside := (inv.inside own.index (by simp [use])).1
  have begun : ghost.begun = length + 1 := (here.begun _ _ holds).1
  have noted : (queuePerform p (.storeTag (EMSdataCell own.index)
      { own.known.tag (EMSdataCell own.index) with fe := .full }) mem).2.log =
          mem.log := by
    simp [QueueLog.note, EMSdataCell_ne_stackTop inside]
  refine ⟨_, .finish use rfl ?_ type ?_,
    here.kept rfl (by rw [noted]) rfl rfl rfl, ?_⟩
  · rw [begun]
    exact here.entry _ _ entry
  · rw [word, blocks]
    exact contents.same heap
  · intro j
    by_cases same : j = own.index
    · simp [same, SlotUse.user]
    · simpa only [Function.update_of_ne same] using only j same

theorem QueueTriple.unlockTop {length : Nat} {rest : Unit → EmsProg β}
    (holds : stage.enqueuing = some (length, length))
    (continues : QueueTriple array level p
      (QueueAt p { stage with enqueuing := none } none)
      (rest ()) post) :
    QueueTriple array level p (QueueAt p stage none)
      (storeFE stackTop .full >>= rest) post := by
  rw [storeFE, bind_assoc]
  apply QueueTriple.quiet
  · exact fun _ => trivial
  intro tag
  refine QueueTriple.access
    (fun _ => QueueAt p { stage with enqueuing := none } none)
    QueueAt.stable ?_ (fun _ => continues)
  rintro ghost mem inv ⟨here, unused⟩ _ _
  have enqueuer := here.enqueuer.mpr (by simp [holds])
  obtain ⟨begun, counted⟩ := here.begun _ _ holds
  refine ⟨ghost, .unlockTop enqueuer (begun.trans counted.symm)
    (InSlot.not_filling unused) rfl,
    ⟨here.phase, ?_, here.dequeuer, ?_, here.drawn, here.entry,
      here.taken⟩, unused⟩
  · exact iff_of_false (by simp [QueueLog.note]) (by simp)
  · intro begun length none
    cases none

/-- Where a process is that has done its operation. -/
def QueueDone (p : ι) (op : QueueOp) (res : EntryRes) :
    QueueGhost ι × QueueMem ι → Prop :=
  QueueAt p { phase := .done op res } none

theorem QueueTriple.returns {op : QueueOp} {res : EntryRes}
    (done : stage.phase = .done op res) (noTop : stage.enqueuing = none)
    (noBottom : stage.dequeuing = none) :
    QueueTriple array level p (QueueAt p stage none) (.ret res)
      (QueueDone p op) := by
  refine Protocol.Triple.ret QueueAt.stable ?_
  rintro state inv ⟨here, unused⟩
  refine ⟨⟨here.phase.trans done, ?_, ?_, ?_, ?_, ?_, Nat.zero_le _⟩, unused⟩
  · simpa [noTop] using here.enqueuer
  · simpa [noBottom] using here.dequeuer
  · intro begun length none
    cases none
  · intro drawn taken none
    cases none
  · intro k value none
    cases none

omit [DecidableEq ι] in
theorem toInt32_slot (positive : 0 < array.nElem) {length : Nat}
    (bounded : (length : Int) % array.nElem < 2 ^ 31) :
    toInt32 ((length : Int).tmod array.nElem) = slotOf array length := by
  have inside := slotOf_nonneg positive length
  unfold slotOf at inside ⊢
  rw [Int.tmod_eq_emod_of_nonneg (by omega), toInt32,
    Int.bmod_eq_of_le] <;> omega

theorem QueueTriple.enqueue (positive : 0 < array.nElem) {value : EMSvalueType}
    (fits : value.Fits) (patience : Nat) :
    QueueTriple array level p
      (QueueAt p { phase := .pending (.enqueue value) } none)
      (QueueOp.code array (.enqueue value) patience)
        (QueueDone p (.enqueue value)) := by
  rw [QueueOp.code, ← bind_pure_comp, EMSenqueue, bind_assoc]
  apply QueueTriple.lockTop
  intro tag length
  simp only [bind_assoc]
  apply QueueTriple.loadTop rfl
  apply QueueTriple.loadTop rfl
  apply QueueTriple.announce
  intro bounded
  rw [toInt32_slot positive bounded]
  apply QueueTriple.loadTop rfl
  apply QueueTriple.lookBottom rfl
  intro bottom notFull
  rw [if_neg (by omega)]
  simp only [storeRW, storeType, bind_assoc]
  apply QueueTriple.begin rfl
  · exact notFull
  intro known empty
  apply QueueTriple.storeTag rfl
  · exact empty
  apply QueueTriple.loadTag
  apply QueueTriple.storeTag rfl
  · simpa using empty
  apply QueueTriple.loadTag
  simp only [EmsBuf.setTag_tag, Function.update_self]
  apply QueueTriple.storeEntry fits rfl rfl
  intro blocks after sameTag contents
  simp only [bind_assoc]
  apply QueueTriple.finish rfl rfl rfl
  · simp [sameTag]
  · exact contents
  apply QueueTriple.unlockTop rfl
  exact QueueTriple.returns rfl rfl rfl

/-! ## Dequeue -/

theorem QueueTriple.lockBottom {patience : Nat} {op : QueueOp}
    {rest : Tag → EmsProg β}
    (continues : ∀ (tag : Tag) (taken : Nat), QueueTriple array level p
      (QueueAt p { phase := .pending op, dequeuing := some (taken, taken) } none)
      (rest tag) post) :
    QueueTriple array level p (QueueAt p { phase := .pending op } none)
      (EMStransitionFEtag patience queueBottom none .full .busy >>=
        rest) post := by
  refine QueueTriple.transition (fun _ state => ∃ taken,
    QueueAt p { phase := .pending op, dequeuing := some (taken, taken) } none
      state) ?_ ?_
  · intro ghost mem tag inv here full found
    have free : ghost.dequeuer = none := by
      apply unlocked
      rw [← inv.bottomLock, found, full]
    obtain ⟨stage, unused⟩ := here
    refine ⟨_, .lockBottom found full, ghost.spec.object.taken, ?_, unused⟩
    refine ⟨stage.phase, ?_, by simp, stage.begun, ?_, stage.entry, stage.taken⟩
    · simpa [QueueLog.note, stackTop_ne_queueBottom.symm] using stage.enqueuer
    · rintro _ _ ⟨rfl, rfl⟩
      exact ⟨inv.allDrawn free, rfl⟩
  · rintro tag state inv ⟨taken, here⟩
    exact continues _ taken state inv here

theorem QueueTriple.loadBottom {drawn taken : Nat} {rest : Int → EmsProg β}
    (holds : stage.dequeuing = some (drawn, taken))
    (continues : QueueTriple array level p (QueueAt p stage slot)
      (rest taken) post) :
    QueueTriple array level p (QueueAt p stage slot)
      (EMS.load queueBottom >>= rest) post := by
  refine QueueTriple.looks (fun reply => reply = (taken : Int)) (fun _ => stage)
    (fun _ => trivial) ?_ ?_
  · intro ghost mem inv here _
    have counted := (here.drawn drawn taken holds).2
    exact ⟨by rw [← counted]; exact inv.bottom, here⟩
  · rintro _ rfl
    exact continues

/-- A dequeue looks how far the enqueues are. -/
theorem QueueTriple.lookTop (taken : Nat) {rest : Int → EmsProg β}
    (nothing : ∀ top : Nat, top ≤ taken →
      QueueTriple array level p (QueueAt p stage slot) (rest top) post)
    (something : ∀ (top : Nat) (value : EMSvalueType), taken < top →
      QueueTriple array level p
        (QueueAt p { stage with entry := some (taken, value) } slot)
        (rest top) post) :
    QueueTriple array level p (QueueAt p stage slot)
      (EMS.load stackTop >>= rest) post := by
  refine QueueTriple.access
    (fun (reply : Int) state => ∃ top : Nat, reply = top ∧
    if top ≤ taken then QueueAt p stage slot state
    else ∃ value, QueueAt p
      { stage with entry := some (taken, value) } slot state)
    QueueAt.stable ?_ ?_
  · intro ghost mem inv here _ _
    refine ⟨ghost, .quiet trivial, _, inv.top, ?_⟩
    split
    case isTrue => exact here.quiet trivial
    case isFalse more =>
      obtain ⟨value, isValue⟩ : ∃ value, ghost.spec.object.enqueued[taken]? =
          some value :=
        ⟨_, List.getElem?_eq_getElem (by omega)⟩
      have known : InStage p { stage with entry := some (taken, value) }
          (ghost, mem) := by
        refine { here.1 with entry := ?_ }
        rintro _ _ ⟨rfl, rfl⟩
        exact isValue
      have after : QueueAt p { stage with entry := some (taken, value) } slot
          (ghost, mem) :=
        ⟨known, here.2⟩
      exact ⟨value, after.quiet trivial⟩
  · rintro _ state inv ⟨top, rfl, here⟩
    split at here
    case isTrue none => exact nothing top none state inv here
    case isFalse more =>
      obtain ⟨value, here⟩ := here
      exact something top value (by omega) state inv here

/-- A dequeue finds nothing, and stores `Q_BOTTOM` as it was. -/
theorem QueueTriple.nothing {taken : Nat} {rest : Unit → EmsProg β}
    (continues : QueueTriple array level p
      (QueueAt p
        { phase := .done .dequeue (.value (.ok nothingThere))
          dequeuing := some (taken, taken) } none) (rest ()) post) :
    QueueTriple array level p
      (QueueAt p { phase := .pending .dequeue, dequeuing := some (taken, taken) } none)
      (EMS.load stackTop >>= fun top =>
          EMS.store queueBottom top >>= rest) post := by
  refine QueueTriple.access (fun _ state =>
    QueueAt p { phase := .pending .dequeue, dequeuing := some (taken, taken) }
      none state ∧
      Loaded p stackTop state) QueueAt.stable ?_ ?_
  · intro ghost mem _ here _ _
    exact ⟨ghost, .quiet trivial, here.quiet trivial, by
      simp [Loaded, QueueLog.note]⟩
  intro (top : Int)
  refine QueueTriple.access (fun _ => QueueAt p
    { phase := .done .dequeue (.value (.ok nothingThere)),
      dequeuing := some (taken, taken) } none)
    (QueueAt.stable.and Loaded.stable) ?_ (fun _ => continues)
  rintro ghost mem inv ⟨⟨here, unused⟩, loaded⟩ _ careful
  obtain ⟨drawn, rfl⟩ := here.drawn _ _ rfl
  have sameTop : top = ghost.spec.object.taken := by
    rw [← inv.bottom]
    exact careful.2 rfl loaded
  rw [sameTop]
  have other : mem.log.loaded p ≠ some queueBottom := by
    intro isBottom
    have same : some stackTop = some queueBottom := loaded.symm.trans isBottom
    exact stackTop_ne_queueBottom (Option.some.inj same)
  refine ⟨_, .nothing (here.dequeuer.mpr rfl) drawn other here.phase, ?_,
    unused⟩
  refine ⟨AtomicObject.State.setPhase_same _ _ _, ?_, here.dequeuer,
    here.begun, ?_, ?_,
    here.taken⟩
  · simpa [QueueLog.note, other] using here.enqueuer
  · rintro _ _ ⟨rfl, rfl⟩
    exact ⟨drawn, rfl⟩
  · exact here.entry

/-- The ticket of a dequeue. -/
theorem QueueTriple.take {taken : Nat} {value : EMSvalueType}
    {rest : Unit → EmsProg β}
    (continues : QueueTriple array level p
      (QueueAt p
        { phase := .done .dequeue (.value (.ok value.back))
          dequeuing := some (taken, taken + 1)
          entry := some (taken, value) } none) (rest ()) post) :
    QueueTriple array level p
      (QueueAt p
        { phase := .pending .dequeue
          dequeuing := some (taken, taken)
          entry := some (taken, value) } none)
      (EMS.load queueBottom >>= fun bottom =>
        EMS.store queueBottom (bottom + 1) >>= rest)
      post := by
  refine QueueTriple.access
    (fun (reply : Int) state => reply = taken ∧ QueueAt p
    { phase := .pending .dequeue
      dequeuing := some (taken, taken)
      entry := some (taken, value) } none state ∧ Loaded p queueBottom state)
    QueueAt.stable ?_ ?_
  · intro ghost mem inv here _ _
    refine ⟨ghost, .quiet trivial, ?_, here.quiet trivial, by
      simp [Loaded, QueueLog.note]⟩
    rw [← (here.1.drawn _ _ rfl).2]
    exact inv.bottom
  rintro _ state inv ⟨rfl, here⟩
  revert state
  refine QueueTriple.access (fun _ => QueueAt p
    { phase := .done .dequeue (.value (.ok value.back))
      dequeuing := some (taken, taken + 1)
      entry := some (taken, value) } none)
    (QueueAt.stable.and Loaded.stable) ?_ (fun _ => continues)
  rintro ghost mem inv ⟨⟨here, unused⟩, loaded⟩ _ _
  obtain ⟨drawn, rfl⟩ := here.drawn _ _ rfl
  have loaded : mem.log.loaded p = some queueBottom := loaded
  refine ⟨_, .take (here.dequeuer.mpr rfl) drawn loaded unused
    (here.entry _ _ rfl) here.phase,
    ?_, unused⟩
  refine ⟨AtomicObject.State.setPhase_same _ _ _, ?_, here.dequeuer, here.begun,
    ?_, here.entry,
    Nat.zero_le _⟩
  · simpa [QueueLog.note, loaded] using here.enqueuer
  · rintro _ _ ⟨rfl, rfl⟩
    exact ⟨drawn, rfl⟩

omit [DecidableEq ι] in
/-- What a dequeue knows of a slot that it has acquired. -/
theorem QueueAt.holds {k : Nat} {value : EMSvalueType}
    (inv : QueueInv array level ghost mem)
    (here : QueueAt p stage (some own) (ghost, mem))
    (use : own.use = .taking p k)
    (entry : stage.entry = some (k, value)) :
    (own.known.tag (EMSdataCell own.index)).type = value.type ∧
      Contents (own.known.word (EMSdataCell own.index)) own.known.heap value
        own.blocks := by
  obtain ⟨inStage, -, sameUse, -, blocks, tag, word, heap⟩ := here
  simp only at sameUse blocks tag word heap
  obtain ⟨lower, upper⟩ := inv.inside own.index (by simp [sameUse, use])
  have slot := inv.slots own.index lower upper
  simp only [SlotInv, sameUse, use] at slot
  obtain ⟨value', isValue, type, contents⟩ := slot.2.2.2.2.2.holds
  obtain rfl : value' = value :=
    Option.some.inj (isValue.symm.trans (inStage.entry k value entry))
  refine ⟨by rw [← tag]; exact type, ?_⟩
  rw [← word, ← blocks]
  refine contents.same fun block member a lower upper => ?_
  exact (heap block (blocks ▸ member) a lower upper).symm

/-- A dequeue waits until the slot of its ticket is full, and acquires it. -/
theorem QueueTriple.draw {taken : Nat} {value : EMSvalueType} {patience : Nat}
    {rest : Tag → EmsProg β} (holds : stage.dequeuing = some (taken, taken + 1))
    (entry : stage.entry = some (taken, value))
    (continues : ∀ (blocks : List Block) (known : EmsBuf),
      (known.tag (EMSdataCell (slotOf array taken))).type = value.type →
      Contents (known.word (EMSdataCell (slotOf array taken))) known.heap
        value blocks →
      QueueTriple array level p
        (QueueAt p { stage with dequeuing := some (taken + 1, taken + 1) }
          (some ⟨slotOf array taken, .taking p taken, blocks, known⟩))
        (rest (known.tag (EMSdataCell (slotOf array taken)))) post) :
    QueueTriple array level p (QueueAt p stage none)
      (EMStransitionFEtag patience
        (EMSdataCell (slotOf array taken)) none .full .busy >>= rest)
      post := by
  refine QueueTriple.transition
      (fun tag state => ∃ (blocks : List Block) (known : EmsBuf),
    known.tag (EMSdataCell (slotOf array taken)) = { tag with fe := .busy } ∧
    QueueAt p { stage with dequeuing := some (taken + 1, taken + 1) }
      (some ⟨slotOf array taken, .taking p taken, blocks, known⟩) state) ?_ ?_
  · rintro ghost mem tag inv ⟨here, unused⟩ full found
    obtain ⟨drawnEq, counted⟩ := here.drawn _ _ holds
    have drawnEq : ghost.drawn = taken := drawnEq
    subst drawnEq
    simp only at counted
    have dequeuer := here.dequeuer.mpr (by simp [holds])
    have inside := slotOf_nonneg inv.positive ghost.drawn
    refine ⟨_, .draw dequeuer counted found full,
      ghost.blocks (slotOf array ghost.drawn),
      (queuePerform p (.casTag (EMSdataCell (slotOf array ghost.drawn)) tag
        { tag with fe := .busy })
          mem).2.buf, by simp [Access.perform, found], ?_, rfl, ?_, ?_, rfl,
      rfl, rfl, fun _ _ _ _ _ => rfl⟩
    · refine ⟨here.phase, ?_, ?_, here.begun, ?_, here.entry, here.taken⟩
      · simpa [QueueLog.note,
          EMSdataCell_ne_stackTop inside] using here.enqueuer
      · exact iff_of_true dequeuer rfl
      · rintro _ _ ⟨rfl, rfl⟩
        exact ⟨rfl, counted⟩
    · exact Function.update_self _ _ _
    · intro j different
      simpa only [Function.update_of_ne different] using unused j
  · rintro tag state inv ⟨blocks, known, sameTag, here⟩
    rw [← sameTag]
    obtain ⟨type, contents⟩ := QueueAt.holds inv here rfl entry
    exact continues blocks known type contents state inv here

section Leaving

variable {k : Nat} {tag : Tag}

/-- A dequeue empties its slot. -/
theorem QueueTriple.empty {rest : Unit → EmsProg β}
    (use : own.use = .taking p k)
    (empty : tag.fe = .empty)
    (type : tag.type = (own.known.tag (EMSdataCell own.index)).type)
    (noText : tag.type.isText = false)
    (continues : QueueTriple array level p (QueueAt p stage none)
      (rest ()) post) :
    QueueTriple array level p (QueueAt p stage (some own))
      (EMS.storeTag (EMSdataCell own.index) tag >>= rest) post := by
  refine QueueTriple.access (fun _ => QueueAt p stage none) QueueAt.stable ?_
    (fun _ => continues)
  rintro ghost mem inv ⟨here, -, sameUse, only, -, sameTag, -, -⟩ _ _
  have sameUse : ghost.use own.index = .taking p k := sameUse.trans use
  have inside := (inv.inside own.index (by simp [sameUse])).1
  refine ⟨_, .empty sameUse empty
    (type.trans (congrArg Tag.type sameTag.symm)) noText,
    here.kept rfl (note_slot_enqueuer inside mem.log mem.buf) rfl rfl rfl, ?_⟩
  intro j
  by_cases same : j = own.index
  · simp [same, SlotUse.user]
  · simpa only [Function.update_of_ne same] using only j same

theorem QueueTriple.drain {rest : Unit → EmsProg β}
    (use : own.use = .taking p k)
    (empty : tag.fe = .empty)
    (type : tag.type = (own.known.tag (EMSdataCell own.index)).type)
    (isText : tag.type.isText = true)
    (continues : QueueTriple array level p
      (QueueAt p stage (some ⟨own.index, .draining p k, own.blocks,
        own.known.setTag (EMSdataCell own.index) tag⟩)) (rest ()) post) :
    QueueTriple array level p (QueueAt p stage (some own))
      (EMS.storeTag (EMSdataCell own.index) tag >>= rest) post := by
  refine QueueTriple.access
    (fun _ => QueueAt p stage (some ⟨own.index, .draining p k, own.blocks,
    own.known.setTag (EMSdataCell own.index) tag⟩)) QueueAt.stable ?_
      (fun _ => continues)
  rintro ghost mem inv ⟨here, -, sameUse, only, blocks, sameTag, word, heap⟩ _ _
  have sameUse : ghost.use own.index = .taking p k := sameUse.trans use
  have inside := (inv.inside own.index (by simp [sameUse])).1
  refine ⟨_, .drain sameUse empty
    (type.trans (congrArg Tag.type sameTag.symm)) isText,
    here.kept rfl (note_slot_enqueuer inside mem.log mem.buf) rfl rfl rfl, rfl,
    ?_, ?_, blocks, ?_, word,
    heap⟩
  · exact Function.update_self _ _ _
  · intro j different
    simpa only [Function.update_of_ne different] using only j different
  · simp [Access.perform]

/-- A dequeue releases `Q_BOTTOM`. -/
theorem QueueTriple.unlockBottom {taken : Nat} {rest : Unit → EmsProg β}
    (holds : stage.dequeuing = some (taken, taken))
    (drained : ∀ own, slot = some own → ∃ k, own.use = .draining p k)
    (continues : QueueTriple array level p
      (QueueAt p { stage with dequeuing := none } slot)
      (rest ()) post) :
    QueueTriple array level p (QueueAt p stage slot)
      (storeFE queueBottom .full >>= rest) post := by
  rw [storeFE, bind_assoc]
  apply QueueTriple.quiet
  · exact fun _ => trivial
  intro tag
  refine QueueTriple.access
    (fun _ => QueueAt p { stage with dequeuing := none } slot)
    QueueAt.stable ?_ (fun _ => continues)
  rintro ghost mem inv ⟨here, inSlot⟩ _ _
  obtain ⟨drawn, counted⟩ := here.drawn _ _ holds
  have unused : ∀ i k, ghost.use i ≠ .taking p k := by
    intro i k taking
    have user : (ghost.use i).user = some p := by simp [taking, SlotUse.user]
    cases slot with
    | none => exact inSlot i user
    | some own =>
        by_cases same : i = own.index
        · obtain ⟨k', use⟩ := drained own rfl
          have sameUse : ghost.use own.index = own.use := inSlot.use
          rw [same, sameUse, use] at taking
          cases taking
        · exact inSlot.only i same user
  refine ⟨_, .unlockBottom (here.dequeuer.mpr (by simp [holds]))
    (drawn.trans counted.symm) unused
    rfl, ?_, ?_⟩
  · refine ⟨here.phase, ?_, by simp, here.begun, ?_, here.entry, here.taken⟩
    · simpa [QueueLog.note, stackTop_ne_queueBottom.symm] using here.enqueuer
    · intro drawn taken none
      cases none
  · cases slot with
    | none => exact inSlot
    | some own =>
        obtain ⟨user, use, only, blocks, sameTag, word, heap⟩ := inSlot
        have inside := (inv.inside own.index (by
          intro free
          rw [← use, free] at user
          cases user)).1
        refine ⟨user, use, only, blocks, ?_, word, heap⟩
        simpa [Access.perform, EMSdataCell_ne_queueBottom inside] using sameTag

/-- A dequeue releases the string that it has read. -/
theorem QueueTriple.free {i : Int} {block : Block} {known : EmsBuf}
    {patience : Nat}
    {rest : Unit → EmsProg β}
    (continues : QueueTriple array level p (QueueAt p stage none)
      (rest ()) post) :
    QueueTriple array level p
      (QueueAt p stage (some ⟨i, .draining p k, [block], known⟩))
      (emsMutexMem_free patience block.address >>= rest) post := by
  rw [emsMutexMem_free, bind_assoc]
  apply QueueTriple.lockMemMutex
  rw [bind_assoc]
  refine QueueTriple.access (fun (reply : Except AllocFault Unit) state =>
    reply = .ok () ∧ QueueAt p stage none state) QueueAt.stable ?_ ?_
  · rintro ghost mem inv ⟨here, -, use, only, blocks, -, -, -⟩ _ _
    simp only at use only blocks
    refine ⟨_, .free use blocks, ?_, here.kept rfl rfl rfl rfl rfl, ?_⟩
    · obtain ⟨tree, shape⟩ := inv.heap
      have member : block ∈ ghost.live := inv.owned i block (by simp [blocks])
      obtain ⟨mem', given, success, -⟩ := shape.free member
      have success : emsMem_free mem.buf.mem block.address = .ok mem' := success
      have bound := (shape.safe inv.small).addressable block member
      have unwrapped : ((block.address : Int) % 2 ^ 64).toNat =
        block.address := by omega
      simp only [Access.perform, unwrapped, success]
    · intro j
      by_cases same : j = i
      · simp [same, SlotUse.user]
      · simpa only [Function.update_of_ne same] using only j same
  · rintro _ state inv ⟨rfl, here⟩
    refine QueueTriple.quiet ?_ ?_ state inv here
    · exact fun _ => trivial
    · exact fun _ => continues

end Leaving

omit [DecidableEq ι] in
theorem OwnAccess.text {text : CString} {address : Nat}
    (member : text.block address ∈ own.blocks)
    {a : Int} (lower : address ≤ a) (upper : a ≤ address + text.bytes.length) :
    OwnAccess p own (.loadByte a) := by
  have room := (text.block address).bytes_le_length
  simp only [CString.block] at room
  exact ⟨_, member, lower, by simp only [CString.block]; omega⟩

theorem QueueTriple.dequeue (patience : Nat) :
    QueueTriple array level p (QueueAt p { phase := .pending .dequeue } none)
      (QueueOp.code array .dequeue patience) (QueueDone p .dequeue) := by
  rw [QueueOp.code, ← bind_pure_comp, EMSdequeue, bind_assoc]
  apply QueueTriple.lockBottom
  intro tag taken
  have index : (taken : Int).tmod array.nElem = slotOf array taken :=
    Int.tmod_eq_emod_of_nonneg (by omega)
  simp only [bind_assoc]
  apply QueueTriple.loadBottom rfl
  rw [index]
  apply QueueTriple.loadBottom rfl
  apply QueueTriple.lookTop taken
  · intro top none
    rw [if_pos (by omega)]
    simp only [bind_assoc]
    apply QueueTriple.nothing
    apply QueueTriple.unlockBottom rfl (by simp)
    exact QueueTriple.returns rfl rfl rfl
  intro top value more
  rw [if_neg (by omega)]
  simp only [bind_assoc]
  apply QueueTriple.take
  apply QueueTriple.draw rfl rfl
  intro blocks known type contents
  obtain ⟨valueType, word, text, length⟩ := value
  simp only at type
  rw [type]
  cases valueType with
  | invalid | unassigned => exact contents.elim
  | boolean | integer | float =>
      obtain ⟨sameWord, rfl⟩ := contents
      simp only [bind_assoc]
      apply QueueTriple.load
      rw [sameWord]
      apply QueueTriple.empty
      · rfl
      · rfl
      · exact type.symm
      · rfl
      apply QueueTriple.unlockBottom rfl (by simp)
      exact QueueTriple.returns rfl rfl rfl
  | undefined =>
      simp only [bind_assoc]
      apply QueueTriple.empty
      · rfl
      · rfl
      · exact type.symm
      · rfl
      apply QueueTriple.unlockBottom rfl (by simp)
      exact QueueTriple.returns rfl rfl rfl
  | json | string =>
      obtain ⟨address, sameWord, rfl, holds⟩ := contents
      simp only [bind_assoc]
      apply QueueTriple.drain
      · rfl
      · rfl
      · exact type.symm
      · rfl
      apply QueueTriple.unlockBottom rfl
      · rintro _ ⟨⟩
        exact ⟨_, rfl⟩
      -- what the dequeue knows of its slot after it has released the tag
      generalize isAfter : EmsBuf.setTag known _ _ = after
      have sameWord : after.word (EMSdataCell (slotOf array taken)) =
          address := by
        simpa [← isAfter] using sameWord
      have holds : HeapHolds after.heap address text.bytes := by
        simpa [← isAfter] using holds
      have mayRead : ∀ a : Int, address ≤ a → a ≤ address + text.bytes.length →
          OwnAccess p ⟨slotOf array taken,
            .draining p taken, [text.block address], after⟩
            (.loadByte a) :=
        fun a => OwnAccess.text (List.mem_singleton_self _)
      apply QueueTriple.load
      simp only [sameWord]
      apply QueueTriple.yields
        (heapStrlen_yields holds mayRead fun _ => trivial)
      apply QueueTriple.load
      simp only [sameWord]
      apply QueueTriple.yields
        (copyFromHeap_yields holds mayRead fun _ => trivial)
      apply QueueTriple.load
      simp only [sameWord]
      apply QueueTriple.free
      exact QueueTriple.returns rfl rfl rfl

/-! ## Results about runs -/

/-- Where a process is between its calls. -/
def QueueIdle (p : ι) : QueueGhost ι × QueueMem ι → Prop :=
  QueueAt p { phase := .idle } none

omit [DecidableEq ι] in
theorem InStage.phased {phase phase' : AtomicObject.Phase QueueOp EntryRes}
    {spec : QueueState ι}
    (here : InStage p { phase := phase } (ghost, mem))
    (isPhase : spec.phase p = phase') :
    InStage p { phase := phase' } ({ ghost with spec := spec }, mem) where
  phase := isPhase
  enqueuer := here.enqueuer
  dequeuer := here.dequeuer
  begun := fun _ _ none => by cases none
  drawn := fun _ _ none => by cases none
  entry := fun _ _ none => by cases none
  taken := Nat.zero_le _

private theorem queueImplements (positive : 0 < array.nElem) :
    (queueProtocol ι array level).Implements
    (queueMachine ι array true) QueueIdle QueueDone where
  idleStable := fun _ => QueueAt.stable
  calls := by
    intro p op patience ghost mem inv idle fits
    have move : QueueMove array level p (.call op) (ghost, mem) _ :=
      .call op idle.1.phase
    have called := (queueProtocol ι array level).keeps inv move
    have pending : QueueAt p { phase := .pending op } none
        ({ ghost with spec := ghost.spec.setPhase p (.pending op) }, mem) :=
      ⟨idle.1.phased (AtomicObject.State.setPhase_same _ _ _), idle.2⟩
    refine ⟨_, move, ?_⟩
    cases op with
    | enqueue value =>
        exact QueueTriple.enqueue positive fits patience _ called pending
    | dequeue => exact QueueTriple.dequeue patience _ called pending
  returns := by
    intro p op res ghost mem _ done
    exact ⟨_, .ret done.1.phase,
      done.1.phased (AtomicObject.State.setPhase_same _ _ _), done.2⟩

omit [DecidableEq ι] in
theorem Harmless.hidden {buf : EmsBuf} (harmless : Harmless buf act) :
    takesTicket act = false := by
  cases act with
  | store cell word => exact harmless.elim
  | _ => rfl

/-- A move of the protocol is a step of the atomic object, or none. -/
theorem QueueMove.refines {label : QueueLabel}
    {state next : QueueGhost ι × QueueMem ι}
    (move : QueueMove array level p label state next) :
    match queueEvent (p, label) with
    | none => next.1.spec = state.1.spec
    | some event =>
        AtomicObject.Step (QueueOp.effect array) state.1.spec event
          next.1.spec := by
  cases move with
  | call op idle => exact .call op idle
  | ret done => exact .ret done
  | access change =>
      cases change with
      | quiet harmless => simp [queueEvent, harmless.hidden]
      | announce enqueuer begun unused pending =>
          simp only [queueEvent, takesTicket, true_or, decide_true, if_true]
          exact .commit pending ⟨rfl, rfl⟩
      | fill filling hidden fills enqueuer taking => simp [queueEvent, hidden]
      | take dequeuer drawn loaded unused isValue pending =>
          simp only [queueEvent, takesTicket, or_true, decide_true, if_true]
          exact .commit pending (.inl ⟨_, isValue, rfl, rfl⟩)
      | nothing dequeuer drawn loaded pending =>
          simp only [queueEvent, takesTicket, or_true, decide_true, if_true]
          exact .commit pending (.inr ⟨rfl, rfl⟩)
      | lockTop found full => simp [queueEvent, takesTicket]
      | begin enqueuer announced unused room => simp [queueEvent, takesTicket]
      | finish filling full isValue type contents =>
          simp [queueEvent, takesTicket]
      | unlockTop enqueuer begun unused full => simp [queueEvent, takesTicket]
      | lockBottom found full => simp [queueEvent, takesTicket]
      | draw dequeuer taken found full => simp [queueEvent, takesTicket]
      | empty use empty type noText => simp [queueEvent, takesTicket]
      | drain use empty type isText => simp [queueEvent, takesTicket]
      | unlockBottom dequeuer drawn unused full =>
          simp [queueEvent, takesTicket]
      | free use owned => simp [queueEvent, takesTicket]

private theorem queue_simulates {start finish : QueueGhost ι × QueueMem ι}
    {trace : List (ι × QueueLabel)}
    (run : Run (queueProtocol ι array level).Step start trace finish) :
    Run (AtomicObject.Step (QueueOp.effect array)) start.1.spec
      (trace.filterMap queueEvent)
      finish.1.spec := by
  have silent : ∀ state label next spec, state.1.spec = spec →
      (queueProtocol ι array level).Step state label next →
        queueEvent label = none →
      next.1.spec = spec := by
    intro state label next spec related move hidden
    have refines := QueueMove.refines move
    rw [hidden] at refines
    exact refines.trans related
  have visible : ∀ state label next spec event, state.1.spec = spec →
      (queueProtocol ι array level).Step state label next → queueEvent label =
        some event →
      ∃ specNext, AtomicObject.Step (QueueOp.effect array) spec event specNext ∧
        next.1.spec = specNext := by
    rintro state label next _ event rfl move shown
    have refines := QueueMove.refines move
    rw [shown] at refines
    exact ⟨next.1.spec, refines, rfl⟩
  obtain ⟨final, specRun, rfl⟩ :=
    Run.simulate queueEvent _ silent visible run rfl
  exact specRun

/-- The slots from `Q_BOTTOM` up to `STACKTOP` are full and hold the values that
have not been taken. -/
structure QueueHolds (array : EmsArray) (buf : EmsBuf)
    (queue : Tickets) : Prop where
  top : buf.word stackTop = queue.enqueued.length
  bottom : buf.word queueBottom = queue.taken
  taken_le : queue.taken ≤ queue.enqueued.length
  slots : ∀ k, queue.taken ≤ k → k < queue.enqueued.length →
    (buf.tag (EMSdataCell (slotOf array k))).fe = .full ∧
      ∃ value blocks, queue.enqueued[k]? = some value ∧
        SlotHolds buf (slotOf array k) value blocks

/-- What holds of every run of enqueues and dequeues: they take effect one after
the other when they take their tickets, and when all have finished, the memory
holds what has not been taken. -/
structure QueueLossless (array : EmsArray) {careful : Bool}
    (trace : List (ι × QueueLabel))
    (config : (queueMachine ι array careful).State) : Prop where
  linearizable : ∃ final : QueueState ι,
    Run (AtomicObject.Step (QueueOp.effect array))
      (AtomicObject.initial ⟨[], 0⟩)
      (trace.filterMap queueEvent) final ∧
    ((∀ p, config.control p = .idle) →
      QueueHolds array config.shared.buf final.object)
  neverAborts : ∀ p op, config.control p ≠ .running op .abort

omit [DecidableEq ι] in
/-- When nobody is working on the queue, it is in order. -/
theorem QueueInv.holds (inv : QueueInv array level ghost mem)
    (idle : ∀ p, QueueIdle p (ghost, mem)) :
    QueueHolds array mem.buf ghost.spec.object := by
  have noTop : mem.log.enqueuer = none := by
    rw [Option.eq_none_iff_forall_ne_some]
    intro p mine
    simpa using (idle p).1.enqueuer.mp mine
  have noBottom : ghost.dequeuer = none := by
    rw [Option.eq_none_iff_forall_ne_some]
    intro p mine
    simpa using (idle p).1.dequeuer.mp mine
  have begun := inv.allBegun noTop
  have drawn := inv.allDrawn noBottom
  refine ⟨inv.top, inv.bottom, inv.taken_le, fun k lower upper => ?_⟩
  rcases inv.tickets k (by omega) (by omega) with full | ⟨-, p, filling⟩
  · have slot :=
      inv.slots _ (slotOf_nonneg inv.positive k) (slotOf_lt inv.positive k)
    simp only [SlotInv, full] at slot
    obtain ⟨-, -, -, isFull, value, isValue, holds⟩ := slot
    exact ⟨isFull, value, _, isValue, holds⟩
  · exact absurd filling (InSlot.not_filling (idle p).2 _)

/-- An empty queue as it is set up, on a heap whose live blocks belong to
others. -/
structure EmptyQueue (array : EmsArray) (level : Nat) (kept : List Block)
    (buf : EmsBuf) :
    Prop where
  top : buf.word stackTop = 0
  bottom : buf.word queueBottom = 0
  topFree : (buf.tag stackTop).fe = .full
  bottomFree : (buf.tag queueBottom).fe = .full
  empty : ∀ i : Int, 0 ≤ i → i < array.nElem →
    (buf.tag (EMSdataCell i)).fe = .empty
  heap : ∃ tree, HeapShape level ⟨buf.mem, kept⟩ tree

/-- A queue before any call. -/
def startQueue (buf : EmsBuf) : QueueMem ι :=
  ⟨buf, ⟨none, fun _ => none, fun _ => none⟩⟩

/-- A queue loses and duplicates nothing in a run whose steps are careful. -/
theorem queue_lossless (positive : 0 < array.nElem)
    (small : EMS_MEM_BLOCKSZ * 2 ^ level < 2 ^ 63) {kept : List Block}
    {buf : EmsBuf}
    (initially : EmptyQueue array level kept buf)
    {trace : List (ι × QueueLabel)} {config : (queueMachine ι array true).State}
    (run : Run (queueMachine ι array true).Step
      ((queueMachine ι array true).start (startQueue buf)) trace config) :
    QueueLossless array trace config := by
  let ghost : QueueGhost ι :=
    ⟨none, 0, 0, fun _ => .free, fun _ => [], kept,
      AtomicObject.initial ⟨[], 0⟩⟩
  have inv : QueueInv array level ghost (startQueue buf) :=
    { positive := positive
      small := small
      top := initially.top
      bottom := initially.bottom
      topLock := initially.topFree
      bottomLock := initially.bottomFree
      begun_le := le_rfl
      announced := Nat.zero_le _
      allBegun := fun _ => rfl
      drawn_le := le_rfl
      waits := Nat.zero_le _
      allDrawn := fun _ => rfl
      taken_le := le_rfl
      drawn_begun := le_rfl
      room := by simpa [ghost] using positive.le
      waiting := fun _ none => by cases none
      tickets := fun _ _ none => absurd none (Nat.not_lt_zero _)
      inside := fun _ used => absurd rfl used
      slots := fun i inside below => ⟨initially.empty i inside below, rfl⟩
      heap := initially.heap
      owned := fun _ _ none => absurd none List.not_mem_nil
      distinct := fun _ _ _ _ none => absurd none List.not_mem_nil }
  have idle : ∀ p, QueueIdle p (ghost, startQueue buf) := by
    intro p
    refine
      ⟨⟨rfl, by simp [startQueue], by simp [ghost], ?_, ?_, ?_, Nat.zero_le _⟩,
        ?_⟩
    · exact fun _ _ none => by cases none
    · exact fun _ _ none => by cases none
    · exact fun _ _ none => by cases none
    · exact fun _ none => by cases none
  have implements : (queueProtocol ι array level).Implements
      (queueMachine ι array true)
      QueueIdle QueueDone := queueImplements positive
  obtain ⟨ghost', abstractRun, after, keeps⟩ :=
    implements.run ghost inv idle run
  constructor
  · refine ⟨ghost'.spec, queue_simulates abstractRun, fun allIdle => ?_⟩
    apply QueueInv.holds after
    intro p
    have here := keeps p
    rw [allIdle p] at here
    exact here
  · exact implements.never_aborts ghost inv idle run

end Programs

/-! ## Two runs on a queue of one slot -/

/-- A queue of one slot. -/
def shortQueue : EmsArray := ⟨1, false⟩

/-- An empty queue on a heap of one block. -/
def emptyQueueBuf : EmsBuf :=
  ((uniformBuf ⟨.empty, .undefined, 0⟩ 0).setTag stackTop
    ⟨.full, .integer, 0⟩).setTag
    queueBottom ⟨.full, .integer, 0⟩

theorem emptyQueueBuf_empty : EmptyQueue shortQueue 0 [] emptyQueueBuf := by
  refine ⟨rfl, rfl, by decide, by decide, ?_, .unused, HeapShape.fresh 0⟩
  intro i inside _
  simp [emptyQueueBuf, EMSdataCell_ne_stackTop inside,
    EMSdataCell_ne_queueBottom inside,
    uniformBuf]

/-- The processes of a run are idle at its end. -/
def allIdle {array : EmsArray} {careful : Bool}
    (config : (queueMachine (Fin 2) array careful).State) : Bool :=
  (List.finRange 2).all fun p => match config.control p with
    | .idle => true
    | .running _ _ => false

/-- Somebody has dequeued the value. -/
def dequeued (value : EMSvalueType)
    (trace : List (Fin 2 × QueueLabel)) : Bool :=
  trace.any fun label => match label with
    | (_, .ret .dequeue (.value (.ok found))) => found = value
    | _ => false

/-- One process enqueues a string while another one waits to dequeue it. -/
def queueSchedule : List (Fin 2 × Choice QueueOp) :=
  [(0, .call (.enqueue ⟨.string, 0, ⟨[104, 105], terminated_hi⟩, 2⟩) 1)] ++
    List.replicate 5 (0, .go) ++ [(1, .call .dequeue 8)] ++
      List.replicate 9 (1, .go) ++
    List.replicate 19 (0, .go) ++ List.replicate 18 (1, .go)

theorem queue_lossless_string :
    ∃ (trace : List (Fin 2 × QueueLabel))
        (config : (queueMachine (Fin 2) shortQueue true).State),
      QueueLossless shortQueue trace config ∧ allIdle config = true ∧
      dequeued ⟨.string, 0, ⟨[104, 105], terminated_hi⟩, 2⟩ trace = true := by
  obtain ⟨trace, config, run, checked⟩ :=
    (queueMachine (Fin 2) shortQueue true).exists_run
    ((queueMachine (Fin 2) shortQueue true).start (startQueue emptyQueueBuf))
      queueSchedule
    (fun played => allIdle played.2 ∧
      dequeued ⟨.string, 0, ⟨[104, 105], terminated_hi⟩, 2⟩ played.1)
        (by decide +kernel)
  simp only [Bool.decide_and, Bool.decide_eq_true, Bool.and_eq_true] at checked
  exact ⟨trace, config,
    queue_lossless (by decide) (by decide) emptyQueueBuf_empty run, checked⟩

/-- A dequeue has its ticket and has not looked at the slot yet.  The next
enqueue finds that the queue is not full, and overwrites the slot. -/
def overtakingSchedule : List (Fin 2 × Choice QueueOp) :=
  [(0, .call (.enqueue (scalar .integer 7)) 1)] ++ List.replicate 18 (0, .go) ++
    [(1, .call .dequeue 1)] ++ List.replicate 7 (1, .go) ++
    [(0, .call (.enqueue (scalar .integer 8)) 1)] ++
      List.replicate 18 (0, .go) ++
    List.replicate 7 (1, .go)

/-- When enqueues are not careful, a value is lost: the first dequeue returns
the second value, and there is nothing in the slot of the second ticket. -/
theorem queue_loses :
    EmptyQueue shortQueue 0 [] emptyQueueBuf ∧
    ∃ (trace : List (Fin 2 × QueueLabel))
        (config : (queueMachine (Fin 2) shortQueue false).State),
      Run (queueMachine (Fin 2) shortQueue false).Step
        ((queueMachine (Fin 2) shortQueue false).start
          (startQueue emptyQueueBuf)) trace config ∧
      dequeued (scalar .integer 8) trace = true ∧
        ¬ QueueLossless shortQueue trace config := by
  refine ⟨emptyQueueBuf_empty, ?_⟩
  obtain ⟨trace, config, run, checked⟩ :=
    (queueMachine (Fin 2) shortQueue false).exists_run
    ((queueMachine (Fin 2) shortQueue false).start (startQueue emptyQueueBuf))
      overtakingSchedule
    (fun played => allIdle played.2 ∧ dequeued (scalar .integer 8) played.1 ∧
      played.2.shared.buf.word stackTop = 2 ∧
        played.2.shared.buf.word queueBottom = 1 ∧
      (played.2.shared.buf.tag (EMSdataCell 0)).fe = .empty) (by decide +kernel)
  simp only [Bool.decide_and, Bool.decide_eq_true, Bool.and_eq_true,
    decide_eq_true_eq] at checked
  obtain ⟨idle, returned, top, bottom, isEmpty⟩ := checked
  refine ⟨trace, config, run, returned, fun lossless => ?_⟩
  have everybody : ∀ p, config.control p = .idle := by
    intro p
    have here := List.all_eq_true.mp idle p (List.mem_finRange p)
    split at here
    case h_1 isIdle => exact isIdle
    case h_2 => cases here
  obtain ⟨final, -, holds⟩ := lossless.linearizable
  have queue := holds everybody
  have length : final.object.enqueued.length = 2 := by
    have same := queue.top
    rw [top] at same
    omega
  have taken : final.object.taken = 1 := by
    have same := queue.bottom
    rw [bottom] at same
    omega
  obtain ⟨full, -⟩ := queue.slots 1 (by omega) (by omega)
  have slot : slotOf shortQueue 1 = 0 := by decide
  rw [slot, isEmpty] at full
  cases full

end EMS
