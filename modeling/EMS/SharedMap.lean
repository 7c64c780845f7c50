import EMS.MapKeys
import EMS.KeyMap

/-!
# The map of keys among many processes

The slots of the map while any number of processes look keys up and insert
them.  A slot that is bound to a key stays bound to it, whoever makes its tag
busy and whoever stores it as full.  A slot that is free is only changed by the
process that has made its tag busy, and a block of the heap only by the process
that it was handed out to.
-/

namespace EMS

open SharedProgram Interleaving OpenAddressing

/-- Who a block of the heap belongs to: a process that fills it, or the entry
whose word is its address. -/
inductive BlockOwner (ι : Type) where
  | process (p : ι)
  | entry (cell : Cell)

/-- The keys that slots are bound to, who holds a slot that is free, and the
blocks of the heap with their owners. -/
structure MapGhost (ι : Type) where
  table : Table MapKey
  holder : Nat → Option ι
  live : List Block
  owner : Block → Option (BlockOwner ι)

/-- The entry of a slot of the map. -/
abbrev slotCell (array : EmsArray) (i : Nat) : Cell := EMSmapCell array.nElem i

section Moves

variable {ι : Type}

/-! ## The invariant -/

/-- A slot that is bound spells its key.  A slot that is free is busy when it is
held, and full when it is not. -/
def MapSlotInv (array : EmsArray) (ghost : MapGhost ι) (buf : EmsBuf)
    (i : Nat) : Prop :=
  match ghost.table i, ghost.holder i with
  | some k, _ => (buf.tag (slotCell array i)).type = k.value.type ∧
      ∃ blocks, WordHolds (buf.word (slotCell array i)) buf.heap
        k.value blocks ∧
        ∀ block ∈ blocks, ghost.owner block = some (.entry (slotCell array i))
  | none, some _ => (buf.tag (slotCell array i)).fe = .busy
  | none, none => (buf.tag (slotCell array i)).fe = .full ∧
      (buf.tag (slotCell array i)).type = .undefined

structure MapInv (array : EmsArray) (level : Nat) (ghost : MapGhost ι)
    (buf : EmsBuf) : Prop where
  sound : Sound array.nElem.toNat MAX_OPEN_HASH_STEPS
    MapKey.startSlot ghost.table
  slots : ∀ i : Nat, (i : Int) < array.nElem → MapSlotInv array ghost buf i
  heap : ∃ tree, HeapShape level ⟨buf.mem, ghost.live⟩ tree
  owned : ∀ block owner, ghost.owner block = some owner → block ∈ ghost.live

/-! ## Moves -/

/-- What a process does to the map and to the blocks that it fills. -/
inductive MapMove (array : EmsArray) (level : Nat) (p : ι) :
    MapGhost ι × EmsBuf → MapGhost ι × EmsBuf → Prop where
  | quiet {ghost : MapGhost ι} {buf : EmsBuf} (fe : FE) :
      MapMove array level p (ghost, buf) (ghost, { buf with memMutex := fe })
  | touch {ghost : MapGhost ι} {buf : EmsBuf} {i : Nat} {k : MapKey}
      (tag : Tag) :
      (i : Int) < array.nElem → ghost.table i = some k →
      tag.type = k.value.type →
      tag.fe = .full ∨ tag.fe = .busy →
      MapMove array level p (ghost, buf)
        (ghost, buf.setTag (slotCell array i) tag)
  | hold {ghost : MapGhost ι} {buf : EmsBuf} {i : Nat} (tag : Tag) :
      (i : Int) < array.nElem → ghost.table i = none → ghost.holder i = none →
      tag.fe = .busy →
      MapMove array level p (ghost, buf)
        ({ ghost with holder := Function.update ghost.holder i (some p) },
          buf.setTag (slotCell array i) tag)
  | mark {ghost : MapGhost ι} {buf : EmsBuf} {i : Nat} (tag : Tag) :
      (i : Int) < array.nElem → ghost.table i = none → ghost.holder i = some p →
      tag.fe = .busy →
      MapMove array level p (ghost, buf)
        (ghost, buf.setTag (slotCell array i) tag)
  | put {ghost : MapGhost ι} {buf : EmsBuf} {i : Nat} (word : Int) :
      (i : Int) < array.nElem → ghost.table i = none → ghost.holder i = some p →
      MapMove array level p (ghost, buf)
        (ghost, buf.setWord (slotCell array i) word)
  | release {ghost : MapGhost ι} {buf : EmsBuf} {i : Nat} (tag : Tag) :
      (i : Int) < array.nElem → ghost.table i = none → ghost.holder i = some p →
      tag.fe = .full →
      tag.type = .undefined →
      MapMove array level p (ghost, buf)
        ({ ghost with holder := Function.update ghost.holder i none },
          buf.setTag (slotCell array i) tag)
  | alloc {ghost : MapGhost ι} {buf : EmsBuf} {mem : EmsMem} (block : Block) :
      (∃ tree, HeapShape level ⟨mem, block :: ghost.live⟩ tree) →
      MapMove array level p (ghost, buf)
        ({ ghost with
            live := block :: ghost.live
            owner := Function.update ghost.owner block (some (.process p)) },
          buf.setMem mem)
  | write {ghost : MapGhost ι} {buf : EmsBuf} {block : Block} (a : Int)
      (byte : UInt8) :
      ghost.owner block = some (.process p) → block.address ≤ a →
        a < block.address + block.length →
      MapMove array level p (ghost, buf)
        (ghost, buf.setHeap (Function.update buf.heap a byte))
  | bind {ghost : MapGhost ι} {buf : EmsBuf} {i : Nat} {k : MapKey}
      (word : Int) :
      (i : Int) < array.nElem → ghost.holder i = some p →
      mapSearch array ghost.table k = .free i →
      (buf.tag (slotCell array i)).type = k.value.type →
      WordHolds word buf.heap k.value [] →
      MapMove array level p (ghost, buf)
        ({ ghost with table := Function.update ghost.table i (some k) },
          buf.setWord (slotCell array i) word)
  | bindText {ghost : MapGhost ι} {buf : EmsBuf} {i : Nat} {k : MapKey}
      {block : Block} (a : Int)
      (byte : UInt8) :
      (i : Int) < array.nElem → ghost.holder i = some p →
      mapSearch array ghost.table k = .free i →
      (buf.tag (slotCell array i)).type = k.value.type →
      ghost.owner block = some (.process p) → block.address ≤ a →
        a < block.address + block.length →
      WordHolds (buf.word (slotCell array i)) (Function.update buf.heap a byte)
        k.value [block] →
      MapMove array level p (ghost, buf)
        ({ ghost with
            table := Function.update ghost.table i (some k)
            owner :=
              Function.update ghost.owner block
                (some (.entry (slotCell array i))) },
          buf.setHeap (Function.update buf.heap a byte))

variable {array : EmsArray} {level : Nat} {p q : ι} {ghost ghost' : MapGhost ι}
  {buf buf' : EmsBuf} {i : Nat}

theorem MapSlotInv.bound {k : MapKey} (inv : MapSlotInv array ghost buf i)
    (bound : ghost.table i = some k) :
    (buf.tag (slotCell array i)).type = k.value.type ∧
      ∃ blocks, WordHolds (buf.word (slotCell array i)) buf.heap
        k.value blocks ∧
        ∀ block ∈ blocks, ghost.owner block =
          some (.entry (slotCell array i)) := by
  simpa only [MapSlotInv, bound] using inv

theorem MapSlotInv.held (inv : MapSlotInv array ghost buf i)
    (free : ghost.table i = none)
    (held : ghost.holder i = some p) :
    (buf.tag (slotCell array i)).fe = .busy := by
  simpa only [MapSlotInv, free, held] using inv

theorem MapSlotInv.unheld (inv : MapSlotInv array ghost buf i)
    (free : ghost.table i = none)
    (unheld : ghost.holder i = none) :
    (buf.tag (slotCell array i)).fe = .full ∧
      (buf.tag (slotCell array i)).type = .undefined := by
  simpa only [MapSlotInv, free, unheld] using inv

/-- A slot that nobody changes. -/
theorem MapSlotInv.congr (inv : MapSlotInv array ghost buf i)
    (table : ghost'.table i = ghost.table i)
    (holder : ghost'.holder i = ghost.holder i)
    (tag : buf'.tag (slotCell array i) = buf.tag (slotCell array i))
    (word : buf'.word (slotCell array i) = buf.word (slotCell array i))
    (blocks : ∀ block, ghost.owner block = some (.entry (slotCell array i)) →
      ghost'.owner block = some (.entry (slotCell array i)) ∧
        block.Same buf.heap buf'.heap) :
    MapSlotInv array ghost' buf' i := by
  cases bound : ghost.table i with
  | some k =>
      obtain ⟨type, held, holds, owned⟩ := inv.bound bound
      simp only [MapSlotInv, table, bound, tag, word]
      refine ⟨type, held,
        holds.same fun block member => (blocks block (owned block member)).2,
        ?_⟩
      exact fun block member => (blocks block (owned block member)).1
  | none =>
      cases held : ghost.holder i with
      | none =>
          simpa only [MapSlotInv, table, holder, bound, held, tag] using inv
      | some p =>
          simpa only [MapSlotInv, table, holder, bound, held, tag] using inv

theorem MapSlotInv.touched {k : MapKey} (inv : MapSlotInv array ghost buf i)
    (bound : ghost.table i = some k) {tag : Tag}
    (type : tag.type = k.value.type) :
    MapSlotInv array ghost (buf.setTag (slotCell array i) tag) i := by
  have here := inv.bound bound
  simp only [MapSlotInv, bound, EmsBuf.setTag_tag, EmsBuf.setTag_word,
    EmsBuf.setTag_heap,
    Function.update_self]
  exact ⟨type, here.2⟩

/-! ## What the moves keep -/

theorem MapInv.apart (inv : MapInv array level ghost buf) {block block' : Block}
    {owner owner' : BlockOwner ι} (owned : ghost.owner block = some owner)
    (owned' : ghost.owner block' = some owner') (different : owner ≠ owner') :
    block.Apart block' := by
  obtain ⟨tree, shape⟩ := inv.heap
  apply shape.apart_of_ne (inv.owned block owner owned)
    (inv.owned block' owner' owned')
  intro same
  subst same
  exact different (Option.some.inj (owned.symm.trans owned'))

theorem same_of_apart {block other : Block} {heap : Int → UInt8} {a : Int}
    {byte : UInt8}
    (apart : other.Apart block) (lower : block.address ≤ a)
    (upper : a < block.address + block.length) :
    other.Same heap (Function.update heap a byte) := by
  intro b low high
  apply Function.update_of_ne
  unfold Block.Apart at apart
  omega

theorem MapInv.unowned (inv : MapInv array level ghost buf) {block : Block}
    {mem : EmsMem}
    (shape : ∃ tree, HeapShape level ⟨mem, block :: ghost.live⟩ tree) :
    ghost.owner block = none := by
  by_contra owned
  obtain ⟨owner, owned⟩ := Option.ne_none_iff_exists'.mp owned
  obtain ⟨tree, shape⟩ := shape
  have apart :=
    List.rel_of_pairwise_cons shape.apart (inv.owned block owner owned)
  have longEnough : 0 < block.length := by
    simp [Block.length, EMS_MEM_BLOCKSZ]
  unfold Block.Apart at apart
  omega

theorem MapMove.keeps {state next : MapGhost ι × EmsBuf}
    (inv : MapInv array level state.1 state.2)
    (move : MapMove array level p state next) :
    MapInv array level next.1 next.2 := by
  cases move with
  | quiet fe => exact ⟨inv.sound, inv.slots, inv.heap, inv.owned⟩
  | @touch ghost buf i k tag below bound type fe =>
      refine ⟨inv.sound, ?_, inv.heap, inv.owned⟩
      intro j inside
      by_cases same : j = i
      · subst same
        exact (inv.slots j inside).touched bound type
      · exact (inv.slots j inside).congr rfl rfl (by simp [same]) rfl
          fun block owned => ⟨owned, fun _ _ _ => rfl⟩
  | @hold ghost buf i tag below free unheld busy =>
      refine ⟨inv.sound, ?_, inv.heap, inv.owned⟩
      intro j inside
      by_cases same : j = i
      · subst same
        simpa [MapSlotInv, free] using busy
      · exact (inv.slots j inside).congr rfl (by simp [same])
          (by simp [same]) rfl
          fun block owned => ⟨owned, fun _ _ _ => rfl⟩
  | @mark ghost buf i tag below free held busy =>
      refine ⟨inv.sound, ?_, inv.heap, inv.owned⟩
      intro j inside
      by_cases same : j = i
      · subst same
        simpa [MapSlotInv, free, held] using busy
      · exact (inv.slots j inside).congr rfl rfl (by simp [same]) rfl
          fun block owned => ⟨owned, fun _ _ _ => rfl⟩
  | @put ghost buf i word below free held =>
      refine ⟨inv.sound, ?_, inv.heap, inv.owned⟩
      intro j inside
      by_cases same : j = i
      · subst same
        simpa [MapSlotInv, free, held] using (inv.slots j inside).held free held
      · exact (inv.slots j inside).congr rfl rfl rfl (by simp [same])
          fun block owned => ⟨owned, fun _ _ _ => rfl⟩
  | @release ghost buf i tag below free held full type =>
      refine ⟨inv.sound, ?_, inv.heap, inv.owned⟩
      intro j inside
      by_cases same : j = i
      · subst same
        simpa [MapSlotInv, free] using ⟨full, type⟩
      · exact (inv.slots j inside).congr rfl (by simp [same])
          (by simp [same]) rfl
          fun block owned => ⟨owned, fun _ _ _ => rfl⟩
  | @alloc ghost buf mem block shape =>
      have fresh := inv.unowned shape
      refine ⟨inv.sound, ?_, shape, ?_⟩
      · intro j inside
        refine (inv.slots j inside).congr rfl rfl rfl rfl fun other owned => ?_
        have different : other ≠ block := by
          rintro rfl
          rw [fresh] at owned
          cases owned
        exact ⟨by simpa [different] using owned, fun _ _ _ => rfl⟩
      · intro other owner owned
        by_cases same : other = block
        · subst same
          exact List.mem_cons_self
        · simp only [Function.update_of_ne same] at owned
          exact List.mem_cons_of_mem _ (inv.owned other owner owned)
  | @write ghost buf block a byte owned lower upper =>
      refine ⟨inv.sound, ?_, inv.heap, inv.owned⟩
      intro j inside
      refine (inv.slots j inside).congr rfl rfl rfl rfl fun other
        entry => ⟨entry, ?_⟩
      exact same_of_apart (inv.apart entry owned nofun) lower upper
  | @bind ghost buf i k word below held search type holds =>
      have free := search_free search
      refine ⟨inv.sound.insert search, ?_, inv.heap, inv.owned⟩
      intro j inside
      by_cases same : j = i
      · subst same
        simp only [MapSlotInv, Function.update_self, EmsBuf.setWord_tag,
          EmsBuf.setWord_word,
          EmsBuf.setWord_heap]
        exact ⟨type, [], holds, by simp⟩
      · exact (inv.slots j inside).congr (by simp [same]) rfl rfl
          (by simp [same])
          fun block owned => ⟨owned, fun _ _ _ => rfl⟩
  | @bindText ghost buf i k block a byte below held search type owned lower
        upper holds =>
      have free := search_free search
      refine ⟨inv.sound.insert search, ?_, inv.heap, ?_⟩
      · intro j inside
        by_cases same : j = i
        · subst same
          simp only [MapSlotInv, Function.update_self, EmsBuf.setHeap_tag,
            EmsBuf.setHeap_word,
            EmsBuf.setHeap_heap]
          exact ⟨type, [block], holds, by simp⟩
        · refine (inv.slots j inside).congr (by simp [same]) rfl rfl rfl
            fun other entry => ?_
          have different : other ≠ block := by
            rintro rfl
            rw [owned] at entry
            cases entry
          refine ⟨by simpa [different] using entry, ?_⟩
          exact same_of_apart (inv.apart entry owned nofun) lower upper
      · intro other owner owned'
        by_cases same : other = block
        · subst same
          exact inv.owned other _ owned
        · simp only [Function.update_of_ne same] at owned'
          exact inv.owned other owner owned'

/-- What the others leave alone for a process. -/
structure Undisturbed (array : EmsArray) (p : ι)
    (before after : MapGhost ι × EmsBuf) : Prop where
  grows : Extends before.1.table after.1.table
  bound : ∀ (i : Nat) (k : MapKey), (i : Int) < array.nElem →
    before.1.table i = some k →
    after.2.word (slotCell array i) = before.2.word (slotCell array i)
  held : ∀ i : Nat, (i : Int) < array.nElem → before.1.table i = none →
    before.1.holder i = some p → after.1.table i = none ∧
      after.1.holder i = some p ∧
      after.2.tag (slotCell array i) = before.2.tag (slotCell array i) ∧
      after.2.word (slotCell array i) = before.2.word (slotCell array i)
  blocks : ∀ block, before.1.owner block = some (.process p) →
    after.1.owner block = some (.process p) ∧
      block.Same before.2.heap after.2.heap

theorem Undisturbed.refl (fe : FE) :
    Undisturbed array p (ghost, buf) (ghost, { buf with memMutex := fe }) :=
  ⟨fun _ _ bound => bound, fun _ _ _ _ => rfl,
    fun _ _ free held => ⟨free, held, rfl, rfl⟩,
    fun _ owned => ⟨owned, fun _ _ _ => rfl⟩⟩

/-- One process does not disturb another. -/
theorem MapMove.undisturbed {state next : MapGhost ι × EmsBuf}
    (different : q ≠ p)
    (inv : MapInv array level state.1 state.2)
    (move : MapMove array level q state next) :
    Undisturbed array p state next := by
  have notMine : ∀ {ghost : MapGhost ι} {i j : Nat}, ghost.holder i = some q →
      ghost.holder j = some p → j ≠ i := by
    rintro ghost i j theirs mine rfl
    exact different (Option.some.inj (theirs.symm.trans mine))
  have notOurs : (BlockOwner.process p : BlockOwner ι) ≠ .process q := by
    intro same
    exact different (BlockOwner.process.inj same).symm
  cases move with
  | quiet fe => exact .refl fe
  | @touch ghost buf i k tag below bound type fe =>
      refine ⟨fun _ _ bound => bound, fun _ _ _ _ => rfl, ?_,
        fun _ owned => ⟨owned, fun _ _ _ => rfl⟩⟩
      intro j inside free held
      have other : j ≠ i := by
        rintro rfl
        rw [free] at bound
        cases bound
      exact ⟨free, held, by simp [other], rfl⟩
  | @hold ghost buf i tag below free unheld busy =>
      refine ⟨fun _ _ bound => bound, fun _ _ _ _ => rfl, ?_,
        fun _ owned => ⟨owned, fun _ _ _ => rfl⟩⟩
      intro j inside freeHere held
      have other : j ≠ i := by
        rintro rfl
        rw [unheld] at held
        cases held
      exact ⟨freeHere, by simpa [other] using held, by simp [other], rfl⟩
  | @mark ghost buf i tag below free theirs busy =>
      refine ⟨fun _ _ bound => bound, fun _ _ _ _ => rfl, ?_,
        fun _ owned => ⟨owned, fun _ _ _ => rfl⟩⟩
      intro j inside freeHere held
      have other := notMine theirs held
      exact ⟨freeHere, held, by simp [other], rfl⟩
  | @put ghost buf i word below free theirs =>
      refine ⟨fun _ _ bound => bound, ?_, ?_,
        fun _ owned => ⟨owned, fun _ _ _ => rfl⟩⟩
      · intro j k inside bound
        have other : j ≠ i := by
          rintro rfl
          rw [free] at bound
          cases bound
        simp [other]
      · intro j inside freeHere held
        have other := notMine theirs held
        exact ⟨freeHere, held, rfl, by simp [other]⟩
  | @release ghost buf i tag below free theirs full type =>
      refine ⟨fun _ _ bound => bound, fun _ _ _ _ => rfl, ?_,
        fun _ owned => ⟨owned, fun _ _ _ => rfl⟩⟩
      intro j inside freeHere held
      have other := notMine theirs held
      exact ⟨freeHere, by simpa [other] using held, by simp [other], rfl⟩
  | @alloc ghost buf mem block shape =>
      refine ⟨fun _ _ bound => bound, fun _ _ _ _ => rfl,
        fun _ _ free held => ⟨free, held, rfl, rfl⟩, ?_⟩
      intro other owned
      have newBlock : other ≠ block := by
        rintro rfl
        rw [inv.unowned shape] at owned
        cases owned
      exact ⟨by simpa [newBlock] using owned, fun _ _ _ => rfl⟩
  | @write ghost buf block a byte theirs lower upper =>
      refine ⟨fun _ _ bound => bound, fun _ _ _ _ => rfl,
        fun _ _ free held => ⟨free, held, rfl, rfl⟩, ?_⟩
      intro other owned
      exact ⟨owned, same_of_apart (inv.apart owned theirs notOurs) lower upper⟩
  | @bind ghost buf i k word below theirs search type holds =>
      have free := search_free search
      refine ⟨extends_insert free, ?_, ?_,
        fun _ owned => ⟨owned, fun _ _ _ => rfl⟩⟩
      · intro j k inside bound
        have other : j ≠ i := by
          rintro rfl
          rw [free] at bound
          cases bound
        simp [other]
      · intro j inside freeHere held
        have other := notMine theirs held
        exact ⟨by simpa [other] using freeHere, held, rfl, by simp [other]⟩
  | @bindText ghost buf i k block a byte below theirs search type owned lower
        upper holds =>
      have free := search_free search
      refine ⟨extends_insert free, fun _ _ _ _ => rfl, ?_, ?_⟩
      · intro j inside freeHere held
        have other := notMine theirs held
        exact ⟨by simpa [other] using freeHere, held, rfl, rfl⟩
      · intro other mine
        have newBlock : other ≠ block := by
          rintro rfl
          rw [owned] at mine
          exact different (BlockOwner.process.inj (Option.some.inj mine))
        refine ⟨by simpa [newBlock] using mine, ?_⟩
        exact same_of_apart (inv.apart mine owned notOurs) lower upper

end Moves

end EMS
