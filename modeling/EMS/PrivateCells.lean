import EMS.ConcurrentMap

/-!
# Cells that belong to one process each

Processes that work on entries of their own, and take blocks for them from the
common heap.  Who has been given a block for an entry of his writes into it, and
nobody else does.  The allocator is entered under its mutex.  So each process
works on what it owns as if it were alone, and what it knows of it stays true.
-/

namespace EMS

open SharedProgram Interleaving Protocol

/-- The blocks that are out, each with the entry that it is for, and who holds
the mutex of the allocator. -/
structure PrivateGhost (ι : Type) where
  live : List (Cell × Block)
  holder : Option ι

/-- The blocks that are for an entry. -/
def blocksAt (live : List (Cell × Block)) (cell : Cell) : List Block :=
  (live.filter (·.1 = cell)).map (·.2)

@[simp] theorem blocksAt_nil (cell : Cell) : blocksAt [] cell = [] := rfl

theorem blocksAt_cons (cell other : Cell) (block : Block)
    (live : List (Cell × Block)) :
    blocksAt ((cell, block) :: live) other =
      if cell = other then block :: blocksAt live other
        else blocksAt live other := by
  unfold blocksAt
  by_cases same : cell = other
  · simp [same]
  · simp [same]

theorem mem_blocksAt {live : List (Cell × Block)} {cell : Cell}
    {block : Block} :
    block ∈ blocksAt live cell ↔ (cell, block) ∈ live := by
  simp [blocksAt]

def PrivateGhost.blocks {ι : Type} (ghost : PrivateGhost ι) : List Block :=
  ghost.live.map (·.2)

section Private

variable {ι : Type} (owns : ι → Cell → Prop)

/-- No entry belongs to two processes. -/
def OneOwner : Prop := ∀ p q cell, owns p cell → owns q cell → p = q

/-! ## The protocol -/

structure PrivateInv (level : Nat)
    (state : PrivateGhost ι × EmsBuf) : Prop where
  shape : ∃ tree, HeapShape level ⟨state.2.mem, state.1.blocks⟩ tree
  mutex : state.2.memMutex = .empty ↔ state.1.holder = none
  owned : ∀ entry ∈ state.1.live, ∃ p, owns p entry.1

/-- What a process does to its entries, to the blocks that are for them, and to
the allocator. -/
inductive PrivateMove (level : Nat) (p : ι) :
    PrivateGhost ι × EmsBuf → PrivateGhost ι × EmsBuf → Prop where
  | stay {state : PrivateGhost ι × EmsBuf} : PrivateMove level p state state
  | lock {ghost : PrivateGhost ι} {buf : EmsBuf} : ghost.holder = none →
      PrivateMove level p (ghost, buf)
        ({ ghost with holder := some p }, { buf with memMutex := .full })
  | unlock {ghost : PrivateGhost ι} {buf : EmsBuf} : ghost.holder = some p →
      PrivateMove level p (ghost, buf)
        ({ ghost with holder := none }, { buf with memMutex := .empty })
  | word {ghost : PrivateGhost ι} {buf : EmsBuf} {cell : Cell} (word : Int) :
      owns p cell →
      PrivateMove level p (ghost, buf) (ghost, buf.setWord cell word)
  | tag {ghost : PrivateGhost ι} {buf : EmsBuf} {cell : Cell} (tag : Tag) :
      owns p cell →
      PrivateMove level p (ghost, buf) (ghost, buf.setTag cell tag)
  | byte {ghost : PrivateGhost ι} {buf : EmsBuf} {cell : Cell}
      {block : Block} (a : Int)
      (byte : UInt8) : owns p cell → (cell, block) ∈ ghost.live →
      block.address ≤ a →
      a < block.address + block.length →
      PrivateMove level p (ghost, buf)
        (ghost, buf.setHeap (Function.update buf.heap a byte))
  | alloc {ghost : PrivateGhost ι} {buf : EmsBuf} {cell : Cell} (block : Block)
      (mem : EmsMem) :
      owns p cell → ghost.holder = some p →
      (∃ tree, HeapShape level ⟨mem, block :: ghost.blocks⟩ tree) →
      PrivateMove level p (ghost, buf)
        ({ ghost with live := (cell, block) :: ghost.live }, buf.setMem mem)

theorem PrivateMove.keeps {level : Nat} {p : ι}
    {state next : PrivateGhost ι × EmsBuf}
    (inv : PrivateInv owns level state)
    (move : PrivateMove owns level p state next) :
    PrivateInv owns level next := by
  obtain ⟨shape, mutex, owned⟩ := inv
  cases move with
  | stay | word | tag | byte => exact ⟨shape, mutex, owned⟩
  | lock free => exact ⟨shape, by simp, owned⟩
  | unlock held => exact ⟨shape, by simp, owned⟩
  | alloc block mem mine held shape' =>
      refine ⟨shape', mutex, ?_⟩
      intro entry member
      rcases List.mem_cons.mp member with rfl | member
      · exact ⟨p, mine⟩
      · exact owned entry member

/-- Processes that do nothing but this. -/
def privateProtocol (level : Nat) :
    Protocol ι EmsBuf Access Reply Unit Unit (PrivateGhost ι) where
  move p _ := PrivateMove owns level p
  inv := PrivateInv owns level
  keeps inv move := move.keeps owns inv

/-- The memory on which they do it.  The allocator refuses nothing. -/
def privateMachine (ι : Type) : Machine ι EmsBuf Access Reply Unit Unit where
  perform _ := Access.perform
  code _ _ _ := .spin
  admits _ _ _ := False
  permits _ act buf := act.Served ⟨buf, [], false⟩

instance privateMachine.decidablePermits (p : ι) (act : Access) (buf : EmsBuf) :
    Decidable ((privateMachine ι).permits p act buf) :=
  inferInstanceAs (Decidable (act.Served ⟨buf, [], false⟩))

/-! ## What a process knows -/

/-- The entries of the process are as it knows them, with the blocks that are
for them. -/
structure Knows (p : ι) (own : Cell → List Block) (known : EmsBuf)
    (state : PrivateGhost ι × EmsBuf) : Prop where
  blocks : ∀ cell, owns p cell → blocksAt state.1.live cell = own cell
  tag : ∀ cell, owns p cell → state.2.tag cell = known.tag cell
  word : ∀ cell, owns p cell → state.2.word cell = known.word cell
  bytes : ∀ cell, owns p cell → ∀ block ∈ own cell,
    block.Same known.heap state.2.heap

/-- The process knows its entries, and whether it holds the mutex. -/
def Works (locked : Bool) (p : ι) (own : Cell → List Block) (known : EmsBuf)
    (state : PrivateGhost ι × EmsBuf) : Prop :=
  Knows owns p own known state ∧ (state.1.holder = some p ↔ locked = true)

variable {owns} {level : Nat} {locked : Bool} {p q : ι}
  {own : Cell → List Block} {known : EmsBuf}
  {state next : PrivateGhost ι × EmsBuf}

theorem PrivateInv.apart (inv : PrivateInv owns level state) {cell cell' : Cell}
    {block block' : Block} (member : (cell, block) ∈ state.1.live)
    (member' : (cell', block') ∈ state.1.live) (different : cell ≠ cell') :
    block.Apart block' := by
  obtain ⟨tree, shape⟩ := inv.shape
  have apart : state.1.live.Pairwise fun entry entry' =>
      entry.2.Apart entry'.2 :=
    List.pairwise_map.mp shape.apart
  have symmetric : Std.Symm fun entry entry' : Cell × Block =>
      entry.2.Apart entry'.2 :=
    ⟨fun _ _ either => either.symm⟩
  exact apart.forall member member' fun same =>
    different (congrArg Prod.fst same)

/-- A process that makes a move on an entry of its own leaves the others'
alone. -/
theorem Knows.other (apart : OneOwner owns) (different : q ≠ p)
    (inv : PrivateInv owns level state)
    (knows : Knows owns p own known state)
    (move : PrivateMove owns level q state next) :
    Knows owns p own known next := by
  have notMine : ∀ {cell other : Cell}, owns q cell → owns p other →
      other ≠ cell := by
    rintro cell other theirs mine rfl
    exact different (apart q p _ theirs mine)
  obtain ⟨blocks, tag, word, bytes⟩ := knows
  cases move with
  | stay | lock | unlock => exact ⟨blocks, tag, word, bytes⟩
  | word new theirs =>
      refine ⟨blocks, tag, ?_, bytes⟩
      intro other mine
      simpa [notMine theirs mine] using word other mine
  | tag new theirs =>
      refine ⟨blocks, ?_, word, bytes⟩
      intro other mine
      simpa [notMine theirs mine] using tag other mine
  | byte a new theirs member lower upper =>
      refine ⟨blocks, tag, word, ?_⟩
      intro other mine block inOwn b low high
      have member' := mem_blocksAt.mp ((blocks other mine).symm ▸ inOwn)
      have separate := inv.apart member' member (notMine theirs mine)
      exact (same_of_apart separate lower upper b low high).trans
        (bytes other mine block inOwn b low high)
  | alloc block mem theirs held shape =>
      refine ⟨?_, tag, word, bytes⟩
      intro other mine
      rw [blocksAt_cons, if_neg (notMine theirs mine).symm]
      exact blocks other mine

theorem PrivateMove.holder (different : q ≠ p)
    (move : PrivateMove owns level q state next) :
    next.1.holder = some p ↔ state.1.holder = some p := by
  cases move with
  | lock free => simp [free, different]
  | unlock held => simp [held, different]
  | stay | word | tag | byte | alloc => rfl

theorem works_stable (apart : OneOwner owns) :
    (privateProtocol owns level).Stable p (Works owns locked p own known) := by
  intro q label state next different inv holds move
  exact ⟨holds.1.other apart different inv move,
    (move.holder different).trans holds.2⟩

/-! ## Working alone -/

variable (owns p own) in
/-- An access to an entry of the process, or to a block that is for one. -/
def Access.IsPrivate : Access → Prop
  | .load cell | .store cell _ | .loadTag cell | .storeTag cell _ => owns p cell
  | .storeByte a _ => ∃ cell, owns p cell ∧
      ∃ block ∈ own cell, block.address ≤ a ∧ a < block.address + block.length
  | _ => False

variable (owns p own) in
/-- A process alone on its entries. -/
abbrev privateSolo : Solo EmsBuf Access Reply :=
  emsSolo (fun _ _ => True) (Access.IsPrivate owns p own) True

private theorem update_same {block : Block} {heap heap' : Int → UInt8}
    (same : block.Same heap heap')
    (a : Int) (byte : UInt8) :
    block.Same (Function.update heap a byte)
      (Function.update heap' a byte) := by
  intro b lower upper
  by_cases here : b = a
  · simp [here]
  · simpa [here] using same b lower upper

/-- An access to what a process owns is a move, and answers as the process
expects. -/
theorem Knows.access {act : Access}
    (isPrivate : Access.IsPrivate owns p own act)
    {ghost : PrivateGhost ι} {buf : EmsBuf}
    (knows : Knows owns p own known (ghost, buf)) :
    PrivateMove owns level p (ghost, buf) (ghost, (act.perform buf).2) ∧
      (act.perform buf).1 = (act.perform known).1 ∧
      Knows owns p own (act.perform known).2 (ghost, (act.perform buf).2) := by
  obtain ⟨blocks, tag, word, bytes⟩ := knows
  cases act with
  | load cell => exact ⟨.stay, word cell isPrivate, blocks, tag, word, bytes⟩
  | loadTag cell => exact ⟨.stay, tag cell isPrivate, blocks, tag, word, bytes⟩
  | store cell new =>
      refine ⟨.word new isPrivate, rfl, blocks, tag, ?_, bytes⟩
      intro other mine
      by_cases here : other = cell
      · simp [Access.perform, here]
      · simpa [Access.perform, here] using word other mine
  | storeTag cell new =>
      refine ⟨.tag new isPrivate, rfl, blocks, ?_, word, bytes⟩
      intro other mine
      by_cases here : other = cell
      · simp [Access.perform, here]
      · simpa [Access.perform, here] using tag other mine
  | storeByte a byte =>
      obtain ⟨cell, mine, block, inOwn, lower, upper⟩ := isPrivate
      have member := mem_blocksAt.mp ((blocks cell mine).symm ▸ inOwn)
      refine ⟨.byte a byte mine member lower upper, rfl, blocks, tag, word, ?_⟩
      intro other mine' block' inOwn'
      exact update_same (bytes other mine' block' inOwn') a byte
  | _ => exact isPrivate.elim

theorem private_triple (apart : OneOwner owns) {α β : Type} {prog : EmsProg α}
    {rest : α → EmsProg β}
    {post : β → PrivateGhost ι × EmsBuf → Prop}
    (ends : (privateSolo owns p own).Ends (fun value after =>
      (privateProtocol owns level).Triple (privateMachine ι) p
        (Works owns locked p own after)
        (rest value) post) prog known) :
    (privateProtocol owns level).Triple (privateMachine ι) p
    (Works owns locked p own known)
      (prog >>= rest) post := by
  apply Solo.triple (privateSolo owns p own) (Works owns locked p own) fun _ =>
    works_stable apart
  · intro act known ghost buf inv holds _
    refine ⟨trivial, fun allowed => ⟨ghost, ?_⟩⟩
    obtain ⟨move, sameReply, knows⟩ := holds.1.access allowed
    exact ⟨move, sameReply, knows, holds.2⟩
  · exact ends

/-! ## The allocator -/

/-- Waiting for the mutex. -/
private theorem lockMemMutex_triple (apart : OneOwner owns) {patience : Nat} :
    (privateProtocol owns level).Triple (privateMachine ι) p
    (Works owns false p own known)
      (lockMemMutex patience) fun _ => Works owns true p own known := by
  induction patience with
  | zero => exact Triple.spin
  | succ patience induction =>
      simp only [lockMemMutex, Prog.perform_bind]
      apply Triple.access (fun (acquired : Bool) state =>
        Works owns acquired p own known state)
        (works_stable apart)
      · intro ghost buf inv holds _
        by_cases free : buf.memMutex = .empty
        · have found : (privateMachine ι).perform p
              (.casMutex .empty .full) buf =
              (true, { buf with memMutex := .full }) := by
            simp [privateMachine, Access.perform, free]
          obtain ⟨blocks, tag, word, bytes⟩ := holds.1
          rw [found]
          exact ⟨{ ghost with holder := some p }, .lock (inv.mutex.mp free),
            ⟨blocks, tag, word, bytes⟩, by simp⟩
        · have lost : (privateMachine ι).perform p (.casMutex .empty .full)
              buf = (false, buf) := by
            simp [privateMachine, Access.perform, free]
          rw [lost]
          exact ⟨ghost, .stay, holds⟩
      · intro acquired
        cases acquired with
        | false => simpa using induction
        | true => exact Triple.ret (works_stable apart) fun _ _ holds => holds

variable (owns p own known) in
/-- What a process knows when a block has been handed out to it. -/
structure Gained (cell : Cell) (block : Block) (heap : Int → UInt8) : Prop where
  kept : ∀ other, owns p other → ∀ old ∈ own other, old.Same known.heap heap
  apart : ∀ other, owns p other → ∀ old ∈ own other, block.Apart old

/-- The blocks of the process with one more. -/
abbrev withBlock (own : Cell → List Block) (cell : Cell) (block : Block) :
    Cell → List Block :=
  Function.update own cell (block :: own cell)

/-- A request that is served is a move, and gives a block. -/
theorem Works.serve {ghost : PrivateGhost ι} {buf : EmsBuf}
    (inv : PrivateInv owns level (ghost, buf))
    (locks : Works owns true p own known (ghost, buf))
    {cell : Cell} (mine : owns p cell) {len : Nat} (valid : ValidRequest len)
    (serves : Serves buf.mem len) :
    ∃ (address : Nat) (mem : EmsMem),
      emsMem_alloc buf.mem len = .ok ((address : Int), mem) ∧
      PrivateMove owns level p (ghost, buf)
        ({ ghost with live := (cell, ⟨address, len⟩) :: ghost.live },
          buf.setMem mem) ∧
      Gained owns p own known cell ⟨address, len⟩ buf.heap ∧
      Works owns true p (withBlock own cell ⟨address, len⟩)
        (known.setHeap buf.heap)
        ({ ghost with live := (cell, ⟨address, len⟩) :: ghost.live },
          buf.setMem mem) := by
  obtain ⟨tree, shape⟩ := inv.shape
  obtain ⟨⟨blocks, tag, word, bytes⟩, held⟩ := locks
  obtain ⟨address, mem, tree', success, shape'⟩ := shape.serve valid serves
  refine ⟨address, mem, success, .alloc _ _ mine (held.mpr rfl) ⟨tree', shape'⟩,
    ⟨bytes, ?_⟩,
    ⟨⟨?_, tag, word, fun _ _ _ _ _ _ _ => rfl⟩, held⟩⟩
  · intro other mine' old inOwn
    have member := mem_blocksAt.mp ((blocks other mine').symm ▸ inOwn)
    exact List.rel_of_pairwise_cons shape'.apart (List.mem_map_of_mem member)
  · intro other mine'
    rw [blocksAt_cons]
    by_cases here : cell = other
    · subst here
      simp [blocks cell mine]
    · simp [here, Ne.symm here, blocks other mine']

/-- A request under the mutex gives the process a block for one of its
entries. -/
theorem emsMutexMem_alloc_triple (apart : OneOwner owns) {cell : Cell}
    (mine : owns p cell)
    {len : Nat} (valid : ValidRequest len) {patience : Nat} {β : Type}
    {rest : Int → EmsProg β}
    {post : β → PrivateGhost ι × EmsBuf → Prop}
    (continues : ∀ (address : Nat) (heap : Int → UInt8),
      Gained owns p own known cell ⟨address, len⟩ heap →
      (privateProtocol owns level).Triple (privateMachine ι) p
        (Works owns false p (withBlock own cell ⟨address, len⟩)
          (known.setHeap heap))
        (rest address) post) :
    (privateProtocol owns level).Triple (privateMachine ι) p
    (Works owns false p own known)
      (emsMutexMem_alloc patience len >>= rest) post := by
  rw [emsMutexMem_alloc, bind_assoc]
  apply Triple.bind (lockMemMutex_triple apart)
  intro _
  simp only [Prog.perform_bind, Prog.access_bind]
  apply Triple.access (fun (reply : Except AllocFault Int) state =>
    ∃ (address : Nat) (heap : Int → UInt8), (reply = .ok (address : Int) ∧
      Gained owns p own known cell ⟨address, len⟩ heap) ∧
      Works owns true p (withBlock own cell ⟨address, len⟩)
        (known.setHeap heap) state)
    (works_stable apart)
  · intro ghost buf inv locks served
    obtain ⟨address, mem, success, move, gained, locks'⟩ :=
      locks.serve inv mine valid served
    have answer : (privateMachine ι).perform p (.memAlloc len) buf =
        (.ok (address : Int), buf.setMem mem) := by
      simp only [privateMachine, Access.perform, success]
      rfl
    rw [answer]
    exact ⟨_, move, address, buf.heap, ⟨rfl, gained⟩, locks'⟩
  · intro reply
    refine Triple.of_exists fun address => Triple.of_exists fun heap =>
      Triple.of_imp ?_
    rintro ⟨rfl, gained⟩
    simp only [Prog.access_bind]
    apply Triple.access (fun _ =>
      Works owns false p (withBlock own cell ⟨address, len⟩)
        (known.setHeap heap)) (works_stable apart)
    · intro ghost buf inv locks _
      obtain ⟨⟨blocks, tag, word, bytes⟩, held⟩ := locks
      exact ⟨{ ghost with holder := none }, .unlock (held.mpr rfl),
        ⟨blocks, tag, word, bytes⟩, by simp⟩
    · intro _
      exact continues address heap gained

end Private

end EMS
