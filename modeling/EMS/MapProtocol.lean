import EMS.SharedMap
import EMS.Workflow

/-!
# Looking keys up among many processes

`EMSkey2index` and `EMSwriteIndexMap` keep to the moves of the map, whatever the
other processes do within them.  An index that they return is the slot that is
bound to the key.
-/

namespace EMS

open SharedProgram Interleaving OpenAddressing Protocol

variable {ι : Type}

/-- The moves of the processes on the map. -/
def mapProtocol (array : EmsArray) (level : Nat) :
    Protocol ι EmsBuf Access Reply Unit Unit (MapGhost ι) where
  move p _ state next := MapMove array level p state next
  inv state := MapInv array level state.1 state.2
  keeps inv move := move.keeps inv

/-- The memory of an array, of which every access may be made. -/
abbrev mapMachine (ι : Type) : Machine ι EmsBuf Access Reply Unit Unit where
  perform _ := Access.perform
  code _ _ _ := .spin
  admits _ _ _ := False
  permits _ _ _ := True

theorem MapMove.grows {array : EmsArray} {level : Nat} {p : ι}
    {state next : MapGhost ι × EmsBuf}
    (move : MapMove array level p state next) :
    Extends state.1.table next.1.table := by
  cases move with
  | bind word below held search type holds =>
      exact extends_insert (search_free search)
  | bindText a byte below held search type owned lower upper holds =>
      exact extends_insert (search_free search)
  | _ => exact fun _ _ bound => bound

/-- What stays true when keys are added. -/
def Growing (assertion : MapGhost ι × EmsBuf → Prop) : Prop :=
  ∀ state next, Extends state.1.table next.1.table → assertion state →
    assertion next

abbrev MapTriple {α : Type} (array : EmsArray) (level : Nat) (p : ι)
    (pre : MapGhost ι × EmsBuf → Prop) (prog : EmsProg α)
    (post : α → MapGhost ι × EmsBuf → Prop) : Prop :=
  (mapProtocol array level).Triple (mapMachine ι) p pre prog post

section Facts

variable {array : EmsArray} {level : Nat} {p : ι} {i : Nat} {k : MapKey}

/-- The slot is bound to the key. -/
def BoundTo (i : Nat) (k : MapKey) (state : MapGhost ι × EmsBuf) : Prop :=
  state.1.table i = some k

/-- The process holds a slot that is free, with this tag and this word. -/
structure Holding (array : EmsArray) (p : ι) (i : Nat) (tag : Tag) (word : Int)
    (state : MapGhost ι × EmsBuf) : Prop where
  free : state.1.table i = none
  holder : state.1.holder i = some p
  tag : state.2.tag (slotCell array i) = tag
  word : state.2.word (slotCell array i) = word

/-- The search for the key has come to a position. -/
def OnTheWay (array : EmsArray) (k : MapKey) (steps pos : Nat)
    (state : MapGhost ι × EmsBuf) :
    Prop :=
  OnWay array.nElem.toNat MAX_OPEN_HASH_STEPS MapKey.startSlot
    state.1.table k steps pos

theorem growing_bound : Growing (BoundTo (ι := ι) i k) :=
  fun _ _ grows bound => grows i k bound

theorem growing_onTheWay {steps pos : Nat} :
    Growing (OnTheWay (ι := ι) array k steps pos) :=
  fun _ _ grows way => way.mono grows

/-- The index is the slot that is bound to the key. -/
def IndexOf (array : EmsArray) (k : MapKey) (idx : Int)
    (state : MapGhost ι × EmsBuf) : Prop :=
  ∃ i : Nat, idx = i ∧ (i : Int) < array.nElem ∧ BoundTo i k state

theorem growing_indexOf {idx : Int} :
    Growing (IndexOf (ι := ι) array k idx) := by
  rintro state next grows ⟨i, same, below, bound⟩
  exact ⟨i, same, below, grows i k bound⟩

theorem Growing.and {first second : MapGhost ι × EmsBuf → Prop}
    (grows : Growing first)
    (grows' : Growing second) : Growing fun state =>
      first state ∧ second state :=
  fun _ _ more holds => ⟨grows _ _ more holds.1, grows' _ _ more holds.2⟩

theorem Growing.of_imp {given : Prop} {assertion : MapGhost ι × EmsBuf → Prop}
    (grows : Growing assertion) : Growing fun state =>
      given → assertion state :=
  fun _ _ more holds isGiven => grows _ _ more (holds isGiven)

theorem Growing.or {first second : MapGhost ι × EmsBuf → Prop}
    (grows : Growing first)
    (grows' : Growing second) : Growing fun state =>
      first state ∨ second state :=
  fun _ _ more holds => holds.imp (grows _ _ more) (grows' _ _ more)

theorem growing_const {given : Prop} :
    Growing fun _ : MapGhost ι × EmsBuf => given :=
  fun _ _ _ holds => holds

theorem Growing.stable {assertion : MapGhost ι × EmsBuf → Prop}
    (grows : Growing assertion) :
    (mapProtocol array level).Stable p assertion :=
  fun _ _ holds move => grows _ _ (MapMove.grows move) holds

theorem stable_holding (below : (i : Int) < array.nElem) {tag : Tag}
    {word : Int} :
    (mapProtocol array level).Stable p (Holding array p i tag word) := by
  intro q label state next different inv holding move
  obtain ⟨free, holder, sameTag, sameWord⟩ :=
    (MapMove.undisturbed different inv move).held i below holding.free
      holding.holder
  exact ⟨free, holder, sameTag.trans holding.tag, sameWord.trans holding.word⟩

/-- What the process has acquired with the tag of a slot that was full. -/
def Acquired (array : EmsArray) (p : ι) (i : Nat) (tag : Tag)
    (state : MapGhost ι × EmsBuf) :
    Prop :=
  (∃ k, BoundTo i k state ∧ tag.type = k.value.type) ∨
    (tag.type = .undefined ∧ tag.fe = .busy ∧ ∃ word,
      Holding array p i tag word state)

private theorem stable_acquired (below : (i : Int) < array.nElem) {tag : Tag} :
    (mapProtocol array level).Stable p (Acquired array p i tag) := by
  intro q label state next different inv acquired move
  rcases acquired with ⟨k, bound, type⟩ | ⟨type, busy, word, holding⟩
  · exact .inl ⟨k, growing_bound _ _ (MapMove.grows move) bound, type⟩
  · exact .inr ⟨type, busy, word,
      stable_holding below different inv holding move⟩

end Facts

section Triples

variable {array : EmsArray} {level : Nat} {p : ι} {i : Nat} {k : MapKey}
  {patience : Nat}
  {known : MapGhost ι × EmsBuf → Prop}

theorem MapTriple.access {α : Type} {pre : MapGhost ι × EmsBuf → Prop}
    {act : Access}
    {rest : Reply act → EmsProg α} {post : α → MapGhost ι × EmsBuf → Prop}
    (middle : Reply act → MapGhost ι × EmsBuf → Prop)
    (stable : (mapProtocol array level).Stable p pre)
    (moves : ∀ ghost buf, MapInv array level ghost buf → pre (ghost, buf) →
      ∃ ghost', MapMove array level p (ghost, buf)
        (ghost', (act.perform buf).2) ∧
        middle (act.perform buf).1 (ghost', (act.perform buf).2))
    (continues : ∀ reply, MapTriple array level p (middle reply)
      (rest reply) post) :
    MapTriple array level p pre (does act >>= rest) post :=
  Triple.access middle stable
    (fun ghost buf inv holds _ => moves ghost buf inv holds) continues

theorem MapTriple.last {pre : MapGhost ι × EmsBuf → Prop} {act : Access}
    {post : Reply act → MapGhost ι × EmsBuf → Prop}
    (stable : (mapProtocol array level).Stable p pre)
    (kept : ∀ reply, (mapProtocol array level).Stable p (post reply))
    (moves : ∀ ghost buf, MapInv array level ghost buf → pre (ghost, buf) →
      ∃ ghost', MapMove array level p (ghost, buf)
        (ghost', (act.perform buf).2) ∧
        post (act.perform buf).1 (ghost', (act.perform buf).2)) :
    MapTriple array level p pre (does act) post :=
  Triple.access post stable
    (fun ghost buf inv holds _ => moves ghost buf inv holds)
    fun reply => Triple.ret (kept reply) fun _ _ holds => holds

theorem MapMove.load {ghost : MapGhost ι} {buf : EmsBuf} :
    MapMove array level p (ghost, buf) (ghost, buf) :=
  .quiet buf.memMutex

/-- The tag of a slot that is found full is made busy. -/
theorem MapMove.acquire {ghost : MapGhost ι} {buf : EmsBuf}
    (inv : MapInv array level ghost buf)
    (below : (i : Int) < array.nElem)
    (full : (buf.tag (slotCell array i)).fe = .full) :
    ∃ ghost', MapMove array level p (ghost, buf)
        (ghost', buf.setTag (slotCell array i)
          { buf.tag (slotCell array i) with fe := .busy }) ∧
      Acquired array p i { buf.tag (slotCell array i) with fe := .busy }
        (ghost', buf.setTag (slotCell array i)
          { buf.tag (slotCell array i) with fe := .busy }) := by
  have slot := inv.slots i below
  cases bound : ghost.table i with
  | some k =>
      have type := (slot.bound bound).1
      exact ⟨ghost, .touch _ below bound type (.inr rfl), .inl ⟨k, bound, type⟩⟩
  | none =>
      cases held : ghost.holder i with
      | some q =>
          have busy := slot.held bound held
          rw [full] at busy
          cases busy
      | none =>
          refine ⟨_, .hold _ below bound held rfl,
            .inr ⟨(slot.unheld bound held).2, rfl, ?_⟩⟩
          exact ⟨buf.word (slotCell array i), bound,
            Function.update_self _ _ _, by simp, rfl⟩

theorem transition_triple (below : (i : Int) < array.nElem)
    (grows : Growing known) :
    MapTriple array level p known
      (EMStransitionFEtag patience (slotCell array i) none .full .busy)
      fun tag state => known state ∧ Acquired array p i tag state := by
  induction patience with
  | zero => exact Triple.spin
  | succ patience induction =>
      refine MapTriple.access (fun _ => known) grows.stable ?_ fun memTag => ?_
      · exact fun ghost buf _ holds => ⟨ghost, .load, holds⟩
      refine MapTriple.access (fun (found : Tag) state => known state ∧
        (found = { memTag with fe := .full } →
          Acquired array p i { memTag with fe := .busy } state))
        grows.stable ?_ fun found => ?_
      · intro ghost buf inv holds
        by_cases same : buf.tag (slotCell array i) = { memTag with fe := .full }
        · obtain ⟨ghost', move, acquired⟩ :=
            MapMove.acquire (p := p) inv below (congrArg Tag.fe same)
          rw [same] at move acquired
          rw [perform_casTag_found same]
          exact ⟨ghost', move, grows _ _ move.grows holds, fun _ => acquired⟩
        · rw [perform_casTag_lost same]
          exact ⟨ghost, .load, holds, fun found => absurd found same⟩
      · by_cases same : found = { memTag with fe := .full }
        · simp only [same, if_true]
          have stable : (mapProtocol array level).Stable p fun state =>
              known state ∧
              Acquired array p i { memTag with fe := .busy } state :=
            Stable.and grows.stable (stable_acquired below)
          refine Triple.pre (Triple.ret stable fun _ _ holds => holds) ?_
          exact fun _ _ holds => ⟨holds.1, holds.2 trivial⟩
        · simp only [same, if_false]
          exact Triple.pre induction fun _ _ holds => holds.1

theorem storeFE_bound (below : (i : Int) < array.nElem)
    (grows : Growing known) {fe : FE}
    (fits : fe = .full ∨ fe = .busy) :
    MapTriple array level p (fun state => known state ∧ BoundTo i k state)
      (storeFE (slotCell array i) fe) fun _ state =>
        known state ∧ BoundTo i k state := by
  have grows' := grows.and (growing_bound (i := i) (k := k))
  refine MapTriple.access
    (fun (tag : Tag) state => tag.type = k.value.type ∧ known state ∧
    BoundTo i k state) grows'.stable ?_ fun tag => ?_
  · intro ghost buf inv holds
    exact ⟨ghost, .load, ((inv.slots i below).bound holds.2).1, holds⟩
  · have stable : (mapProtocol array level).Stable p fun state =>
        tag.type = k.value.type ∧ known state ∧ BoundTo i k state :=
      fun different inv holds move =>
        ⟨holds.1, grows'.stable different inv holds.2 move⟩
    refine MapTriple.last stable (fun _ => grows'.stable) ?_
    intro ghost buf inv holds
    have move : MapMove array level p (ghost, buf)
        (ghost, buf.setTag (slotCell array i) { tag with fe := fe }) :=
      .touch _ below holds.2.2 holds.1 fits
    exact ⟨ghost, move, grows' _ _ move.grows holds.2⟩

private theorem storeFE_holding (below : (i : Int) < array.nElem)
    (grows : Growing known) {tag : Tag}
    {word : Int} (free : tag.type = .undefined) :
    MapTriple array level p
      (fun state => known state ∧ Holding array p i tag word state)
      (storeFE (slotCell array i) .full) fun _ state => known state := by
  have stable : (mapProtocol array level).Stable p fun state =>
      known state ∧ Holding array p i tag word state :=
    Stable.and grows.stable (stable_holding below)
  refine MapTriple.access
    (fun (loaded : Tag) state => loaded = tag ∧ known state ∧
    Holding array p i tag word state) stable ?_ fun loaded => ?_
  · exact fun ghost buf inv holds => ⟨ghost, .load, holds.2.tag, holds⟩
  · have stable' : (mapProtocol array level).Stable p fun state =>
        loaded = tag ∧ known state ∧ Holding array p i tag word state :=
      fun different inv holds move =>
        ⟨holds.1, stable different inv holds.2 move⟩
    refine MapTriple.last stable' (fun _ => grows.stable) ?_
    rintro ghost buf inv ⟨rfl, holds, holding⟩
    have move : MapMove array level p (ghost, buf) _ :=
      .release { loaded with fe := .full } below holding.free
        holding.holder rfl free
    exact ⟨_, move, grows _ _ move.grows holds⟩

/-! ## Comparing a key with a slot -/

/-- The accesses by which a key is compared with the key of a slot. -/
def Compares (array : EmsArray) (i : Nat) (word : Int) (k : MapKey) :
    Access → Prop
  | .load cell => cell = slotCell array i
  | .loadByte a =>
      k.value.type.IsText ∧ word ≤ a ∧ a ≤ word + k.value.text.bytes.length
  | _ => False

theorem HeapHolds.agree {heap heap' : Int → UInt8} {address a : Int}
    {text : List UInt8}
    (holds : HeapHolds heap address text)
    (holds' : HeapHolds heap' address text)
    (lower : address ≤ a) (upper : a ≤ address + text.length) :
    heap' a = heap a := by
  induction text generalizing address with
  | nil =>
      have here : a = address := by simp at upper; omega
      subst here
      exact Eq.trans holds' (Eq.symm holds)
  | cons byte text induction =>
      simp only [List.length_cons] at upper
      by_cases here : a = address
      · subst here
        exact holds'.1.trans holds.1.symm
      · exact induction holds.2 holds'.2 (by omega)
          (by push_cast at upper; omega)

/-- A key is compared with that of a slot as if nobody else were there. -/
theorem compare_triple (below : (i : Int) < array.nElem) (grows : Growing known)
    {prog : EmsProg Bool} {answer : Bool}
    (yields : ∀ (buf : EmsBuf) (blocks : List Block),
      WordHolds (buf.word (slotCell array i)) buf.heap k.value blocks →
      (emsSolo (fun _ _ => True)
        (Compares array i (buf.word (slotCell array i)) k) True).Yields
        prog buf answer buf) :
    MapTriple array level p (fun state => known state ∧ BoundTo i k state) prog
      fun matched state => matched = answer ∧ known state ∧
        BoundTo i k state := by
  intro state inv holds
  obtain ⟨-, blocks, first, -⟩ := (inv.slots i below).bound holds.2
  have grows' := grows.and (growing_bound (i := i) (k := k))
  let held : EmsBuf → MapGhost ι × EmsBuf → Prop :=
    fun buf later => buf = state.2 ∧
    (known later ∧ BoundTo i k later) ∧
    later.2.word (slotCell array i) = state.2.word (slotCell array i)
  have stable : ∀ buf, (mapProtocol array level).Stable p (held buf) := by
    intro buf q label before after different inv held move
    refine ⟨held.1, grows' _ _ (MapMove.grows move) held.2.1, ?_⟩
    exact ((MapMove.undisturbed different inv move).bound i k below
      held.2.1.2).trans held.2.2
  have triple : MapTriple array level p (held state.2) (prog >>= pure)
      fun matched later => matched = answer ∧ known later ∧
          BoundTo i k later := by
    refine Solo.triple (emsSolo (fun _ _ => True)
      (Compares array i (state.2.word (slotCell array i)) k) True) held
        stable ?_ ?_
    · rintro act buf ghost memory invHere ⟨rfl, holds', sameWord⟩ -
      obtain ⟨-, others, here, -⟩ := (invHere.slots i below).bound holds'.2
      refine ⟨trivial, fun compares => ⟨ghost, ?_⟩⟩
      cases act with
      | load cell =>
          obtain rfl : cell = slotCell array i := compares
          exact ⟨.load, sameWord, rfl, holds', sameWord⟩
      | loadByte a =>
          obtain ⟨text, lower, upper⟩ := compares
          obtain ⟨block, -, address, -, string⟩ :=
            (wordHolds_text text).mp first
          obtain ⟨block', -, address', -, string'⟩ :=
            (wordHolds_text text).mp here
          rw [← address] at string
          rw [← address', show memory.word (slotCell array i) = _
            from sameWord] at string'
          exact ⟨.load, string.agree string' lower upper, rfl, holds', sameWord⟩
      | _ => exact compares.elim
    · refine (yields state.2 blocks first).mono ?_
      rintro _ _ ⟨rfl, rfl⟩
      exact Triple.ret (stable _) fun _ _ later => ⟨rfl, later.2.1⟩
  rw [bind_pure] at triple
  exact triple state inv ⟨rfl, holds, rfl⟩

/-! ## Looking a key up -/

section Lookup

variable [CRuntime] {key : EMSvalueType}

private theorem lookupMatches_triple (names : key.Names k)
    (below : (i : Int) < array.nElem)
    (grows : Growing known) {other : MapKey} {tag : Tag}
    (type : tag.type = other.value.type) :
    MapTriple array level p (fun state => known state ∧ BoundTo i other state)
      (lookupMatches array key tag i) fun matched state =>
        matched = decide (other = k) ∧ known state ∧ BoundTo i other state := by
  refine compare_triple below grows fun buf blocks holds => ?_
  have yields := @lookupMatches_yields _ (fun _ _ => True)
    (Compares array i (buf.word (slotCell array i)) other) True array buf key k
      (some other) blocks
    tag i names type holds rfl fun text a lower upper => ⟨text, lower, upper⟩
  simpa only [Option.some.injEq] using yields

private theorem lookupMatches_free (names : key.Names k) {tag : Tag}
    (free : tag.type = .undefined) :
    lookupMatches array key tag i = pure false := by
  have different : tag.type ≠ key.type := by
    rw [free, names.same.1]
    exact k.value_type_ne.symm
  rw [lookupMatches, if_neg different]

/-- What is found is the slot that is bound to the key. -/
theorem lookupProbe_triple (positive : 0 < array.nElem) (names : key.Names k)
    (grows : Growing known) {steps pos : Nat} :
    MapTriple array level p known (lookupProbe patience array key steps pos)
      fun idx state =>
        known state ∧ (idx = -1 ∨ IndexOf array k idx state) := by
  induction steps generalizing pos with
  | zero => exact Triple.ret grows.stable fun _ _ holds => ⟨holds, .inl rfl⟩
  | succ steps induction =>
      have below := slot_lt positive pos
      have absent : MapTriple array level p known (pure (-1) : EmsProg Int)
          fun idx state =>
              known state ∧ (idx = -1 ∨ IndexOf array k idx state) :=
        Triple.ret grows.stable fun _ _ holds => ⟨holds, .inl rfl⟩
      simp only [lookupProbe, tmod_slot positive]
      refine (transition_triple below grows).bind fun tag => ?_
      rintro state inv ⟨holds,
        ⟨other, bound, type⟩ | ⟨free, busy, word, holding⟩⟩
      · refine ((lookupMatches_triple names below grows type).bind
          fun matched => ?_) state inv
          ⟨holds, bound⟩
        rintro state inv ⟨rfl, both⟩
        refine ((storeFE_bound below grows (.inl rfl)).bind fun _ => ?_)
          state inv both
        have notFree : tag.type ≠ .undefined := by
          rw [type]
          exact other.value_type_ne
        by_cases same : other = k
        · subst same
          simp only [decide_true, if_true]
          refine Triple.ret (grows.and growing_bound).stable fun _ _ both =>
            ⟨both.1, .inr ?_⟩
          exact ⟨_, rfl, below, both.2⟩
        · simp only [same, decide_false, Bool.false_eq_true, if_false, notFree]
          exact Triple.pre (@induction (pos % array.nElem.toNat + 1)) fun _ _
            both => both.1
      · rw [lookupMatches_free names free]
        refine ((storeFE_holding below grows free).bind fun _ => ?_) state inv
          ⟨holds, holding⟩
        simp only [Bool.false_eq_true, if_false, free, if_true]
        exact absent

theorem EMSkey2index_triple (positive : 0 < array.nElem) (names : key.Names k)
    (grows : Growing known) :
    MapTriple array level p known (EMSkey2index patience array key true)
      fun idx state =>
      known state ∧ (0 < idx ∨ (0 ≤ idx ∧ 1 < array.nElem) →
        IndexOf array k idx state) := by
  simp only [EMSkey2index, names.keyStart, if_true]
  refine (lookupProbe_triple positive names grows).bind fun idx => ?_
  refine Triple.ret (grows.and (growing_const.or growing_indexOf)).stable ?_
  rintro state inv ⟨holds, found⟩
  refine ⟨holds, fun above => ?_⟩
  rcases found with rfl | ⟨i, rfl, below, bound⟩
  · rw [Int.neg_tmod] at above
    have nonneg : 0 ≤ (1 : Int).tmod array.nElem :=
      Int.tmod_nonneg _ (by decide)
    rcases above with above | ⟨above, many⟩
    · omega
    · rw [Int.tmod_eq_of_lt (by decide) many] at above
      contradiction
  · refine ⟨i, ?_, below, bound⟩
    exact Int.tmod_eq_of_lt (Int.natCast_nonneg i) below

end Lookup

/-! ## Inserting a key -/

section Insert

variable {key : EMSvalueType} {tag : Tag} {word : Int} {block : Block}

/-- The rest of a string is still to be written into the block, from an address
on. -/
structure Copying (array : EmsArray) (p : ι) (i : Nat) (tag : Tag)
    (block : Block)
    (text : List UInt8) (a : Int) (rest : List UInt8)
    (state : MapGhost ι × EmsBuf) : Prop
    extends Holding array p i tag block.address state where
  owned : state.1.owner block = some (.process p)
  complete : HeapHolds (writeText state.2.heap a rest) block.address text

private theorem writeText_congr {heap heap' : Int → UInt8} {a b : Int}
    {rest : List UInt8}
    (same : heap' b = heap b) :
    writeText heap' a rest b = writeText heap a rest b := by
  induction rest generalizing heap heap' a with
  | nil =>
      by_cases here : b = a
      · simp [writeText, here]
      · simpa [writeText, here] using same
  | cons byte rest induction =>
      apply induction
      by_cases here : b = a
      · simp [here]
      · simpa [here] using same

theorem stable_copying (below : (i : Int) < array.nElem)
    {text rest : List UInt8}
    (room : text.length < block.bytes) {a : Int} :
    (mapProtocol array level).Stable p
    (Copying array p i tag block text a rest) := by
  intro q label state next different inv copying move
  obtain ⟨owned, same⟩ :=
    (MapMove.undisturbed different inv move).blocks block copying.owned
  refine ⟨stable_holding below different inv copying.toHolding move, owned, ?_⟩
  refine copying.complete.in_block room fun b lower upper => ?_
  exact writeText_congr (same b lower upper)

/-- The search for the key ends at the slot unless another key is bound to
it. -/
def Heading (array : EmsArray) (k : MapKey) (i : Nat)
    (state : MapGhost ι × EmsBuf) : Prop :=
  ∀ table', Extends state.1.table table' → table' i = none →
    mapSearch array table' k = .free i

theorem growing_heading : Growing (Heading (ι := ι) array k i) :=
  fun _ _ grows heading table' grows' free =>
    heading table' (fun slot key bound =>
      grows' slot key (grows slot key bound)) free

private theorem storeType_triple (below : (i : Int) < array.nElem)
    (grows : Growing known)
    (busy : tag.fe = .busy) (type : EMSType) :
    MapTriple array level p
      (fun state => known state ∧ Holding array p i tag word state)
      (storeType (slotCell array i) type) fun _ state =>
        known state ∧ Holding array p i { tag with type := type }
          word state := by
  have stable : ∀ tag, (mapProtocol array level).Stable p fun state =>
      known state ∧ Holding array p i tag word state :=
    fun tag => Stable.and grows.stable (stable_holding below)
  refine MapTriple.access
    (fun (loaded : Tag) state => loaded = tag ∧ known state ∧
    Holding array p i tag word state) (stable tag) ?_ fun loaded => ?_
  · exact fun ghost buf _ holds => ⟨ghost, .load, holds.2.tag, holds⟩
  · have stable' : (mapProtocol array level).Stable p fun state =>
        loaded = tag ∧ known state ∧ Holding array p i tag word state :=
      fun different inv holds move =>
        ⟨holds.1, stable tag different inv holds.2 move⟩
    refine MapTriple.last stable' (fun _ => stable _) ?_
    rintro ghost buf inv ⟨rfl, holds, holding⟩
    refine ⟨ghost, .mark _ below holding.free holding.holder busy,
      grows (ghost, buf) _ (fun _ _ bound => bound) holds, holding.free,
      holding.holder, ?_,
      holding.word⟩
    exact Function.update_self _ _ _

theorem bind_triple (below : (i : Int) < array.nElem) (grows : Growing known)
    (type : tag.type = k.value.type) {word' : Int}
    (spells : ∀ heap, WordHolds word' heap k.value []) :
    MapTriple array level p
      (fun state => (known state ∧ Heading array k i state) ∧
        Holding array p i tag word state)
      (store (slotCell array i) word') fun _ state =>
        known state ∧ BoundTo i k state := by
  refine MapTriple.last
    (Stable.and (grows.and growing_heading).stable (stable_holding below))
    (fun _ => (grows.and growing_bound).stable) ?_
  rintro ghost buf inv ⟨⟨holds, heading⟩, holding⟩
  have search := heading _ (fun _ _ bound => bound) holding.free
  have move : MapMove array level p (ghost, buf)
      (_, buf.setWord (slotCell array i) word') :=
    .bind word' below holding.holder search (holding.tag ▸ type) (spells _)
  exact ⟨_, move, grows _ _ move.grows holds, Function.update_self _ _ _⟩

/-- The block that was handed out for a request, if it was not refused. -/
def Allotted (p : ι) (bytes : Nat) (address : Int)
    (state : MapGhost ι × EmsBuf) : Prop :=
  address < 0 ∨ ∃ block : Block, address = block.address ∧ block.bytes = bytes ∧
    state.1.owner block = some (.process p)

private theorem stable_allotted {bytes : Nat} {address : Int} :
    (mapProtocol array level).Stable p (Allotted (ι := ι) p bytes address) := by
  rintro q label state next different inv
    (refused | ⟨block, same, size, owned⟩) move
  · exact .inl refused
  · refine .inr ⟨block, same, size, ?_⟩
    exact ((MapMove.undisturbed different inv move).blocks block owned).1

theorem alloc_triple (below : (i : Int) < array.nElem) (grows : Growing known)
    {bytes : Nat}
    (valid : ValidRequest bytes) :
    MapTriple array level p
      (fun state => known state ∧ Holding array p i tag word state)
      (emsMutexMem_alloc patience bytes) fun address state =>
        (known state ∧ Holding array p i tag word state) ∧
          Allotted p bytes address state := by
  have stable : (mapProtocol array level).Stable p fun state =>
      known state ∧ Holding array p i tag word state :=
    Stable.and grows.stable (stable_holding below)
  have quiet : ∀ (ghost : MapGhost ι) (buf : EmsBuf) (fe : FE),
      known (ghost, buf) ∧ Holding array p i tag word (ghost, buf) →
      known (ghost, { buf with memMutex := fe }) ∧
        Holding array p i tag word (ghost, { buf with memMutex := fe }) := by
    rintro ghost buf fe ⟨holds, free, holder, sameTag, sameWord⟩
    exact ⟨grows (ghost, buf) _ (fun _ _ bound => bound) holds, free, holder,
      sameTag, sameWord⟩
  have locks : ∀ patience, MapTriple array level p
      (fun state => known state ∧ Holding array p i tag word state)
        (lockMemMutex patience)
      fun _ state => known state ∧ Holding array p i tag word state := by
    intro patience
    induction patience with
    | zero => exact Triple.spin
    | succ patience induction =>
        refine MapTriple.access
          (fun _ state => known state ∧ Holding array p i tag word state)
          stable ?_ fun acquired => ?_
        · intro ghost buf inv holds
          by_cases empty : buf.memMutex = .empty
          · simp only [Access.perform, empty, if_true]
            exact ⟨ghost, .quiet .full, quiet _ _ _ holds⟩
          · simp only [Access.perform, empty, if_false]
            exact ⟨ghost, .load, holds⟩
        · cases acquired with
          | true => exact Triple.ret stable fun _ _ holds => holds
          | false => exact induction
  simp only [emsMutexMem_alloc]
  refine (locks patience).bind fun _ => ?_
  refine MapTriple.access (fun reply state => ∃ address, reply = .ok address ∧
    (known state ∧ Holding array p i tag word state) ∧
      Allotted p bytes address state)
    stable ?_ fun reply => ?_
  · rintro ghost buf inv ⟨holds, holding⟩
    obtain ⟨tree, shape⟩ := inv.heap
    have served := shape.alloc valid
    cases taken : BuddyTree.take (orderFor bytes) level tree with
    | none =>
        simp only [taken] at served
        simp only [Access.perform, served]
        exact ⟨ghost, .load, -1, rfl, ⟨holds, holding⟩, .inl (by decide)⟩
    | some taken' =>
        simp only [taken] at served
        obtain ⟨mem, success, after⟩ := served
        simp only [Access.perform, success]
        refine ⟨_, .alloc ⟨_, bytes⟩ ⟨_, after⟩, _, rfl,
          ⟨grows (ghost, buf) _ (fun _ _ bound => bound) holds, holding.free,
            holding.holder,
            holding.tag, holding.word⟩, .inr ⟨⟨_, bytes⟩, rfl, rfl, ?_⟩⟩
        exact Function.update_self _ _ _
  · refine Triple.of_exists fun address => ?_
    cases reply with
    | error fault => exact fun state inv holds => nomatch holds.1
    | ok found =>
        have stable' : (mapProtocol array level).Stable p fun state =>
            (known state ∧ Holding array p i tag word state) ∧
                Allotted p bytes found state :=
          Stable.and stable stable_allotted
        refine Triple.pre (?_ : MapTriple array level p (fun state =>
          (known state ∧ Holding array p i tag word state) ∧
            Allotted p bytes found state) _ _) ?_
        · refine MapTriple.access
            (fun _ state => (known state ∧ Holding array p i tag word state) ∧
            Allotted p bytes found state) stable' ?_ fun _ => ?_
          · exact fun ghost buf _ holds =>
              ⟨ghost, .quiet .empty, quiet _ _ _ holds.1, holds.2⟩
          · exact Triple.ret stable' fun _ _ holds => holds
        · rintro state inv ⟨same, holds⟩
          obtain rfl : found = address := by simpa using same
          exact holds

/-- The string is written into the block, and with its last byte the slot is
bound to the key. -/
theorem copyToHeap_triple (below : (i : Int) < array.nElem)
    (grows : Growing known) {text : CString}
    (type : tag.type = .string)
    (room : text.bytes.length < block.bytes) {a : Int}
    {rest : List UInt8} (lower : block.address ≤ a)
    (upper : a + rest.length < block.address + block.length) :
    MapTriple array level p
      (fun state => (known state ∧ Heading array (.string text) i state) ∧
        Copying array p i tag block text.bytes a rest state)
      (copyToHeap a rest) fun _ state => known state ∧ BoundTo i
        (.string text) state := by
  have grows' := grows.and (@growing_heading ι array i (.string text))
  induction rest generalizing a with
  | nil =>
      refine MapTriple.last
        (Stable.and grows'.stable (stable_copying below room))
        (fun _ => (grows.and growing_bound).stable) ?_
      rintro ghost buf inv ⟨⟨holds, heading⟩, copying⟩
      have search := heading _ (fun _ _ bound => bound) copying.free
      have spells : WordHolds (buf.word (slotCell array i))
          (Function.update buf.heap a 0)
          (MapKey.string text).value [block] :=
        (wordHolds_text (.inl rfl)).mpr ⟨block, rfl, copying.word, room,
          copying.complete⟩
      have move : MapMove array level p (ghost, buf)
          (_, buf.setHeap (Function.update buf.heap a 0)) :=
        .bindText a 0 below copying.holder search (copying.tag ▸ type)
          copying.owned lower
          (by simpa using upper) spells
      exact ⟨_, move, grows _ _ move.grows holds, Function.update_self _ _ _⟩
  | cons byte rest induction =>
      simp only [List.length_cons] at upper
      refine MapTriple.access
        (fun _ state => (known state ∧ Heading array (.string text) i state) ∧
        Copying array p i tag block text.bytes (a + 1) rest state)
        (Stable.and grows'.stable (stable_copying below room)) ?_ fun _ => ?_
      · rintro ghost buf inv ⟨holds, copying⟩
        have move : MapMove array level p (ghost, buf)
            (ghost, buf.setHeap (Function.update buf.heap a byte)) :=
          .write a byte copying.owned lower (by push_cast at upper; omega)
        refine ⟨ghost, move, grows' _ _ move.grows holds,
          ⟨copying.free, copying.holder, copying.tag, copying.word⟩,
          copying.owned, ?_⟩
        exact copying.complete
      · exact induction (by omega) (by push_cast at upper; omega)

private theorem place_triple (below : (i : Int) < array.nElem)
    (grows : Growing known) (text : CString) :
    MapTriple array level p
      (fun state => (known state ∧ Holding array p i tag word state) ∧
        state.1.owner block = some (.process p))
      (store (slotCell array i) block.address) fun _ state => known state ∧
        Copying array p i tag block text.bytes block.address
          text.bytes state := by
  have owns : (mapProtocol array level).Stable p fun state : MapGhost
      ι × EmsBuf =>
      state.1.owner block = some (.process p) :=
    fun different inv owned move =>
      ((MapMove.undisturbed different inv move).blocks block owned).1
  have stored : MapTriple array level p (fun state =>
      (known state ∧ Holding array p i tag word state) ∧ state.1.owner block =
        some (.process p))
      (store (slotCell array i) block.address) fun _ state => (known state ∧
        Holding array p i tag block.address state) ∧ state.1.owner block =
            some (.process p) := by
    refine MapTriple.last
      (Stable.and (Stable.and grows.stable (stable_holding below)) owns)
      (fun _ =>
        Stable.and (Stable.and grows.stable (stable_holding below)) owns) ?_
    rintro ghost buf inv ⟨⟨holds, holding⟩, owned⟩
    have move : MapMove array level p (ghost, buf)
        (ghost, buf.setWord (slotCell array i) block.address) :=
      .put _ below holding.free holding.holder
    refine ⟨ghost, move,
      ⟨grows _ _ move.grows holds, holding.free, holding.holder,
        holding.tag, ?_⟩,
      owned⟩
    exact Function.update_self _ _ _
  refine stored.post ?_
  rintro _ state ⟨⟨holds, holding⟩, owned⟩
  exact ⟨holds, holding, owned, writeText_holds _ _ _⟩

/-- A key is inserted in the slot that its search has come to.  When there is no
room for it, the slot is left as it is. -/
theorem insertKey_triple (names : key.Names k) (below : (i : Int) < array.nElem)
    (grows : Growing known) (busy : tag.fe = .busy) :
    MapTriple array level p
      (fun state => (known state ∧ Heading array k i state) ∧
        Holding array p i tag word state)
      (insertKey patience array key i) fun inserted state =>
        known state ∧ (inserted = .ok () → BoundTo i k state) := by
  obtain ⟨⟨keyType, keyText, keyWord⟩, sized, -⟩ := names
  rw [keyType] at keyText keyWord
  have grows' := grows.and (@growing_heading ι array i k)
  have ends : ∀ inserted : Except EMSError Unit, MapTriple array level p
      (fun state => known state ∧ BoundTo i k state) (pure inserted)
          fun inserted state =>
        known state ∧ (inserted = .ok () → BoundTo i k state) :=
    fun inserted => Triple.ret (grows.and growing_bound).stable
      fun _ _ both => ⟨both.1, fun _ => both.2⟩
  unfold insertKey
  refine (storeType_triple below grows' busy key.type).bind fun _ => ?_
  rw [keyType]
  cases k with
  | boolean value =>
      refine (bind_triple below grows rfl fun heap => ?_).bind fun _ => ends _
      have passed := keyWord (.inl rfl)
      rw [wordHolds_word (.inl rfl), passed]
      cases value <;> simp [MapKey.value, scalar]
  | integer value =>
      refine (bind_triple below grows rfl fun heap => ?_).bind fun _ => ends _
      have passed := keyWord (.inr (.inl rfl))
      exact (wordHolds_word (.inr (.inl rfl))).mpr ⟨passed, rfl⟩
  | string text =>
      have passed := keyText (.inl rfl)
      obtain ⟨room, addressable⟩ := sized.text (keyType ▸ .inl rfl)
      rw [passed] at room ⊢
      change text.bytes.length ≤ key.length at room
      have valid : ValidRequest (key.length + 1) := by
        constructor <;> omega
      refine (alloc_triple below grows' valid).bind fun address => ?_
      by_cases refused : address < 0
      · rw [if_pos refused]
        refine Triple.pre (Triple.ret grows.stable fun _ _ holds =>
          ⟨holds, by simp⟩) ?_
        exact fun _ _ holds => holds.1.1.1
      · rw [if_neg refused]
        rintro state inv ⟨both, negative | ⟨block, rfl, size, owned⟩⟩
        · exact absurd negative refused
        · have inBlock := block.bytes_le_length
          refine ((place_triple below grows' text).bind fun _ => ?_) state inv
            ⟨both, owned⟩
          exact (copyToHeap_triple below grows rfl (by omega) le_rfl
            (by omega)).bind fun _ => ends _

end Insert

/-! ## The index for a write -/

section Write

variable [CRuntime] {key : EMSvalueType}

private theorem writeMatches_triple (names : key.Names k)
    (below : (i : Int) < array.nElem)
    (grows : Growing known) {other : MapKey} {tag : Tag}
    (type : tag.type = other.value.type)
    {α : Type} {rest : Bool → EmsProg α} {post : α → MapGhost ι × EmsBuf → Prop}
    (continues : MapTriple array level p
      (fun state => known state ∧ BoundTo i other state)
      (rest (decide (other = k))) post) :
    MapTriple array level p (fun state => known state ∧ BoundTo i other state)
      (if tag.type = key.type then writeMatches array key tag i >>= rest
        else pure false >>= rest)
      post := by
  by_cases same : tag.type = key.type
  · rw [if_pos same]
    have yields : ∀ (buf : EmsBuf) (blocks : List Block),
        WordHolds (buf.word (slotCell array i)) buf.heap other.value blocks →
        (emsSolo (fun _ _ => True)
          (Compares array i (buf.word (slotCell array i)) other) True).Yields
          (writeMatches array key tag i) buf (decide (other = k)) buf := by
      intro buf blocks holds
      have compares := @writeMatches_yields _ (fun _ _ => True)
        (Compares array i (buf.word (slotCell array i)) other) True array buf
          key k (some other)
        blocks tag i names type same holds rfl fun text a lower upper =>
          ⟨text, lower, upper⟩
      simpa only [Option.some.injEq] using compares
    refine (compare_triple below grows yields).bind fun matched => ?_
    rintro state inv ⟨rfl, both⟩
    exact continues state inv both
  · rw [if_neg same]
    have differ : decide (some other = some k) = false :=
      names.other_type type same
    simp only [Option.some.injEq] at differ
    rw [differ] at continues
    exact continues

/-- The slot where the probe loop ends is bound to the key. -/
theorem writeProbe_triple (positive : 0 < array.nElem) (names : key.Names k)
    (grows : Growing known) {steps pos : Nat} :
    MapTriple array level p
      (fun state => known state ∧ OnTheWay array k steps pos state)
      (writeProbe patience array key steps pos) fun idx state =>
        known state ∧ (0 ≤ idx → IndexOf array k idx state) := by
  induction steps generalizing pos with
  | zero =>
      exact Triple.pre (Triple.ret grows.stable fun _ _ holds => ⟨holds, nofun⟩)
        fun _ _ both => both.1
  | succ steps induction =>
      have below := slot_lt positive pos
      have found : MapTriple array level p
          (fun state => known state ∧ BoundTo (pos % array.nElem.toNat) k state)
          (pure ((pos % array.nElem.toNat : Nat) : Int) : EmsProg Int)
          fun idx state =>
              known state ∧ (0 ≤ idx → IndexOf array k idx state) :=
        Triple.ret (grows.and growing_bound).stable
          fun _ _ both => ⟨both.1, fun _ => ⟨_, rfl, below, both.2⟩⟩
      simp only [writeProbe, tmod_slot positive]
      refine (transition_triple below (grows.and growing_onTheWay)).bind
        fun tag => ?_
      rintro state inv ⟨⟨holds, way⟩,
        ⟨other, bound, type⟩ | ⟨free, busy, word, holding⟩⟩
      · have notFree : tag.type ≠ .undefined := by
          rw [type]
          exact other.value_type_ne
        simp only [if_neg notFree]
        refine writeMatches_triple names below (grows.and growing_onTheWay) type
          ?_ state inv
          ⟨⟨holds, way⟩, bound⟩
        rintro state inv ⟨both, bound⟩
        by_cases same : other = k
        · subst same
          simp only [decide_true, if_true]
          have stored : MapTriple array level p
              (fun state =>
                known state ∧ BoundTo (pos % array.nElem.toNat) other state)
              (storeFE (slotCell array (pos % array.nElem.toNat))
                  .full >>= fun _ =>
                pure ((pos % array.nElem.toNat : Nat) : Int)) _ :=
            (storeFE_bound below grows (.inl rfl)).bind fun _ => found
          split
          case h_5 => exact found state inv ⟨both.1, bound⟩
          all_goals exact stored state inv ⟨both.1, bound⟩
        · simp only [same, decide_false, Bool.false_eq_true, if_false]
          refine ((storeFE_bound below (grows.and growing_onTheWay)
            (.inl rfl)).bind
            fun _ => ?_) state inv ⟨both, bound⟩
          refine Triple.pre (@induction (pos % array.nElem.toNat + 1)) ?_
          exact fun state _ both => ⟨both.1.1, both.1.2.passes both.2 same⟩
      · simp only [free, if_true]
        have heading : Heading array k (pos % array.nElem.toNat) state :=
          fun table' grows' isFree => (OnWay.mono way grows').ends isFree
        refine ((insertKey_triple names below grows busy).bind fun inserted =>
          ?_) state inv
          ⟨⟨holds, heading⟩, holding⟩
        cases inserted with
        | error error =>
            refine Triple.pre (Triple.ret grows.stable fun _ _ holds =>
              ⟨holds, nofun⟩) ?_
            exact fun _ _ both => both.1
        | ok done =>
            exact Triple.pre found fun _ _ both => ⟨both.1, both.2 rfl⟩

theorem EMSwriteIndexMap_triple (mapped : array.isMapped = true)
    (positive : 0 < array.nElem)
    (names : key.Names k) (grows : Growing known) :
    MapTriple array level p known (EMSwriteIndexMap patience array key)
      fun idx state =>
      known state ∧ (0 ≤ idx → IndexOf array k idx state) := by
  have start : EMSkey2index patience array key false =
      .ret ((k.startSlot % array.nElem.toNat : Nat) : Int) := by
    simp [EMSkey2index, names.keyStart, tmod_slot positive]
  simp only [EMSwriteIndexMap, mapped, start, Prog.ret_bind, if_true]
  refine (EMSkey2index_triple positive names grows).bind fun idx => ?_
  by_cases above : 0 < idx
  · simp only [if_pos above]
    refine Triple.ret (grows.and growing_indexOf.of_imp).stable ?_
    exact fun _ _ both => ⟨both.1, fun _ => both.2 (.inl above)⟩
  · simp only [if_neg above]
    refine Triple.pre (writeProbe_triple positive names grows) ?_
    intro state inv both
    refine ⟨both.1, fun table' grows' => ?_⟩
    rw [search_mod]

end Write

end Triples

end EMS
