import Mathlib.Data.Finset.Card
import Mathlib.Data.Nat.ModEq
import Mathlib.Tactic.Choose

/-!
# Open addressing

A table of slots, each of them free or bound to a key.  The slots that a key
may be bound to follow one another from its start, around the end of the table,
up to a limit of steps.  A search ends at the key, at a free slot, or at the
limit.  Keys are bound to the free slot that their search has ended at, and
stay where they are.
-/

namespace OpenAddressing

variable {K : Type}

/-- The keys that the slots are bound to. -/
abbrev Table (K : Type) := Nat → Option K

/-- Every slot that is bound in the first table is bound to the same key in the
second. -/
def Extends (table table' : Table K) : Prop :=
  ∀ slot key, table slot = some key → table' slot = some key

theorem extends_insert {table : Table K} {slot : Nat} {key : K}
    (free : table slot = none) :
    Extends table (Function.update table slot (some key)) := by
  intro slot' key' bound
  have different : slot' ≠ slot := by
    rintro rfl
    rw [free] at bound
    cases bound
  rw [Function.update_of_ne different, bound]

variable [DecidableEq K]

/-- How a search ends. -/
inductive Search where
  | found (slot : Nat)
  | free (slot : Nat)
  | exhausted
  deriving DecidableEq

/-- Search for a key in some slots of `n`, from a position on. -/
def search (n : Nat) (table : Table K) (key : K) : Nat → Nat → Search
  | 0, _ => .exhausted
  | steps + 1, pos =>
      match table (pos % n) with
      | none => .free (pos % n)
      | some other =>
          if other = key then .found (pos % n)
            else search n table key steps (pos + 1)

section Searching

variable {n : Nat} {table table' : Table K} {key other : K}
  {steps pos slot : Nat}

theorem search_of_free (free : table (pos % n) = none) :
    search n table key (steps + 1) pos = .free (pos % n) := by
  simp only [search, free]

theorem search_of_bound (bound : table (pos % n) = some other) :
    search n table key (steps + 1) pos =
      if other = key then .found (pos % n)
        else search n table key steps (pos + 1) := by
  simp only [search, bound]

theorem search_mod :
    search n table key steps (pos % n) = search n table key steps pos := by
  induction steps generalizing pos with
  | zero => rfl
  | succ steps induction =>
      have next : search n table key steps (pos % n + 1) =
          search n table key steps (pos + 1) := by
        rw [← @induction (pos % n + 1), ← @induction (pos + 1), Nat.mod_add_mod]
      cases here : table (pos % n) with
      | none => rw [search_of_free here, search_of_free (by rwa [Nat.mod_mod]),
            Nat.mod_mod]
      | some other =>
          rw [search_of_bound here, search_of_bound (by rwa [Nat.mod_mod]),
            Nat.mod_mod, next]

theorem search_succ_mod :
    search n table key steps (pos % n + 1) =
      search n table key steps (pos + 1) := by
  rw [← search_mod, Nat.mod_add_mod, search_mod]

/-- The key that a search has found is in its slot. -/
theorem search_found (found : search n table key steps pos = .found slot) :
    table slot = some key := by
  induction steps generalizing pos with
  | zero => cases found
  | succ steps induction =>
      cases here : table (pos % n) with
      | none =>
          rw [search_of_free here] at found
          cases found
      | some other =>
          rw [search_of_bound here] at found
          split at found
          case isTrue same =>
            obtain rfl := Search.found.inj found
            rw [here, same]
          case isFalse => exact induction found

/-- The slot that a search has ended at is free. -/
theorem search_free (free : search n table key steps pos = .free slot) :
    table slot = none := by
  induction steps generalizing pos with
  | zero => cases free
  | succ steps induction =>
      cases here : table (pos % n) with
      | none =>
          rw [search_of_free here] at free
          obtain rfl := Search.free.inj free
          exact here
      | some other =>
          rw [search_of_bound here] at free
          split at free
          case isTrue => cases free
          case isFalse => exact induction free

/-- A search ends within the table. -/
theorem search_lt (positive : 0 < n)
    (ends : search n table key steps pos = .found slot ∨
      search n table key steps pos = .free slot) : slot < n := by
  induction steps generalizing pos with
  | zero => rcases ends with found | free <;> contradiction
  | succ steps induction =>
      have inside : pos % n < n := Nat.mod_lt pos positive
      cases here : table (pos % n) with
      | none =>
          rw [search_of_free here] at ends
          simp only [reduceCtorEq, Search.free.injEq, false_or] at ends
          exact ends ▸ inside
      | some other =>
          rw [search_of_bound here] at ends
          split at ends
          case isTrue =>
            simp only [reduceCtorEq, Search.found.injEq, or_false] at ends
            exact ends ▸ inside
          case isFalse => exact induction ends

theorem search_found_mono (grows : Extends table table')
    (found : search n table key steps pos = .found slot) :
    search n table' key steps pos = .found slot := by
  induction steps generalizing pos with
  | zero => cases found
  | succ steps induction =>
      cases here : table (pos % n) with
      | none =>
          rw [search_of_free here] at found
          cases found
      | some other =>
          rw [search_of_bound here] at found
          rw [search_of_bound (grows _ _ here)]
          split
          case isTrue same => simpa only [same, if_true] using found
          case isFalse different =>
            rw [if_neg different] at found
            exact induction found

theorem search_insert (free : search n table key steps pos = .free slot) :
    search n (Function.update table slot (some key)) key steps pos =
      .found slot := by
  have isFree := search_free free
  induction steps generalizing pos with
  | zero => cases free
  | succ steps induction =>
      cases here : table (pos % n) with
      | none =>
          rw [search_of_free here] at free
          obtain rfl := Search.free.inj free
          rw [search_of_bound (Function.update_self _ _ _), if_pos rfl]
      | some other =>
          rw [search_of_bound here] at free
          split at free
          case isTrue => cases free
          case isFalse different =>
            rw [search_of_bound (extends_insert isFree _ _ here),
              if_neg different]
            exact induction free

end Searching

/-! ## Searches among insertions -/

/-- The search for a key comes to a position, with some steps left, however
many keys are added meanwhile. -/
def OnWay (n limit : Nat) (start : K → Nat) (table : Table K) (key : K)
    (steps pos : Nat) : Prop :=
  ∀ table', Extends table table' →
    search n table' key limit (start key) = search n table' key steps pos

section OnWay

variable {n limit : Nat} {start : K → Nat} {table table' : Table K}
  {key other : K}
  {steps pos : Nat}

theorem OnWay.first : OnWay n limit start table key limit (start key) :=
  fun _ _ => rfl

theorem OnWay.mono (way : OnWay n limit start table key steps pos)
    (grows : Extends table table') : OnWay n limit start table' key steps pos :=
  fun table'' grows' => way table'' fun slot key' bound =>
    grows' slot key' (grows slot key' bound)

theorem OnWay.passes (way : OnWay n limit start table key (steps + 1) pos)
    (bound : table (pos % n) = some other) (different : other ≠ key) :
    OnWay n limit start table key steps (pos % n + 1) := by
  intro table' grows
  rw [way table' grows, search_succ_mod]
  rw [search_of_bound (grows _ _ bound), if_neg different]

theorem OnWay.ends (way : OnWay n limit start table key (steps + 1) pos)
    (free : table (pos % n) = none) :
    search n table key limit (start key) = .free (pos % n) := by
  rw [way table fun _ _ bound => bound, search_of_free free]

end OnWay

/-! ## Tables -/

/-- Every key that is bound is found where it is. -/
def Sound (n limit : Nat) (start : K → Nat) (table : Table K) : Prop :=
  ∀ slot key, table slot = some key →
    search n table key limit (start key) = .found slot

section Tables

variable {n limit : Nat} {start : K → Nat} {table : Table K}

theorem sound_free : Sound n limit start (fun _ => none : Table K) := by
  intro slot key bound
  cases bound

theorem Sound.unique (sound : Sound n limit start table) {key : K}
    {slot slot' : Nat}
    (bound : table slot = some key) (bound' : table slot' = some key) :
    slot = slot' := by
  have found := sound slot key bound
  rw [sound slot' key bound'] at found
  exact (Search.found.inj found).symm

theorem Sound.lt (sound : Sound n limit start table) (positive : 0 < n)
    {key : K} {slot : Nat}
    (bound : table slot = some key) : slot < n :=
  search_lt positive (.inl (sound slot key bound))

/-- A key is bound to a slot where its search has ended. -/
theorem Sound.insert (sound : Sound n limit start table) {key : K} {slot : Nat}
    (free : search n table key limit (start key) = .free slot) :
    Sound n limit start (Function.update table slot (some key)) := by
  intro slot' key' bound
  by_cases same : slot' = slot
  · subst same
    rw [Function.update_self] at bound
    obtain rfl := Option.some.inj bound
    exact search_insert free
  · rw [Function.update_of_ne same] at bound
    exact search_found_mono (extends_insert (search_free free))
      (sound slot' key' bound)

theorem search_exhausted {key : K} {steps pos : Nat}
    (exhausted : search n table key steps pos = .exhausted) :
    ∀ j, j < steps → ∃ other, table ((pos + j) % n) = some other := by
  induction steps generalizing pos with
  | zero => exact fun j below => absurd below (Nat.not_lt_zero j)
  | succ steps induction =>
      cases here : table (pos % n) with
      | none =>
          rw [search_of_free here] at exhausted
          cases exhausted
      | some other =>
          rw [search_of_bound here] at exhausted
          split at exhausted
          case isTrue => cases exhausted
          case isFalse =>
            intro j below
            cases j with
            | zero => exact ⟨other, here⟩
            | succ j =>
                rw [Nat.add_comm j 1, ← Nat.add_assoc]
                exact induction exhausted j (by omega)

theorem Sound.crowded (sound : Sound n limit start table) {key : K}
    {steps pos : Nat}
    (exhausted : search n table key steps pos = .exhausted) {keys : Finset K}
    (bound : ∀ slot other, table slot = some other → other ∈ keys) :
    min n steps ≤ keys.card := by
  have seen : ∀ j, ∃ other, j < steps → table ((pos + j) % n) = some other := by
    intro j
    by_cases below : j < steps
    · obtain ⟨other, here⟩ := search_exhausted exhausted j below
      exact ⟨other, fun _ => here⟩
    · exact ⟨key, fun inside => absurd inside below⟩
  choose keyAt seen using seen
  have injective : Set.InjOn keyAt (Finset.range (min n steps)) := by
    intro i inI j inJ same
    rw [Finset.coe_range, Set.mem_Iio, Nat.lt_min] at inI inJ
    have here := seen i inI.2
    rw [same] at here
    have equal : (pos + i) % n = (pos + j) % n :=
      sound.unique here (seen j inJ.2)
    have cancelled : i % n = j % n := Nat.ModEq.add_left_cancel' pos equal
    rwa [Nat.mod_eq_of_lt inI.1, Nat.mod_eq_of_lt inJ.1] at cancelled
  rw [← Finset.card_range (min n steps)]
  apply Finset.card_le_card_of_injOn keyAt _ injective
  intro j inJ
  have below : j < steps := (Nat.lt_min.mp (Finset.mem_range.mp inJ)).2
  exact bound _ _ (seen j below)

end Tables

end OpenAddressing
