import EMS.Rounding
import Mathlib.Data.List.Perm.Basic

/-!
# Static scheduling

`parForEach` with the schedule `'static'` gives every process one block of the
iterations.  The two bindings compute the blocks by the same steps.  A number of
JavaScript is a double, and every operation rounds; in Python integers are
exact, and only a quotient is a double.
-/

namespace EMS

open Rounding

/-! ## The two bindings -/

/-- The calls of the body in `for (idx = s; idx < e; idx += 1)`, if the loop
ends within the bound. -/
def jsFor (body : ℚ → ℚ) (e : ℚ) : ℕ → ℚ → Option (List ℚ)
  | 0, _ => none
  | bound + 1, idx =>
      if idx < e then (jsFor body e bound (roundDouble (idx + 1))).map
        (body idx :: ·)
      else some []

/-- The indexes that `EMSparForEach` of `ems.js` calls the body with. -/
def EMSparForEachStatic (start finish : ℚ) (nThreads myID bound : ℕ) :
    Option (List ℚ) :=
  let range := roundDouble (finish - start)
  let blocksz := roundDouble (⌊roundDouble (range / nThreads)⌋ + 1)
  let s := roundDouble (blocksz * myID)
  let e := roundDouble (blocksz * (myID + 1))
  let e := if finish < e then finish else e
  jsFor (fun idx => roundDouble (idx + start)) e bound s

/-- `range(start, stop)` of Python. -/
def pyRange (start stop : ℤ) : List ℤ :=
  (List.range (stop - start).toNat).map fun k : ℕ => start + (k : ℤ)

/-- The size of a block in `parForEach` of `ems.py`. -/
def pyBlocksz (start finish : ℤ) (nThreads : ℕ) : ℤ :=
  ⌊roundDouble ((finish - start : ℤ) / nThreads)⌋ + 1

/-- The indexes that `parForEach` of `ems.py` calls the body with. -/
def parForEachStatic (start finish : ℤ) (nThreads myID : ℕ) : List ℤ :=
  let blocksz := pyBlocksz start finish nThreads
  let s := blocksz * myID + start
  let e := blocksz * (myID + 1) + start
  let e := if finish < e then finish else e
  pyRange s e

/-- In both bindings the processes together call the body once for each index of
the range and for no other, and each process for the same indexes. -/
def StaticPartition (start finish : ℤ) (nThreads : ℕ) : Prop :=
  ∃ js : ℕ → List ℚ,
    (∀ myID < nThreads, ∃ bound,
      EMSparForEachStatic start finish nThreads myID bound = some (js myID)) ∧
    ((List.range nThreads).flatMap js).Perm
      ((pyRange start finish).map fun i : ℤ => (i : ℚ)) ∧
    ((List.range nThreads).flatMap
      (parForEachStatic start finish nThreads)).Perm
      (pyRange start finish) ∧
    ∀ myID < nThreads, js myID =
      (parForEachStatic start finish nThreads myID).map fun i : ℤ => (i : ℚ)

/-! ## Ranges -/

theorem mem_pyRange {start stop i : ℤ} : i ∈ pyRange start stop ↔ start ≤ i ∧
    i < stop := by
  simp only [pyRange, List.mem_map, List.mem_range]
  constructor
  · rintro ⟨k, below, rfl⟩
    omega
  · rintro ⟨lower, upper⟩
    exact ⟨(i - start).toNat, by omega, by omega⟩

theorem pyRange_empty {start stop : ℤ} (none : stop ≤ start) :
    pyRange start stop = [] := by
  have zero : (stop - start).toNat = 0 := by omega
  rw [pyRange, zero]
  rfl

theorem pyRange_append {start middle stop : ℤ} (lower : start ≤ middle)
    (upper : middle ≤ stop) :
    pyRange start middle ++ pyRange middle stop = pyRange start stop := by
  have total : (stop - start).toNat =
    (middle - start).toNat + (stop - middle).toNat := by omega
  simp only [pyRange, total, List.range_add, List.map_append, List.map_map]
  congr 1
  apply List.map_congr_left
  intro k _
  simp only [Function.comp_apply]
  omega

private theorem pyRange_cons {start stop : ℤ} (some : start < stop) :
    pyRange start stop = start :: pyRange (start + 1) stop := by
  rw [← @pyRange_append start (start + 1) stop (by omega) (by omega)]
  simp [pyRange]

private theorem flatMap_blocks {blocksz start finish : ℤ} (size : 0 ≤ blocksz)
    (count : ℕ) :
    (List.range count).flatMap (fun myID : ℕ => pyRange (blocksz * myID + start)
        (if finish < blocksz * (myID + 1) + start then finish
          else blocksz * (myID + 1) + start)) =
      pyRange start (min (blocksz * count + start) finish) := by
  induction count with
  | zero =>
      rw [@pyRange_empty start _ (by simp)]
      rfl
  | succ count induction =>
      have next : blocksz * ((count : ℤ) + 1) = blocksz * count + blocksz := by
        ring
      have product : 0 ≤ blocksz * (count : ℤ) := by positivity
      rw [List.range_succ, List.flatMap_append, induction]
      simp only [List.flatMap_cons, List.flatMap_nil, List.append_nil,
        Nat.cast_add, Nat.cast_one,
        next]
      by_cases beyond : finish ≤ blocksz * count + start
      · rw [@pyRange_empty (blocksz * count + start) _ (by split_ifs <;> omega),
          List.append_nil]
        congr 1
        omega
      · rw [min_eq_left (by omega),
          pyRange_append (by omega) (by split_ifs <;> omega)]
        congr 1
        split_ifs <;> omega

/-! ## Blocks -/

section Blocks

variable {start finish : ℤ} {nThreads : ℕ}

theorem blocks_cover {range : ℤ} (threads : 1 ≤ nThreads) (lower : 0 ≤ range)
    (upper : range ≤ 2 ^ 53) :
    range < (⌊roundDouble ((range : ℚ) / nThreads)⌋ + 1) * nThreads := by
  have positive : (0 : ℚ) < nThreads := by exact_mod_cast threads
  have quotient : ⌊(range : ℚ) / nThreads⌋ = range / nThreads := by
    exact_mod_cast Int.floor_div_natCast (k := ℚ) (range : ℚ) nThreads
  have nonneg : 0 ≤ range / (nThreads : ℤ) := Int.ediv_nonneg lower (by omega)
  have small : range / (nThreads : ℤ) ≤ range := Int.ediv_le_self _ lower
  have kept : range / (nThreads : ℤ) ≤
      ⌊roundDouble ((range : ℚ) / nThreads)⌋ := by
    apply Int.le_floor.mpr
    apply le_roundDouble (by omega) (by omega)
    rw [← quotient]
    exact Int.floor_le _
  have remainder :=
    Int.lt_ediv_add_one_mul_self range (b := (nThreads : ℤ)) (by omega)
  apply remainder.trans_le
  exact Int.mul_le_mul_of_nonneg_right (by omega) (by omega)

theorem block_le {range : ℤ} (threads : 1 ≤ nThreads) (lower : 0 ≤ range)
    (upper : range ≤ 2 ^ 53) :
    1 ≤ ⌊roundDouble ((range : ℚ) / nThreads)⌋ + 1 ∧
      ⌊roundDouble ((range : ℚ) / nThreads)⌋ ≤ range := by
  have positive : (1 : ℚ) ≤ nThreads := by exact_mod_cast threads
  have nonneg : (0 : ℚ) ≤ range := by exact_mod_cast lower
  constructor
  · have floor : 0 ≤ ⌊roundDouble ((range : ℚ) / nThreads)⌋ := by
      apply Int.le_floor.mpr
      apply le_roundDouble (by omega) (by omega)
      push_cast
      positivity
    omega
  · have bound : roundDouble ((range : ℚ) / nThreads) ≤ range := by
      apply roundDouble_le (by omega) upper
      exact div_le_self nonneg positive
    exact_mod_cast (Int.floor_le _).trans bound

end Blocks

/-! ## Loops of JavaScript -/

section Loops

variable {body : ℚ → ℚ} {e idx : ℚ} {bound bound' : ℕ} {calls calls' : List ℚ}

theorem jsFor_done (done : e ≤ idx) :
    jsFor body e (bound + 1) idx = some [] := by
  simp only [jsFor, if_neg (not_lt.mpr done)]

private theorem jsFor_unique (first : jsFor body e bound idx = some calls)
    (second : jsFor body e bound' idx = some calls') : calls = calls' := by
  induction bound generalizing bound' idx calls calls' with
  | zero => cases first
  | succ bound induction =>
      cases bound' with
      | zero => cases second
      | succ bound' =>
          simp only [jsFor] at first second
          split at first
          case isTrue less =>
            rw [if_pos less] at second
            obtain ⟨rest, returned, rfl⟩ := Option.map_eq_some_iff.mp first
            obtain ⟨rest', returned', rfl⟩ := Option.map_eq_some_iff.mp second
            rw [induction returned returned']
          case isFalse done =>
            rw [if_neg done] at second
            exact (Option.some.inj first).symm.trans (Option.some.inj second)

theorem jsFor_exact {s stop : ℤ} (lower : -2 ^ 53 ≤ s) (upper : stop ≤ 2 ^ 53) :
    jsFor body stop ((stop - s).toNat + 1) s =
      some ((pyRange s stop).map fun i : ℤ => body i) := by
  induction left : (stop - s).toNat generalizing s with
  | zero =>
      have done : stop ≤ s := by omega
      rw [pyRange_empty done]
      exact jsFor_done (by exact_mod_cast done)
  | succ left induction =>
      have less : s < stop := by omega
      have next : roundDouble ((s : ℚ) + 1) = ((s + 1 : ℤ) : ℚ) := by
        have exact := roundDouble_int (m := s + 1) (by omega) (by omega)
        push_cast at exact ⊢
        exact exact
      rw [jsFor, if_pos (by exact_mod_cast less), next,
        induction (by omega) (by omega),
        pyRange_cons less]
      rfl

theorem mem_jsFor {reached : ℚ → Prop} {call : ℚ}
    (steps : ∀ idx, reached idx → reached (roundDouble (idx + 1)))
    (returned : jsFor body e bound idx = some calls) (initially : reached idx)
    (member : call ∈ calls) : ∃ idx, reached idx ∧ idx < e ∧
      call = body idx := by
  induction bound generalizing idx calls with
  | zero => cases returned
  | succ bound induction =>
      simp only [jsFor] at returned
      split at returned
      case isTrue less =>
        obtain ⟨rest, later, rfl⟩ := Option.map_eq_some_iff.mp returned
        rcases List.mem_cons.mp member with rfl | inRest
        · exact ⟨idx, initially, less, rfl⟩
        · exact induction later (steps idx initially) inRest
      case isFalse =>
        obtain rfl := Option.some.inj returned
        cases member

private theorem jsFor_reaches {s last : ℤ} {stop : ℚ} (lower : -2 ^ 53 ≤ s)
    (upper : last ≤ 2 ^ 53)
    (order : s ≤ last) (inside : (last : ℚ) < stop)
    (returned : jsFor body stop bound s = some calls) : body last ∈ calls := by
  induction bound generalizing s calls with
  | zero => cases returned
  | succ bound induction =>
      have least : (s : ℚ) ≤ last := by exact_mod_cast order
      rw [jsFor, if_pos (least.trans_lt inside)] at returned
      obtain ⟨rest, later, rfl⟩ := Option.map_eq_some_iff.mp returned
      rcases order.eq_or_lt with rfl | less
      · exact List.mem_cons_self
      · have next : roundDouble ((s : ℚ) + 1) = ((s + 1 : ℤ) : ℚ) := by
          have exact := roundDouble_int (m := s + 1) (by omega) (by omega)
          push_cast at exact ⊢
          exact exact
        rw [next] at later
        exact List.mem_cons_of_mem _ (induction (by omega) (by omega) later)

end Loops

/-! ## Where the bindings agree -/

section Agreeing

variable {start finish : ℤ} {nThreads : ℕ}

private theorem parForEachStatic_partition
    (size : 0 ≤ pyBlocksz start finish nThreads)
    (covers : finish - start ≤ pyBlocksz start finish nThreads * nThreads) :
    (List.range nThreads).flatMap (parForEachStatic start finish nThreads) =
      pyRange start finish := by
  have blocks := @flatMap_blocks _ start finish size nThreads
  rw [min_eq_right (by omega)] at blocks
  exact blocks

/-- A range without iterations that ends at or below zero. -/
theorem StaticPartition.of_empty (below : finish ≤ 0) :
    StaticPartition finish finish nThreads := by
  have blocksz : pyBlocksz finish finish nThreads = 1 := by
    simp [pyBlocksz, roundDouble]
  have python : ∀ myID, parForEachStatic finish finish nThreads myID = [] := by
    intro myID
    simp only [parForEachStatic, blocksz]
    apply pyRange_empty
    split_ifs <;> omega
  have javascript : ∀ myID : ℕ,
      EMSparForEachStatic finish finish nThreads myID 1 = some [] := by
    intro myID
    have one : roundDouble
        (⌊roundDouble (roundDouble ((finish : ℚ) - finish) / nThreads)⌋ + 1) =
        1 := by
      have exact := roundDouble_int (m := 1) (by decide) (by decide)
      simpa [roundDouble] using exact
    have nonneg : ((0 : ℤ) : ℚ) ≤ roundDouble (1 * (myID : ℚ)) := by
      apply le_roundDouble (by decide) (by decide)
      push_cast
      positivity
    have negative : (finish : ℚ) ≤ 0 := by exact_mod_cast below
    simp only [EMSparForEachStatic, one]
    apply jsFor_done
    push_cast at nonneg
    split_ifs <;> linarith
  refine ⟨fun _ => [], fun myID _ => ⟨1, javascript myID⟩, ?_, ?_, ?_⟩
  · simp [pyRange_empty le_rfl]
  · simp [pyRange_empty le_rfl, python]
  · simp [python]

/-- A range that starts at zero and whose indexes are exact. -/
theorem StaticPartition.of_zero (threads : 1 ≤ nThreads) (ordered : 0 ≤ finish)
    (small : finish ≤ 2 ^ 53) : StaticPartition 0 finish nThreads := by
  obtain ⟨positive, large⟩ := block_le threads ordered small
  have covers := blocks_cover threads ordered small
  have blocksz : pyBlocksz 0 finish nThreads =
      ⌊roundDouble ((finish : ℚ) / nThreads)⌋ + 1 := by
    simp [pyBlocksz]
  generalize sizeEq : ⌊roundDouble ((finish : ℚ) / nThreads)⌋ + 1 = size at *
  -- a bound of a block is exact, or lies at the end or beyond
  have bounds : ∀ count : ℕ, ∃ jsBound : ℚ,
      roundDouble (roundDouble (size : ℤ) * count) = jsBound ∧
      ((jsBound = (size * count : ℤ) ∧ size * count ≤ 2 ^ 53) ∨
        ((finish : ℚ) ≤ jsBound ∧ finish ≤ size * count)) := by
    intro count
    refine ⟨_, rfl, ?_⟩
    by_cases fits : size ≤ 2 ^ 53
    · rw [roundDouble_int (by omega) fits]
      have cast : (size : ℚ) * count = ((size * count : ℤ) : ℚ) := by
        push_cast; rfl
      have nonneg : 0 ≤ size * (count : ℤ) := by positivity
      rw [cast]
      by_cases inside : size * (count : ℤ) ≤ 2 ^ 53
      · exact .inl ⟨roundDouble_int (by omega) inside, inside⟩
      · refine .inr ⟨?_, by omega⟩
        apply le_roundDouble (by omega) small
        exact_mod_cast (by omega : finish ≤ size * count)
    · obtain rfl : finish = 2 ^ 53 := by omega
      have least :=
        le_roundDouble (x := (size : ℚ)) (m := 2 ^ 53) (by decide) (by decide)
        (by exact_mod_cast (by omega : (2 : ℤ) ^ 53 ≤ size))
      rcases Nat.eq_zero_or_pos count with rfl | some
      · left
        simp [roundDouble]
      · right
        have one : (1 : ℚ) ≤ count := by exact_mod_cast some
        have product : ((2 ^ 53 : ℤ) : ℚ) ≤ roundDouble (size : ℤ) * count := by
          push_cast at least ⊢
          nlinarith
        refine ⟨le_roundDouble (by decide) (by decide) product, ?_⟩
        have whole : (1 : ℤ) ≤ count := by exact_mod_cast some
        nlinarith
  have javascript : ∀ myID : ℕ, ∃ bound,
      EMSparForEachStatic ((0 : ℤ) : ℚ) finish nThreads myID bound =
      some ((parForEachStatic 0 finish nThreads myID).map fun i : ℤ =>
          (i : ℚ)) := by
    intro myID
    obtain ⟨s, sEq, sCases⟩ := bounds myID
    obtain ⟨e, eEq, eCases⟩ := bounds (myID + 1)
    have range : roundDouble ((finish : ℚ) - ((0 : ℤ) : ℚ)) = finish := by
      rw [Int.cast_zero, sub_zero]
      exact roundDouble_int (by omega) small
    push_cast at eEq eCases
    have floor : (⌊roundDouble ((finish : ℚ) / nThreads)⌋ : ℚ) + 1 =
        (size : ℤ) := by
      rw [← sizeEq]
      push_cast
      rfl
    simp only [EMSparForEachStatic, parForEachStatic, range, floor, sEq, eEq,
      blocksz, add_zero]
    rcases sCases with ⟨rfl, inside⟩ | ⟨beyond, beyond'⟩
    · have stop : (if (finish : ℚ) < e then (finish : ℚ) else e) =
          ((if finish < size * (myID + 1) then finish
              else size * (myID + 1) : ℤ) : ℚ) := by
        rcases eCases with ⟨rfl, -⟩ | ⟨after, after'⟩
        · have same : (finish : ℚ) < (size : ℚ) * ((myID : ℚ) + 1) ↔
              finish < size * ((myID : ℤ) + 1) := by exact_mod_cast Iff.rfl
          by_cases less : finish < size * ((myID : ℤ) + 1)
          · rw [if_pos (same.mpr less), if_pos less]
          · rw [if_neg (mt same.mp less), if_neg less]
            push_cast
            rfl
        · have first : (if (finish : ℚ) < e then (finish : ℚ) else e) =
              finish := by
            split_ifs with less
            · rfl
            · exact le_antisymm (not_lt.mp less) after
          have second : (if finish < size * ((myID : ℤ) + 1) then finish
              else size * ((myID : ℤ) + 1)) = finish := by
            split_ifs <;> omega
          rw [first, second]
      have nonneg : 0 ≤ size * (myID : ℤ) := by positivity
      rw [stop]
      refine ⟨_, (jsFor_exact (by omega) (by split_ifs <;> omega)).trans ?_⟩
      congr 1
      apply List.map_congr_left
      intro i member
      obtain ⟨lower, upper⟩ := mem_pyRange.mp member
      rw [Int.cast_zero, add_zero]
      exact roundDouble_int (by omega) (by split_ifs at upper <;> omega)
    · refine ⟨1, ?_⟩
      rw [jsFor_done, pyRange_empty]
      · rfl
      · split_ifs <;> omega
      · split_ifs with less
        · exact beyond
        · exact (not_lt.mp less).trans beyond
  have python :=
    @parForEachStatic_partition 0 finish nThreads (by omega)
      (by rw [blocksz]; omega)
  refine ⟨fun myID => (parForEachStatic 0 finish nThreads myID).map
    fun i : ℤ => (i : ℚ),
    fun myID _ => javascript myID, ?_, ?_, fun _ _ => rfl⟩
  · rw [← python, List.map_flatMap]
  · rw [python]

end Agreeing

/-! ## Where they do not -/

section Disagreeing

variable {start finish : ℤ} {nThreads : ℕ}

theorem StaticPartition.calls
    (partition : StaticPartition start finish nThreads) :
    ∃ js : ℕ → List ℚ,
      (∀ myID < nThreads, ∃ bound,
        EMSparForEachStatic start finish nThreads myID bound = some (js myID)) ∧
      ∀ x, (∃ myID < nThreads, x ∈ js myID) ↔ ∃ i : ℤ, start ≤ i ∧ i < finish ∧
        (i : ℚ) = x := by
  obtain ⟨js, returns, once, -, -⟩ := partition
  refine ⟨js, returns, fun x => ?_⟩
  have member := once.mem_iff (a := x)
  simp only [List.mem_flatMap, List.mem_range, List.mem_map,
    mem_pyRange] at member
  rw [member]
  simp only [and_assoc]

private theorem blocksz_nonneg (ordered : start ≤ finish) :
    0 ≤ roundDouble (⌊roundDouble
      (roundDouble ((finish : ℚ) - start) / nThreads)⌋ + 1) := by
  have zero : ((0 : ℤ) : ℚ) = 0 := Int.cast_zero
  have range : ((0 : ℤ) : ℚ) ≤ roundDouble ((finish : ℚ) - start) := by
    apply le_roundDouble (by decide) (by decide)
    rw [zero, sub_nonneg]
    exact_mod_cast ordered
  have quotient : ((0 : ℤ) : ℚ) ≤
      roundDouble (roundDouble ((finish : ℚ) - start) / nThreads) := by
    apply le_roundDouble (by decide) (by decide)
    rw [zero] at range ⊢
    positivity
  have floor := Int.le_floor.mpr quotient
  rw [← zero]
  apply le_roundDouble (by decide) (by decide)
  exact_mod_cast (by
    omega : 0 ≤ ⌊roundDouble
    (roundDouble ((finish : ℚ) - start) / nThreads)⌋ + 1)

private theorem block_start_nonneg (ordered : start ≤ finish) (myID : ℕ) :
    0 ≤ roundDouble (roundDouble
      (⌊roundDouble (roundDouble ((finish : ℚ) - start) / nThreads)⌋ + 1)
        * myID) := by
  have size := @blocksz_nonneg start finish nThreads ordered
  have zero : ((0 : ℤ) : ℚ) = 0 := Int.cast_zero
  rw [← zero]
  apply le_roundDouble (by decide) (by decide)
  rw [zero]
  positivity

theorem not_partition_odd {z : ℤ} (odd : z % 2 = 1)
    (large : z < -2 ^ 53 ∨ 2 ^ 53 < z)
    (lower : start ≤ z) (upper : z < finish) :
    ¬ StaticPartition start finish nThreads := by
  intro partition
  obtain ⟨js, returns, called⟩ := partition.calls
  obtain ⟨myID, inside, member⟩ := (called z).mpr ⟨z, lower, upper, rfl⟩
  obtain ⟨bound, returned⟩ := returns myID inside
  obtain ⟨idx, -, -, call⟩ :=
    @mem_jsFor _ _ _ _ _ (fun _ => True) _ (fun _ _ => trivial) returned
    trivial member
  exact roundDouble_ne_odd odd large call.symm

/-- A range without iterations that ends above zero has one. -/
private theorem not_partition_empty (isStart : IsDouble start)
    (threads : 1 ≤ nThreads)
    (positive : 0 < start) : ¬ StaticPartition start start nThreads := by
  intro partition
  obtain ⟨js, returns, called⟩ := partition.calls
  obtain ⟨bound, returned⟩ := returns 0 threads
  have one : roundDouble
      (⌊roundDouble (roundDouble ((start : ℚ) - start) / nThreads)⌋ + 1) =
      1 := by
    have exact := roundDouble_int (m := 1) (by decide) (by decide)
    simpa [roundDouble] using exact
  have exactOne : roundDouble (1 * (((0 : ℕ) : ℚ) + 1)) = ((1 : ℤ) : ℚ) := by
    have exact := roundDouble_int (m := 1) (by decide) (by decide)
    simpa using exact
  have exactZero : roundDouble (1 * ((0 : ℕ) : ℚ)) = ((0 : ℤ) : ℚ) := by
    simp [roundDouble]
  have stop : (if (start : ℚ) < ((1 : ℤ) : ℚ) then (start : ℚ)
      else ((1 : ℤ) : ℚ)) =
      ((1 : ℤ) : ℚ) := by
    rw [if_neg]
    exact_mod_cast (by omega : ¬ start < 1)
  simp only [EMSparForEachStatic, one, exactOne, exactZero, stop] at returned
  have computed := jsFor_unique returned (jsFor_exact (by decide) (by decide))
  obtain ⟨i, lower, upper, -⟩ := (called start).mp ⟨0, threads, by
    rw [computed]
    have whole : roundDouble (start : ℚ) = start := isStart
    simp [pyRange, whole]⟩
  omega

/-- A range that starts above zero is run beyond its end. -/
theorem not_partition_positive (threads : 1 ≤ nThreads) (positive : 0 < start)
    (ordered : start < finish) (small : finish ≤ 2 ^ 53) :
    ¬ StaticPartition start finish nThreads := by
  intro partition
  obtain ⟨js, returns, called⟩ := partition.calls
  have range : roundDouble ((finish : ℚ) - start) =
      ((finish - start : ℤ) : ℚ) := by
    rw [← Int.cast_sub]
    exact roundDouble_int (by omega) (by omega)
  have covers :=
    @blocks_cover nThreads (finish - start) threads (by omega) (by omega)
  obtain ⟨least, most⟩ :=
    @block_le nThreads (finish - start) threads (by omega) (by omega)
  generalize sizeEq :
    ⌊roundDouble (((finish - start : ℤ) : ℚ) / nThreads)⌋ + 1 = size at *
  have blocksz : roundDouble
      (⌊roundDouble (roundDouble ((finish : ℚ) - start) / nThreads)⌋ + 1) =
          size := by
    rw [range, ← roundDouble_int (m := size) (by omega) (by omega), ← sizeEq]
    push_cast
    rfl
  -- the block that the end of the range would be in
  obtain ⟨myID, same⟩ := Int.eq_ofNat_of_zero_le
    (Int.ediv_nonneg (by omega : 0 ≤ finish - start) (by omega : 0 ≤ size))
  have lower : size * (myID : ℤ) ≤ finish - start := by
    have quotient :=
      Int.mul_ediv_self_le (x := finish - start) (k := size) (by omega)
    rwa [same] at quotient
  have upper : finish - start < size * ((myID : ℤ) + 1) := by
    have remainder :=
      Int.lt_ediv_add_one_mul_self (finish - start) (b := size) (by omega)
    rw [same, mul_comm] at remainder
    exact remainder
  have inside : myID < nThreads := by
    have less : size * (myID : ℤ) < size * nThreads := lower.trans_lt covers
    exact_mod_cast lt_of_mul_lt_mul_left less (by omega)
  obtain ⟨bound, returned⟩ := returns myID inside
  have nonneg : 0 ≤ size * (myID : ℤ) := by positivity
  have s : roundDouble ((size : ℚ) * myID) = ((size * myID : ℤ) : ℚ) := by
    rw [← roundDouble_int (m := size * myID) (by omega) (by omega)]
    push_cast
    rfl
  have e : ((finish - start + 1 : ℤ) : ℚ) ≤
      roundDouble ((size : ℚ) * ((myID : ℚ) + 1)) := by
    apply le_roundDouble (by omega) (by omega)
    exact_mod_cast upper
  simp only [EMSparForEachStatic, blocksz, s] at returned
  have reaches : (finish : ℚ) ∈ js myID := by
    obtain ⟨stop, stopEq, above⟩ : ∃ stop : ℚ, (if (finish : ℚ) <
        roundDouble ((size : ℚ) * ((myID : ℚ) + 1)) then (finish : ℚ)
        else roundDouble ((size : ℚ) * ((myID : ℚ) + 1))) = stop ∧
        ((finish - start + 1 : ℤ) : ℚ) ≤ stop := by
      refine ⟨_, rfl, ?_⟩
      split_ifs
      · exact_mod_cast (by omega : finish - start + 1 ≤ finish)
      · exact e
    rw [stopEq] at returned
    have call :=
      @jsFor_reaches _ _ _ _ (finish - start) _ (by omega) (by omega) lower
      (lt_of_lt_of_le (by exact_mod_cast Int.lt_succ (finish - start)) above)
        returned
    have whole : roundDouble (((finish - start : ℤ) : ℚ) + start) = finish := by
      push_cast
      rw [sub_add_cancel]
      exact roundDouble_int (by omega) small
    rwa [whole] at call
  obtain ⟨i, first, second, equal⟩ := (called finish).mp ⟨myID, inside, reaches⟩
  have last : i = finish := by exact_mod_cast equal
  omega

private theorem not_partition_below (ordered : start < finish)
    (below : finish ≤ 0) :
    ¬ StaticPartition start finish nThreads := by
  intro partition
  obtain ⟨js, returns, called⟩ := partition.calls
  obtain ⟨myID, inside, member⟩ :=
    (called start).mpr ⟨start, le_rfl, ordered, rfl⟩
  obtain ⟨bound, returned⟩ := returns myID inside
  obtain ⟨idx, nonneg, less, -⟩ :=
    @mem_jsFor _ _ _ _ _ (fun idx => 0 ≤ idx) _ (by
    intro idx nonneg
    have zero : ((0 : ℤ) : ℚ) = 0 := Int.cast_zero
    rw [← zero]
    apply le_roundDouble (by decide) (by decide)
    rw [zero]
    linarith) returned (block_start_nonneg ordered.le myID) member
  have negative : (finish : ℚ) ≤ 0 := by exact_mod_cast below
  split_ifs at less <;> linarith

/-- A range that starts below zero is not run to its end. -/
theorem not_partition_negative (lower : -2 ^ 53 ≤ start) (negative : start < 0)
    (positive : 0 < finish) (small : finish ≤ 2 ^ 53) :
    ¬ StaticPartition start finish nThreads := by
  intro partition
  obtain ⟨js, returns, called⟩ := partition.calls
  obtain ⟨myID, inside, member⟩ :=
    (called (finish - 1 : ℤ)).mpr ⟨finish - 1, by omega, by omega, rfl⟩
  obtain ⟨bound, returned⟩ := returns myID inside
  obtain ⟨blocksz, size⟩ :=
    roundDouble_integral
      (⌊roundDouble (roundDouble ((finish : ℚ) - start) / nThreads)⌋ + 1)
  obtain ⟨s, begins⟩ := roundDouble_integral (blocksz * myID)
  have product : roundDouble ((blocksz : ℚ) * myID) = s := by
    rw [← begins]
    push_cast
    rfl
  push_cast at size
  simp only [EMSparForEachStatic, size, product] at returned
  obtain ⟨idx, ⟨m, rfl⟩, less, call⟩ :=
    @mem_jsFor _ _ _ _ _ (fun idx => ∃ m : ℤ, idx = m) _ (by
    rintro idx ⟨m, rfl⟩
    obtain ⟨next, same⟩ := roundDouble_integral (m + 1)
    push_cast at same
    exact ⟨next, same⟩) returned ⟨s, rfl⟩ member
  have clipped : (m : ℚ) < finish := by
    split_ifs at less <;> linarith
  have before : m < finish := by exact_mod_cast clipped
  have bounded : roundDouble ((m : ℚ) + start) ≤ ((finish - 2 : ℤ) : ℚ) := by
    apply roundDouble_le (by omega) (by omega)
    exact_mod_cast (by omega : m + start ≤ finish - 2)
  rw [← call] at bounded
  have impossible : finish - 1 ≤ finish - 2 := by exact_mod_cast bounded
  omega

end Disagreeing

/-! ## When the processes share the iterations -/

theorem isDouble_even {z : ℤ} (isDouble : IsDouble z)
    (large : z < -2 ^ 53 ∨ 2 ^ 53 < z) :
    z % 2 = 0 := by
  by_contra notEven
  exact roundDouble_ne_odd (by omega) large isDouble

/-- An argument is an integer that both bindings can be called with.  The
processes share the iterations only if the range starts at zero: JavaScript
clips a block at the end of the range before it adds the start. -/
theorem static_partition_iff {start finish : ℤ} {nThreads : ℕ}
    (isStart : IsDouble start)
    (isFinish : IsDouble finish) (ordered : start ≤ finish)
    (threads : 1 ≤ nThreads) :
    StaticPartition start finish nThreads ↔
      (start = 0 ∧ finish ≤ 2 ^ 53) ∨ (start = finish ∧ finish ≤ 0) := by
  constructor
  · intro partition
    by_contra neither
    rcases ordered.eq_or_lt with rfl | some
    · exact not_partition_empty isStart threads (by omega) partition
    by_cases large : 2 ^ 53 < finish
    · -- an odd index above `2 ^ 53`
      have even := isDouble_even isFinish (.inr large)
      by_cases inside : start ≤ 2 ^ 53 + 1
      · exact not_partition_odd (z := 2 ^ 53 + 1) (by decide) (by decide) inside
          (by omega) partition
      · have even' := isDouble_even isStart (.inr (by omega))
        exact not_partition_odd (z := start + 1) (by omega) (by omega)
          (by omega) (by omega)
          partition
    by_cases lower : start < -2 ^ 53
    · -- an odd index below `-2 ^ 53`
      have even := isDouble_even isStart (.inl lower)
      have next : start + 1 ≠ finish := by
        rintro rfl
        by_cases edge : start + 1 < -2 ^ 53
        · have even' := isDouble_even isFinish (.inl edge)
          omega
        · omega
      exact not_partition_odd (z := start + 1) (by omega) (by omega) (by omega)
        (by omega) partition
    rcases lt_trichotomy start 0 with negative | rfl | positive
    · by_cases below : finish ≤ 0
      · exact not_partition_below some below partition
      · exact not_partition_negative (by omega) negative (by omega)
          (by omega) partition
    · omega
    · exact not_partition_positive threads positive some (by omega) partition
  · rintro (⟨rfl, small⟩ | ⟨rfl, below⟩)
    · exact .of_zero threads ordered small
    · exact .of_empty below

theorem static_partition_iff_ten : StaticPartition 0 10 3 := by
  have int : ∀ m : ℤ, 0 ≤ m → m ≤ 10 → IsDouble m := fun m lower upper =>
    roundDouble_int (by omega) (by omega)
  have holds := (@static_partition_iff 0 10 3 (int 0 (by decide) (by decide))
    (int 10 (by decide) (by decide)) (by decide) (by decide)).mpr
  exact holds (.inl ⟨rfl, by decide⟩)

/-- One process and the range from 5 to 10. -/
theorem static_partition_shifted : ¬ StaticPartition 5 10 1 :=
  not_partition_positive (by decide) (by decide) (by decide) (by decide)

end EMS
