import Mathlib

/-!
# Numbers with mixed radices

Every place of a number has a radix of its own, the place with the least weight
first.  Below the product of the radices, every number has one list of digits.
-/

namespace MixedRadix

/-- Every digit is below the radix of its place. -/
abbrev Digits (radices digits : List Int) : Prop :=
  List.Forall₂ (fun digit radix => 0 ≤ digit ∧ digit < radix) digits radices

/-- The number with the digits. -/
def number : List Int → List Int → Int
  | radix :: radices, digit :: digits => digit + radix * number radices digits
  | _, _ => 0

/-- The digits of a number. -/
def digitsOf : List Int → Int → List Int
  | [], _ => []
  | radix :: radices, n => n % radix :: digitsOf radices (n / radix)

/-- The weights of the places, if the first one has weight `unit`. -/
def weights (unit : Int) : List Int → List Int
  | [] => []
  | radix :: radices => unit :: weights (unit * radix) radices

/-- The places, each weighted. -/
def weighted : List Int → List Int → Int
  | weight :: weights, digit :: digits =>
    digit * weight + weighted weights digits
  | _, _ => 0

variable {radices digits : List Int} {unit n : Int}

theorem digits_within (within : Digits radices digits) :
    ∀ digit ∈ digits, 0 ≤ digit ∧ ∃ radix ∈ radices, digit < radix := by
  induction within with
  | nil => nofun
  | @cons digit radix digits radices inside _ induction =>
      simp only [List.mem_cons, forall_eq_or_imp, exists_eq_or_imp]
      refine ⟨⟨inside.1, .inl inside.2⟩, ?_⟩
      intro later member
      exact ⟨(induction later member).1, .inr (induction later member).2⟩

theorem weights_pos (positive : ∀ radix ∈ radices, 0 < radix)
    (least : 0 < unit) :
    ∀ weight ∈ weights unit radices, 0 < weight := by
  induction radices generalizing unit with
  | nil => nofun
  | cons radix radices induction =>
      simp only [weights, List.mem_cons, forall_eq_or_imp] at positive ⊢
      exact ⟨least, induction positive.2 (mul_pos least positive.1)⟩

theorem weighted_nonneg {weights : List Int}
    (heavy : ∀ weight ∈ weights, 0 ≤ weight)
    (nonneg : ∀ digit ∈ digits, 0 ≤ digit) : 0 ≤ weighted weights digits := by
  induction weights generalizing digits with
  | nil => exact le_rfl
  | cons weight weights induction =>
      cases digits with
      | nil => exact le_rfl
      | cons digit digits =>
          simp only [List.mem_cons, forall_eq_or_imp] at heavy nonneg
          exact add_nonneg (mul_nonneg nonneg.1 heavy.1)
            (induction heavy.2 nonneg.2)

theorem weighted_weights (digits : List Int) :
    weighted (weights unit radices) digits = unit * number radices digits := by
  induction radices generalizing unit digits with
  | nil => simp [weights, weighted, number]
  | cons radix radices induction =>
      cases digits with
      | nil => simp [weighted, number, weights]
      | cons digit digits =>
          rw [weights, weighted, number, induction]
          ring

theorem number_nonneg (within : Digits radices digits) :
    0 ≤ number radices digits := by
  induction within with
  | nil => exact le_rfl
  | cons digit _ induction =>
      have positive := digit.1.trans_lt digit.2
      have product := mul_nonneg positive.le induction
      exact add_nonneg digit.1 product

theorem number_lt (within : Digits radices digits) :
    number radices digits < radices.prod := by
  induction within with
  | nil => exact zero_lt_one
  | @cons digit radix digits radices inside _ induction =>
      rw [number, List.prod_cons]
      have positive := inside.1.trans_lt inside.2
      calc digit + radix * number radices digits
          < radix + radix * number radices digits := by linarith [inside.2]
        _ = radix * (number radices digits + 1) := by ring
        _ ≤ radix * radices.prod := by
            apply mul_le_mul_of_nonneg_left _ positive.le
            omega

theorem digitsOf_number (within : Digits radices digits) :
    digitsOf radices (number radices digits) = digits := by
  induction within with
  | nil => rfl
  | @cons digit radix digits radices inside _ induction =>
      have positive := inside.1.trans_lt inside.2
      have low : (digit + radix * number radices digits) % radix = digit := by
        rw [Int.add_mul_emod_self_left, Int.emod_eq_of_lt inside.1 inside.2]
      have high : (digit + radix * number radices digits) / radix =
          number radices digits := by
        rw [Int.add_mul_ediv_left _ _ positive.ne',
          Int.ediv_eq_zero_of_lt inside.1 inside.2,
          zero_add]
      rw [number, digitsOf, low, high, induction]

theorem digitsOf_within (positive : ∀ radix ∈ radices, 0 < radix) (n : Int) :
    Digits radices (digitsOf radices n) := by
  induction radices generalizing n with
  | nil => exact .nil
  | cons radix radices induction =>
      have first : 0 < radix := positive radix List.mem_cons_self
      refine .cons ⟨Int.emod_nonneg n first.ne', Int.emod_lt_of_pos n first⟩ ?_
      exact induction (fun radix member =>
        positive radix (List.mem_cons_of_mem _ member)) _

theorem number_digitsOf (positive : ∀ radix ∈ radices, 0 < radix)
    (inside : 0 ≤ n)
    (below : n < radices.prod) : number radices (digitsOf radices n) = n := by
  induction radices generalizing n with
  | nil =>
      have zero : number [] (digitsOf [] n) = 0 := rfl
      rw [List.prod_nil] at below
      omega
  | cons radix radices induction =>
      have first : 0 < radix := positive radix List.mem_cons_self
      rw [List.prod_cons] at below
      have quotient : n / radix < radices.prod := by
        apply Int.ediv_lt_of_lt_mul first
        rwa [mul_comm]
      rw [digitsOf, number, induction (fun radix member => positive radix
        (List.mem_cons_of_mem _ member))
          (Int.ediv_nonneg inside first.le) quotient]
      exact Int.emod_add_mul_ediv n radix

theorem number_bijOn (positive : ∀ radix ∈ radices, 0 < radix) :
    Set.BijOn (number radices) { digits | Digits radices digits }
      (Set.Ico 0 radices.prod) := by
  refine ⟨?_, ?_, ?_⟩
  · intro digits within
    exact ⟨number_nonneg within, number_lt within⟩
  · intro digits within digits' within' same
    rw [← digitsOf_number within, ← digitsOf_number within', same]
  · rintro n ⟨inside, below⟩
    exact ⟨digitsOf radices n, digitsOf_within positive n,
      number_digitsOf positive inside below⟩

end MixedRadix
