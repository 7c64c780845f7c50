import EMS.Interleaving

/-!
# Progress in fair runs

In a fair run no process that can go on without waiting for anybody is left
standing for ever.  A goal is reached when such a process brings it nearer, and
no other step takes it farther away.
-/

namespace Interleaving

variable {S ι α : Type*} {step : S → ι × α → S → Prop} {urgent : S → ι → Prop}
  {counts : α → Prop}

/-- An infinite run, that may rest.  A process that is urgent will not be so, or
it will make a step that counts. -/
structure FairRun (step : S → ι × α → S → Prop) (urgent : S → ι → Prop)
    (counts : α → Prop) (future : Nat → S) : Prop where
  advances : ∀ i, future (i + 1) = future i ∨ ∃ label,
    step (future i) label (future (i + 1))
  fair : ∀ p i, ∃ j, i ≤ j ∧ (¬ urgent (future j) p ∨
    ∃ act, counts act ∧ step (future j) (p, act) (future (j + 1)))

/-- As long as the goal is not reached there is a process that helps.  When it
steps the goal gets nearer, and when others step it gets no farther and the
process still helps. -/
structure Progress (step : S → ι × α → S → Prop) (urgent : S → ι → Prop)
    (counts : α → Prop) (inv goal : S → Prop) (helps : S → ι → Prop)
    (distance : S → Nat) : Prop where
  keeps : ∀ {state label next}, inv state → step state label next → inv next
  urgent : ∀ {state p}, helps state p → urgent state p
  somebody : ∀ {state}, inv state → ¬ goal state → ∃ p, helps state p
  nearer : ∀ {state p act next}, inv state → ¬ goal state →
    step state (p, act) next →
    distance next < distance state ∨
      distance next = distance state ∧ (counts act → ¬ helps state p) ∧
        ∀ q, helps state q → helps next q

variable {inv goal : S → Prop} {helps : S → ι → Prop} {distance : S → Nat}
  {future : Nat → S}

theorem FairRun.invariant (run : FairRun step urgent counts future)
    (keeps : ∀ {state label next}, inv state → step state label next → inv next)
    {i : Nat} (initially : inv (future i)) (d : Nat) :
    inv (future (i + d)) := by
  induction d with
  | zero => exact initially
  | succ d here =>
      rcases run.advances (i + d) with still | ⟨label, moved⟩
      · rw [← Nat.add_assoc, still]
        exact here
      · exact keeps here moved

/-- The goal is reached in a fair run. -/
theorem Progress.eventually
    (progress : Progress step urgent counts inv goal helps distance)
    (run : FairRun step urgent counts future) {i : Nat}
    (initially : inv (future i)) :
    ∃ j, i ≤ j ∧ goal (future j) := by
  -- induction on the distance of the goal
  induction far : distance (future i) using Nat.strongRecOn generalizing i with
  | _ amount induction =>
      subst far
      by_contra never
      simp only [not_exists, not_and] at never
      have here := fun d => run.invariant progress.keeps initially d
      have nearer : ∀ d, ¬ distance (future (i + d)) < distance (future i) := by
        intro d less
        obtain ⟨j, later, reached⟩ := induction _ less (here d) rfl
        exact never j (by omega) reached
      obtain ⟨p, helpful⟩ :=
        progress.somebody initially (never i (Nat.le_refl i))
      -- until `p` moves, it helps and the distance stays
      have waits : ∀ d, distance (future (i + d)) = distance (future i) ∧
          helps (future (i + d)) p := by
        intro d
        induction d with
        | zero => exact ⟨rfl, helpful⟩
        | succ d hypothesis =>
            obtain ⟨same, helpsHere⟩ := hypothesis
            rcases run.advances (i + d) with still | ⟨⟨q, act⟩, moved⟩
            · rw [← Nat.add_assoc, still]
              exact ⟨same, helpsHere⟩
            · rcases progress.nearer (here d) (never _ (by omega)) moved
                with less | ⟨equal, -, kept⟩
              · exact absurd (same ▸ less) (nearer (d + 1))
              · exact ⟨equal.trans same, kept p helpsHere⟩
      obtain ⟨j, later, moves⟩ := run.fair p i
      obtain ⟨d, rfl⟩ := Nat.exists_eq_add_of_le later
      obtain ⟨same, helpsHere⟩ := waits d
      rcases moves with calm | ⟨act, counted, moved⟩
      · exact calm (progress.urgent helpsHere)
      · rcases progress.nearer (here d) (never _ later) moved with less |
          ⟨-, counting, -⟩
        · exact nearer (d + 1) (same ▸ less)
        · exact counting counted helpsHere

end Interleaving
