import Mathlib.Algebra.GroupWithZero.Nat
import Mathlib.Logic.Function.Basic
import Mathlib.Data.List.Basic

/-!
# Interleaved runs of processes over one shared memory

A process is a local state together with the steps it may take on the memory
it shares with the others.  A run interleaves such steps in any order.  The
file gives the two rules by which runs are reasoned about: the preservation
of an assertion that is split into one part for the memory and one part for
each process, and the transport of a run along a forward simulation.
-/

namespace Interleaving

universe u v w

/-- The processes of small systems are written as numerals. -/
instance neZero_two : NeZero 2 := ⟨Nat.succ_ne_zero 1⟩

instance neZero_three : NeZero 3 := ⟨Nat.succ_ne_zero 2⟩

section Runs

variable {S : Type u} {L : Type v}

/-- A finite run, written as the list of the labels of its steps. -/
inductive Run (step : S → L → S → Prop) (start : S) : List L → S → Prop where
  | nil : Run step start [] start
  | snoc {trace : List L} {state next : S} {label : L} :
      Run step start trace state → step state label next →
      Run step start (trace ++ [label]) next

theorem Run.mono {narrow wide : S → L → S → Prop}
    (weaken : ∀ state label next, narrow state label next →
      wide state label next)
    {start finish : S} {trace : List L}
    (run : Run narrow start trace finish) : Run wide start trace finish := by
  induction run with
  | nil => exact .nil
  | snoc _ step induction => exact .snoc induction (weaken _ _ _ step)

/-- A run whose steps, by an invariant, are steps of a narrower system. -/
theorem Run.narrow {wide narrow : S → L → S → Prop} (holds : S → Prop)
    (narrows : ∀ state label next, holds state → wide state label next →
      narrow state label next ∧ holds next)
    {start finish : S} {trace : List L}
    (run : Run wide start trace finish) (initially : holds start) :
    Run narrow start trace finish ∧ holds finish := by
  induction run with
  | nil => exact ⟨.nil, initially⟩
  | snoc _ step induction =>
      obtain ⟨before, here⟩ := induction
      obtain ⟨narrowStep, after⟩ := narrows _ _ _ here step
      exact ⟨before.snoc narrowStep, after⟩

theorem Run.map {A : Type w} {step : S → L → S → Prop}
    {partStep : A → L → A → Prop}
    (part : S → A)
    (maps : ∀ state label next, step state label next → partStep
      (part state) label (part next))
    {start finish : S} {trace : List L} (run : Run step start trace finish) :
    Run partStep (part start) trace (part finish) := by
  induction run with
  | nil => exact .nil
  | snoc _ step induction => exact induction.snoc (maps _ _ _ step)

theorem Run.cons {step : S → L → S → Prop} {start middle finish : S} {label : L}
    {trace : List L} (first : step start label middle)
    (run : Run step middle trace finish) :
    Run step start (label :: trace) finish := by
  induction run with
  | nil => exact .snoc .nil first
  | snoc _ last induction => exact induction.snoc last

theorem Run.start_of_nil {step : S → L → S → Prop} {start finish : S}
    (run : Run step start [] finish) : start = finish := by
  generalize isTrace : ([] : List L) = trace at run
  cases run with
  | nil => rfl
  | snoc => simp at isTrace

/-- A run of one step. -/
theorem Run.single {step : S → L → S → Prop} {start finish : S} {label : L}
    (run : Run step start [label] finish) : step start label finish := by
  generalize isTrace : [label] = trace at run
  cases run with
  | nil => cases isTrace
  | @snoc trace _ _ last before step =>
      have empty : trace = [] := by
        have length := congrArg List.length isTrace
        simpa using length
      subst empty
      cases isTrace
      cases before.start_of_nil
      exact step

theorem Run.append {step : S → L → S → Prop} {start middle finish : S}
    {first rest : List L}
    (before : Run step start first middle)
    (after : Run step middle rest finish) :
    Run step start (first ++ rest) finish := by
  induction after with
  | nil => rwa [List.append_nil]
  | snoc _ last induction =>
      rw [← List.append_assoc]
      exact induction.snoc last

theorem Run.invariant {step : S → L → S → Prop} (holds : S → Prop)
    (keeps : ∀ state label next,
      holds state → step state label next → holds next)
    {start finish : S} {trace : List L}
    (run : Run step start trace finish) (initially : holds start) :
    holds finish := by
  induction run with
  | nil => exact initially
  | snoc _ step induction => exact keeps _ _ _ induction step

/-- A forward simulation.  A step without an observation is matched by
standing still, a step with one by a step that shows the same observation. -/
theorem Run.simulate {A : Type w} {O : Type*}
    {step : S → L → S → Prop} {abstractStep : A → O → A → Prop}
    (observe : L → Option O) (related : S → A → Prop)
    (silent : ∀ state label next abstract, related state abstract →
      step state label next → observe label = none → related next abstract)
    (visible : ∀ state label next abstract event, related state abstract →
      step state label next → observe label = some event →
      ∃ abstractNext, abstractStep abstract event abstractNext ∧
        related next abstractNext)
    {start finish : S} {trace : List L} {abstract : A}
    (run : Run step start trace finish) (initially : related start abstract) :
    ∃ abstractFinish,
      Run abstractStep abstract (trace.filterMap observe) abstractFinish ∧
        related finish abstractFinish := by
  induction run with
  | nil => exact ⟨abstract, .nil, initially⟩
  | @snoc trace state next label _ step induction =>
      obtain ⟨middle, abstractRun, relates⟩ := induction
      cases observed : observe label with
      | none =>
          refine ⟨middle, ?_, silent _ _ _ _ relates step observed⟩
          simpa [observed] using abstractRun
      | some event =>
          obtain ⟨abstractNext, abstractStep, nextRelates⟩ :=
            visible _ _ _ _ _ relates step observed
          refine ⟨abstractNext, ?_, nextRelates⟩
          simpa [observed] using abstractRun.snoc abstractStep

end Runs

section Processes

variable {ι : Type u} {α : Type v} {σ ℓ : Type w}

/-- The shared memory and the local state of every process. -/
@[ext] structure Config (ι : Type u) (σ ℓ : Type w) where
  shared : σ
  control : ι → ℓ

variable [DecidableEq ι]

/-- One process takes one step of its program; the others stand still. -/
inductive Step (program : ι → σ → ℓ → α → σ → ℓ → Prop) :
    Config ι σ ℓ → ι × α → Config ι σ ℓ → Prop where
  | mk {config : Config ι σ ℓ} {p : ι} {label : α} {shared : σ} {control : ℓ} :
      program p config.shared (config.control p) label shared control →
      Step program config (p, label)
        ⟨shared, Function.update config.control p control⟩

/-- The memory satisfies `shared`, and every process satisfies its own
assertion, for one common choice of the auxiliary value. -/
def Holds {γ : Type*} (shared : γ → σ → Prop) (own : γ → ι → σ → ℓ → Prop)
    (config : Config ι σ ℓ) : Prop :=
  ∃ ghost, shared ghost config.shared ∧
    ∀ p, own ghost p config.shared (config.control p)

/-- Assertions survive a step when the process that moves re-establishes its
own assertion and interferes with nobody else's. -/
theorem Holds.step {γ : Type*} {shared : γ → σ → Prop}
    {own : γ → ι → σ → ℓ → Prop}
    {program : ι → σ → ℓ → α → σ → ℓ → Prop}
    (preserves : ∀ ghost p memory control label memory' control',
      shared ghost memory → own ghost p memory control →
      program p memory control label memory' control' →
      ∃ ghost', shared ghost' memory' ∧ own ghost' p memory' control' ∧
        ∀ q other, q ≠ p → own ghost q memory other →
          own ghost' q memory' other)
    {config next : Config ι σ ℓ} {label : ι × α}
    (holds : Holds shared own config) (step : Step program config label next) :
    Holds shared own next := by
  obtain ⟨ghost, sharedHolds, ownHolds⟩ := holds
  cases step with
  | @mk p label memory' control' moved =>
      obtain ⟨ghost', shared', own', others⟩ :=
        preserves ghost p _ _ _ _ _ sharedHolds (ownHolds p) moved
      refine ⟨ghost', shared', fun q => ?_⟩
      by_cases same : q = p
      · subst same
        simpa using own'
      · simpa [same] using others q _ same (ownHolds q)

/-! ## Schedules

A program whose steps can be computed is run along a schedule, the list of the
steps that the processes take. -/

section Schedules

variable {program : ι → σ → ℓ → α → σ → ℓ → Prop}
  (next : ι → σ → ℓ → α → Option (σ × ℓ))
    (allowed : Config ι σ ℓ → ι × α → Bool)

def playSteps (config : Config ι σ ℓ) : List (ι × α) → Option (Config ι σ ℓ)
  | [] => some config
  | (p, label) :: schedule =>
      if allowed config (p, label) then
        (next p config.shared (config.control p) label).bind fun moved =>
          playSteps ⟨moved.1, Function.update config.control p moved.2⟩ schedule
      else none

variable {condition : Config ι σ ℓ → ι × α → Prop}

theorem playSteps_run
    (takes : ∀ {p memory control label memory' control'},
      next p memory control label = some (memory', control') →
        program p memory control label memory' control')
    (allows : ∀ {config label}, allowed config label = true →
      condition config label)
    {config final : Config ι σ ℓ} {schedule : List (ι × α)}
    (played : playSteps next allowed config schedule = some final) :
    Run (fun config label next => condition config label ∧
      Step program config label next)
      config schedule final := by
  induction schedule generalizing config with
  | nil =>
      obtain rfl := Option.some.inj played
      exact .nil
  | cons label schedule induction =>
      obtain ⟨p, act⟩ := label
      simp only [playSteps, Option.ite_none_right_eq_some] at played
      obtain ⟨isAllowed, played⟩ := played
      obtain ⟨moved, first, rest⟩ := Option.bind_eq_some_iff.mp played
      exact .cons ⟨allows isAllowed, .mk (takes first)⟩ (induction rest)

theorem exists_run
    (takes : ∀ {p memory control label memory' control'},
      next p memory control label = some (memory', control') →
        program p memory control label memory' control')
    (allows : ∀ {config label}, allowed config label = true →
      condition config label)
    (config : Config ι σ ℓ) (schedule : List (ι × α))
    (check : Config ι σ ℓ → Bool)
    (checked : (playSteps next allowed config schedule).any check = true) :
    ∃ final, Run (fun config label next => condition config label ∧
      Step program config label next)
        config schedule final ∧ check final = true := by
  obtain ⟨final, played, holds⟩ := (Option.any_eq_true _ _).mp checked
  exact ⟨final, playSteps_run next allowed takes allows played, holds⟩

end Schedules

end Processes

end Interleaving
