import EMS.SharedProgram

/-!
# Programs one after the other

A process rests in a state, from which it may start one of several programs, and
a program returns the state in which the process rests next.  What a process has
been told before thus decides what it does.  The file gives the theorem that
every run of such processes keeps to a protocol to which their programs keep.
-/

namespace SharedProgram

open Interleaving Relation

/-- The programs that a process may start from the states in which it rests, by
the choice that it makes. -/
structure Workflow (ι Act : Type) (Reply : Act → Type) (S C : Type) where
  code : ι → S → C → Option (Prog Act Reply S)

/-- Where a process rests, or what is left of the program that it runs. -/
inductive Stage (Act : Type) (Reply : Act → Type) (S : Type) where
  | resting (state : S)
  | running (prog : Prog Act Reply S)

inductive StageLabel (S : Type) where
  | start
  | access
  | rest (state : S)

variable {ι M Act : Type} {Reply : Act → Type} {Op Res S C : Type}

/-- The steps of one process. -/
inductive Workflow.Program (workflow : Workflow ι Act Reply S C)
    (machine : Machine ι M Act Reply Op Res) (p : ι) :
    M → Stage Act Reply S → StageLabel S → M → Stage Act Reply S → Prop where
  | start {memory : M} {state : S} {prog : Prog Act Reply S} (choice : C) :
      workflow.code p state choice = some prog →
      workflow.Program machine p memory (.resting state) .start memory
        (.running prog)
  | access {memory : M} {act : Act} {next : Reply act → Prog Act Reply S} :
      machine.permits p act memory →
      workflow.Program machine p memory (.running (.access act next)) .access
        (machine.perform p act memory).2
        (.running (next (machine.perform p act memory).1))
  | rest {memory : M} {state : S} :
      workflow.Program machine p memory (.running (.ret state))
        (.rest state) memory
        (.resting state)

abbrev WorkState (ι M Act : Type) (Reply : Act → Type) (S : Type) : Type :=
  Config ι M (Stage Act Reply S)

/-- Any process takes any of its steps. -/
def Workflow.Step [DecidableEq ι] (workflow : Workflow ι Act Reply S C)
    (machine : Machine ι M Act Reply Op Res) :
    WorkState ι M Act Reply S → ι × StageLabel S →
      WorkState ι M Act Reply S → Prop :=
  Interleaving.Step (workflow.Program machine)

/-! ## Schedules -/

section Schedules

variable [DecidableEq ι] (workflow : Workflow ι Act Reply S C)
  (machine : Machine ι M Act Reply Op Res)
  [∀ p act memory, Decidable (machine.permits p act memory)]

/-- The step that a process takes next: it starts what it has chosen, or goes
on. -/
def Workflow.choose (config : WorkState ι M Act Reply S) (p : ι)
    (choice : Option C) :
    Option (StageLabel S × WorkState ι M Act Reply S) :=
  match choice, config.control p with
  | some choice, .resting state =>
      (workflow.code p state choice).map fun prog =>
        (.start, ⟨config.shared,
          Function.update config.control p (.running prog)⟩)
  | none, .running (.access act next) =>
      if machine.permits p act config.shared then
        let result := machine.perform p act config.shared
        some (.access, ⟨result.2,
          Function.update config.control p (.running (next result.1))⟩)
      else none
  | none, .running (.ret state) =>
      some (.rest state,
        ⟨config.shared, Function.update config.control p (.resting state)⟩)
  | _, _ => none

/-- The run of a schedule, if every choice in it can be taken and every step is
allowed. -/
def Workflow.play (allowed : WorkState ι M Act Reply S → ι →
    WorkState ι M Act Reply S → Bool) :
    WorkState ι M Act Reply S → List (ι × Option C) →
      Option (List (ι × StageLabel S) × WorkState ι M Act Reply S)
  | config, [] => some ([], config)
  | config, (p, choice) :: schedule =>
      match workflow.choose machine config p choice with
      | none => none
      | some (label, next) =>
          if allowed config p next then
            (play allowed next schedule).map fun played =>
              ((p, label) :: played.1, played.2)
          else none

variable {workflow machine}

theorem Workflow.choose_step {config next : WorkState ι M Act Reply S} {p : ι}
    {choice : Option C} {label : StageLabel S}
    (chosen : workflow.choose machine config p choice = some (label, next)) :
    workflow.Step machine config (p, label) next := by
  have moves : ∀ memory control,
      workflow.Program machine p config.shared (config.control p) label
      memory control → next =
        ⟨memory, Function.update config.control p control⟩ →
      workflow.Step machine config (p, label) next := by
    intro memory control moved same
    rw [same]
    exact .mk moved
  cases here : config.control p with
  | resting state =>
      cases choice with
      | none => simp [choose, here] at chosen
      | some choice =>
          simp only [choose, here, Option.map_eq_some_iff,
            Prod.mk.injEq] at chosen
          obtain ⟨prog, offered, rfl, rfl⟩ := chosen
          exact moves _ _ (here ▸ .start choice offered) rfl
  | running prog =>
      cases choice with
      | some choice => simp [choose, here] at chosen
      | none =>
          cases prog with
          | access act rest =>
              simp only [choose, here, Option.ite_none_right_eq_some,
                Option.some.injEq,
                Prod.mk.injEq] at chosen
              obtain ⟨permitted, rfl, rfl⟩ := chosen
              exact moves _ _ (here ▸ .access permitted) rfl
          | ret state =>
              simp only [choose, here, Option.some.injEq,
                Prod.mk.injEq] at chosen
              obtain ⟨rfl, rfl⟩ := chosen
              exact moves _ _ (here ▸ .rest) rfl
          | spin => simp [choose, here] at chosen
          | abort => simp [choose, here] at chosen

variable {allowed : WorkState ι M Act Reply S → ι →
  WorkState ι M Act Reply S → Bool}

theorem Workflow.play_run {config final : WorkState ι M Act Reply S}
    {schedule : List (ι × Option C)} {trace : List (ι × StageLabel S)}
    (played : workflow.play machine allowed config schedule =
      some (trace, final)) :
    Run (fun config label next =>
      allowed config label.1 next = true ∧
        workflow.Step machine config label next)
      config trace final := by
  induction schedule generalizing config trace with
  | nil =>
      obtain ⟨rfl, rfl⟩ := Prod.mk.inj (Option.some.inj played)
      exact .nil
  | cons choice schedule induction =>
      obtain ⟨p, choice⟩ := choice
      cases chosen : workflow.choose machine config p choice with
      | none => simp [play, chosen] at played
      | some taken =>
          obtain ⟨label, next⟩ := taken
          simp only [play, chosen, Option.ite_none_right_eq_some,
            Option.map_eq_some_iff,
            Prod.mk.injEq] at played
          obtain ⟨isAllowed, ⟨rest, last⟩, playedRest, rfl, rfl⟩ := played
          exact .cons ⟨isAllowed, choose_step chosen⟩ (induction playedRest)

variable (workflow machine allowed) in
theorem Workflow.exists_run_where (config : WorkState ι M Act Reply S)
    (schedule : List (ι × Option C))
    (check : List (ι × StageLabel S) × WorkState ι M Act Reply S → Bool)
    (checked : (workflow.play machine allowed config schedule).any
      check = true) :
    ∃ trace final, Run (fun config label next =>
        allowed config label.1 next = true ∧
          workflow.Step machine config label next)
        config trace final ∧
      check (trace, final) = true := by
  obtain ⟨⟨trace, final⟩, played, holds⟩ := (Option.any_eq_true _ _).mp checked
  exact ⟨trace, final, play_run played, holds⟩

variable (workflow machine) in
theorem Workflow.exists_run (config : WorkState ι M Act Reply S)
    (schedule : List (ι × Option C))
    (check : List (ι × StageLabel S) × WorkState ι M Act Reply S → Bool)
    (checked : (workflow.play machine (fun _ _ _ => true) config schedule).any
      check = true) :
    ∃ trace final, Run (workflow.Step machine) config trace final ∧
      check (trace, final) = true := by
  obtain ⟨trace, final, run, holds⟩ :=
    workflow.exists_run_where machine (fun _ _ _ => true) config schedule
      check checked
  exact ⟨trace, final, run.mono fun _ _ _ step => step.2, holds⟩

end Schedules

/-! ## Protocols -/

namespace Protocol

variable {Γ : Type} (protocol : Protocol ι M Act Reply Op Res Γ)

/-- A move of anybody. -/
def Any (state next : Γ × M) : Prop :=
  ∃ p label, protocol.move p label state next

/-- Any moves of anybody. -/
def Moves : Γ × M → Γ × M → Prop := ReflTransGen protocol.Any

variable (machine : Machine ι M Act Reply Op Res)
  (workflow : Workflow ι Act Reply S C)

/-- The programs of the processes keep to the protocol and end where the
assertion about the state holds in which the process rests then. -/
structure Guides (rests : ι → S → Γ × M → Prop) : Prop where
  stable : ∀ p state, protocol.Stable p (rests p state)
  triples : ∀ p state choice prog, workflow.code p state choice = some prog →
    protocol.Triple machine p (rests p state) prog (rests p)

/-- The process is where its stage says it is. -/
def AtStage (rests : ι → S → Γ × M → Prop) (p : ι) (state : Γ × M) :
    Stage Act Reply S → Prop
  | .resting resting => rests p resting state
  | .running prog => protocol.Safe machine p (rests p) prog state

/-- The memory is in order, and everybody is where he should be. -/
structure Covers (rests : ι → S → Γ × M → Prop) (ghost : Γ)
    (config : WorkState ι M Act Reply S) : Prop where
  inv : protocol.inv (ghost, config.shared)
  stages : ∀ p, protocol.AtStage machine rests p (ghost, config.shared)
    (config.control p)

variable {protocol machine workflow} {rests : ι → S → Γ × M → Prop}

theorem AtStage.other
    (guides : protocol.Guides machine workflow rests) {p q : ι}
    {stage : Stage Act Reply S} {label : Label Act Reply Op Res}
    {state next : Γ × M}
    (different : q ≠ p) (inv : protocol.inv state)
    (here : protocol.AtStage machine rests p state stage)
    (move : protocol.move q label state next) :
    protocol.AtStage machine rests p next stage := by
  cases stage with
  | resting resting => exact guides.stable p resting different inv here move
  | running prog => exact Safe.env here (.single ⟨q, label, different, move⟩)

/-- A step is a move, or leaves everything as it is. -/
theorem Covers.step [DecidableEq ι]
    (guides : protocol.Guides machine workflow rests) {ghost : Γ}
    {config next : WorkState ι M Act Reply S} {p : ι} {label : StageLabel S}
    (covers : protocol.Covers machine rests ghost config)
    (step : workflow.Step machine config (p, label) next) :
    ∃ ghost', protocol.Covers machine rests ghost' next ∧
      protocol.Moves (ghost, config.shared) (ghost', next.shared) ∧
      ∀ state, label = .rest state → rests p state (ghost', next.shared) := by
  obtain ⟨inv, stages⟩ := covers
  have stay : ∀ stage,
      protocol.AtStage machine rests p (ghost, config.shared) stage →
      protocol.Covers machine rests ghost
        ⟨config.shared, Function.update config.control p stage⟩ := by
    intro stage here
    refine ⟨inv, fun q => ?_⟩
    by_cases same : q = p
    · subst same
      simpa using here
    · simpa [same] using stages q
  cases step with
  | @mk _ _ memory' control' moved =>
      have here := stages p
      generalize config.control p = control at moved here
      cases moved with
      | start choice offered =>
          refine ⟨ghost, stay _ ?_, .refl, fun _ wrong => nomatch wrong⟩
          exact guides.triples p _ choice _ offered _ inv here
      | @access act rest permitted =>
          obtain ⟨ghost', move, safe⟩ := here _ .refl permitted
          refine ⟨ghost', ⟨protocol.keeps inv move, fun q => ?_⟩,
            .single ⟨p, _, move⟩,
            fun _ wrong => nomatch wrong⟩
          by_cases same : q = p
          · subst same
            simp only [Function.update_self]
            exact safe
          · simpa [same] using AtStage.other guides (Ne.symm same) inv
              (stages q) move
      | @rest state =>
          have rested := here _ .refl
          refine ⟨ghost, stay _ rested, .refl, ?_⟩
          intro state' same
          obtain rfl := StageLabel.rest.inj same
          exact rested

/-- A step that changes the memory is a move of the process. -/
theorem Covers.moved [DecidableEq ι] {ghost : Γ}
    {config next : WorkState ι M Act Reply S} {p : ι}
    {label : StageLabel S} (covers : protocol.Covers machine rests ghost config)
    (step : workflow.Step machine config (p, label) next) :
    next.shared = config.shared ∨
      ∃ ghost' label, protocol.move p label (ghost, config.shared)
        (ghost', next.shared) := by
  have here := covers.stages p
  cases step with
  | @mk _ _ memory' control' moved =>
      generalize config.control p = control at moved here
      cases moved with
      | start => exact .inl rfl
      | access permitted =>
          obtain ⟨ghost', move, -⟩ := here _ .refl permitted
          exact .inr ⟨ghost', _, move⟩
      | rest => exact .inl rfl

/-- A run consists of moves, and what a process is told in it held when it was
told. -/
theorem Covers.run [DecidableEq ι]
    (guides : protocol.Guides machine workflow rests) {ghost : Γ}
    {config final : WorkState ι M Act Reply S} {trace : List (ι × StageLabel S)}
    (covers : protocol.Covers machine rests ghost config)
    (run : Run (workflow.Step machine) config trace final) :
    ∃ ghost', protocol.Covers machine rests ghost' final ∧
      protocol.Moves (ghost, config.shared) (ghost', final.shared) ∧
      ∀ p state, (p, StageLabel.rest state) ∈ trace → ∃ told,
        protocol.inv told ∧
        rests p state told ∧ protocol.Moves told (ghost', final.shared) := by
  induction run with
  | nil => exact ⟨ghost, covers, .refl, fun _ _ member => nomatch member⟩
  | @snoc trace middle next label _ step induction =>
      obtain ⟨ghost', covered, moves, history⟩ := induction
      obtain ⟨p, label⟩ := label
      obtain ⟨ghost'', covered', moved, rested⟩ := covered.step guides step
      refine ⟨ghost'', covered', moves.trans moved, ?_⟩
      intro q state member
      rcases List.mem_append.mp member with earlier | last
      · obtain ⟨told, inv, rest, since⟩ := history q state earlier
        exact ⟨told, inv, rest, since.trans moved⟩
      · obtain ⟨rfl, rfl⟩ := Prod.mk.inj (List.mem_singleton.mp last)
        exact ⟨_, covered'.inv, rested state rfl, .refl⟩

end Protocol

end SharedProgram
