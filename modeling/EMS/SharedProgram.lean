import EMS.Interleaving
import Mathlib.Logic.Relation

/-!
# Programs over a shared memory

A program is a tree of accesses to a shared memory.  Several processes run
such programs at the same time, one access at a time in any order.  A protocol
says which moves a process may make on the memory and on auxiliary state.  The
file gives the rules that show a program to keep to a protocol whatever the
others do within it, and the theorem that every run of such programs is a run
of the protocol.
-/

namespace SharedProgram

open Interleaving Relation

/-- A program that accesses memory and returns a value.  A loop that has been
unrolled as often as its bound allows ends in `spin`, which takes no further
step; a failed assertion ends in `abort`. -/
inductive Prog (Act : Type) (Reply : Act → Type) (α : Type) where
  | ret (value : α)
  | access (act : Act) (next : Reply act → Prog Act Reply α)
  | spin
  | abort

namespace Prog

variable {Act : Type} {Reply : Act → Type} {α β : Type}

def bind : Prog Act Reply α → (α → Prog Act Reply β) → Prog Act Reply β
  | ret value, rest => rest value
  | access act next, rest => access act fun reply => (next reply).bind rest
  | spin, _ => spin
  | abort, _ => abort

instance : Monad (Prog Act Reply) where
  pure := ret
  bind := bind

@[simp] theorem pure_eq (value : α) :
    (pure value : Prog Act Reply α) = ret value := rfl

@[simp] theorem ret_bind (value : α) (rest : α → Prog Act Reply β) :
    ret value >>= rest = rest value := rfl

@[simp] theorem access_bind (act : Act) (next : Reply act → Prog Act Reply α)
    (rest : α → Prog Act Reply β) :
    access act next >>= rest = access act fun reply =>
      next reply >>= rest := rfl

@[simp] theorem spin_bind (rest : α → Prog Act Reply β) :
    (spin : Prog Act Reply α) >>= rest = spin := rfl

@[simp] theorem abort_bind (rest : α → Prog Act Reply β) :
    (abort : Prog Act Reply α) >>= rest = abort := rfl

theorem map_id (prog : Prog Act Reply α) : id <$> prog = prog := by
  induction prog with
  | access act next induction => exact congrArg (access act) (funext induction)
  | _ => rfl

theorem bind_bind {γ : Type} (prog : Prog Act Reply α)
    (first : α → Prog Act Reply β)
    (second : β → Prog Act Reply γ) :
    prog >>= first >>= second = prog >>= fun value =>
      first value >>= second := by
  induction prog with
  | access act next induction => exact congrArg (access act) (funext induction)
  | _ => rfl

instance : LawfulMonad (Prog Act Reply) :=
  LawfulMonad.mk' _ map_id (fun _ _ => rfl) bind_bind

/-- The program of a single access. -/
def perform (act : Act) : Prog Act Reply (Reply act) := access act ret

@[simp] theorem perform_bind (act : Act) (rest : Reply act → Prog Act Reply β) :
    perform act >>= rest = access act rest := rfl

/-- Whatever it is answered, the program makes no access but allowed ones. -/
def Only (allowed : Act → Prop) : Prog Act Reply α → Prop
  | ret _ => True
  | access act next => allowed act ∧ ∀ reply, (next reply).Only allowed
  | spin => True
  | abort => True

theorem Only.mono {narrow wide : Act → Prop} {prog : Prog Act Reply α}
    (only : prog.Only narrow)
    (widen : ∀ act, narrow act → wide act) : prog.Only wide := by
  induction prog with
  | access act next induction =>
      exact ⟨widen act only.1, fun reply => induction reply (only.2 reply)⟩
  | _ => trivial

theorem Only.bind {allowed : Act → Prop} {prog : Prog Act Reply α}
    {rest : α → Prog Act Reply β}
    (first : prog.Only allowed) (second : ∀ value, (rest value).Only allowed) :
    (prog >>= rest).Only allowed := by
  induction prog with
  | ret value => exact second value
  | access act next induction =>
      exact ⟨first.1, fun reply => induction reply (first.2 reply)⟩
  | spin => trivial
  | abort => trivial

theorem only_perform {allowed : Act → Prop} {act : Act}
    {rest : Reply act → Prog Act Reply β}
    (may : allowed act) (second : ∀ reply, (rest reply).Only allowed) :
    (perform act >>= rest).Only allowed :=
  ⟨may, second⟩

/-- The program makes only accesses that are allowed after those it has made
before, of which `after` keeps a summary. -/
def Follows {S : Type} (allowed : S → Act → Prop)
    (after : S → (act : Act) → Reply act → S) : S → Prog Act Reply α → Prop
  | _, ret _ => True
  | summary, access act next =>
      allowed summary act ∧
        ∀ reply, (next reply).Follows allowed after (after summary act reply)
  | _, spin => True
  | _, abort => True

section Follows

variable {S : Type} {allowed : S → Act → Prop}
  {after : S → (act : Act) → Reply act → S} {summary : S}

theorem Follows.only {always : Act → Prop} {prog : Prog Act Reply α}
    (follows : prog.Follows allowed after summary)
    (allows : ∀ summary act, allowed summary act → always act) :
    prog.Only always := by
  induction prog generalizing summary with
  | access act next induction =>
      exact ⟨allows _ _ follows.1,
        fun reply => induction reply (follows.2 reply)⟩
  | _ => trivial

theorem follows_perform {act : Act} {rest : Reply act → Prog Act Reply β}
    (may : allowed summary act)
    (second : ∀ reply, (rest reply).Follows allowed after
      (after summary act reply)) :
    (perform act >>= rest).Follows allowed after summary :=
  ⟨may, second⟩

theorem Only.follows_bind {prog : Prog Act Reply α}
    {rest : α → Prog Act Reply β}
    (first : prog.Only fun act =>
      allowed summary act ∧ ∀ reply, after summary act reply = summary)
    (second : ∀ value, (rest value).Follows allowed after summary) :
    (prog >>= rest).Follows allowed after summary := by
  induction prog with
  | ret value => exact second value
  | access act next induction =>
      refine ⟨first.1.1, fun reply => ?_⟩
      rw [first.1.2 reply]
      exact induction reply (first.2 reply)
  | spin => trivial
  | abort => trivial

theorem Follows.map {f : α → β} {prog : Prog Act Reply α}
    (follows : prog.Follows allowed after summary) :
    (f <$> prog).Follows allowed after summary := by
  rw [← bind_pure_comp]
  induction prog generalizing summary with
  | access act next induction =>
      exact ⟨follows.1, fun reply => induction reply (follows.2 reply)⟩
  | _ => trivial

end Follows

/-- Whatever it is answered, the program returns only such values. -/
def Answers (post : α → Prop) : Prog Act Reply α → Prop
  | ret value => post value
  | access _ next => ∀ reply, (next reply).Answers post
  | spin => True
  | abort => True

theorem Answers.bind {first : α → Prop} {post : β → Prop}
    {prog : Prog Act Reply α}
    {rest : α → Prog Act Reply β} (answers : prog.Answers first)
    (second : ∀ value, first value → (rest value).Answers post) :
    (prog >>= rest).Answers post := by
  induction prog with
  | ret value => exact second value answers
  | access act next induction =>
      exact fun reply => induction reply (answers reply)
  | spin => trivial
  | abort => trivial

theorem answers_true {prog : Prog Act Reply α} :
    prog.Answers fun _ => True := by
  induction prog with
  | access act next induction => exact induction
  | _ => trivial

theorem answers_perform {post : β → Prop} {act : Act}
    {rest : Reply act → Prog Act Reply β}
    (next : ∀ reply, (rest reply).Answers post) :
    (perform act >>= rest).Answers post :=
  next

/-- The program that waits for ever where an assertion fails. -/
def lenient : Prog Act Reply α → Prog Act Reply α
  | ret value => ret value
  | access act next => access act fun reply => (next reply).lenient
  | spin => spin
  | abort => spin

theorem lenient_bind (prog : Prog Act Reply α) (rest : α → Prog Act Reply β) :
    (prog >>= rest).lenient = prog.lenient >>= fun value =>
    (rest value).lenient := by
  induction prog with
  | ret value => rfl
  | access act next induction => exact congrArg (access act) (funext induction)
  | spin => rfl
  | abort => rfl

end Prog

/-- Operations of processes on a shared memory.  A process may call an
operation when `admits` holds, and make an access when `permits` holds. -/
structure Machine (ι M Act : Type) (Reply : Act → Type) (Op Res : Type) where
  perform : ι → (act : Act) → M → Reply act × M
  code : ι → Op → Nat → Prog Act Reply Res
  admits : ι → Op → M → Prop
  permits : ι → Act → M → Prop

/-- What a process is doing. -/
inductive Control (Act : Type) (Reply : Act → Type) (Op Res : Type) where
  | idle
  | running (op : Op) (prog : Prog Act Reply Res)

/-- Whether a process is in no call. -/
def Control.isIdle {Act : Type} {Reply : Act → Type} {Op Res : Type} :
    Control Act Reply Op Res → Bool
  | .idle => true
  | .running _ _ => false

theorem Control.isIdle_iff {Act : Type} {Reply : Act → Type} {Op Res : Type}
    {control : Control Act Reply Op Res} :
    control.isIdle = true ↔ control = .idle := by
  cases control <;> simp [isIdle]

inductive Label (Act : Type) (Reply : Act → Type) (Op Res : Type) where
  | call (op : Op)
  | access (act : Act) (reply : Reply act)
  | ret (op : Op) (value : Res)

variable {ι M Act : Type} {Reply : Act → Type} {Op Res : Type}

/-- The steps of one process: call an operation with some bound for its loops,
make the next access, return. -/
inductive Machine.Program (machine : Machine ι M Act Reply Op Res) (p : ι) :
    M → Control Act Reply Op Res → Label Act Reply Op Res →
      M → Control Act Reply Op Res → Prop where
  | call {memory : M} (op : Op) (patience : Nat) :
      machine.admits p op memory →
      machine.Program p memory .idle (.call op) memory
        (.running op (machine.code p op patience))
  | access {memory : M} {op : Op} {act : Act}
      {next : Reply act → Prog Act Reply Res} :
      machine.permits p act memory →
      machine.Program p memory (.running op (.access act next))
        (.access act (machine.perform p act memory).1)
        (machine.perform p act memory).2
        (.running op (next (machine.perform p act memory).1))
  | ret {memory : M} {op : Op} {value : Res} :
      machine.Program p memory (.running op (.ret value)) (.ret op value)
        memory .idle

abbrev Machine.State (_ : Machine ι M Act Reply Op Res) : Type :=
  Config ι M (Control Act Reply Op Res)

/-- Any process takes any of its steps. -/
def Machine.Step [DecidableEq ι] (machine : Machine ι M Act Reply Op Res) :
    machine.State → ι × Label Act Reply Op Res → machine.State → Prop :=
  Interleaving.Step machine.Program

/-- The machine whose processes wait for ever where an assertion fails. -/
def Machine.lenient (machine : Machine ι M Act Reply Op Res) :
    Machine ι M Act Reply Op Res :=
  { machine with code :=
    fun p op patience => (machine.code p op patience).lenient }

def Control.lenient : Control Act Reply Op Res → Control Act Reply Op Res
  | .idle => .idle
  | .running op prog => .running op prog.lenient

theorem Machine.lenient_program {machine : Machine ι M Act Reply Op Res} {p : ι}
    {memory memory' : M} {control control' : Control Act Reply Op Res}
    {label : Label Act Reply Op Res}
    (step : machine.Program p memory control label memory' control') :
    machine.lenient.Program p memory control.lenient label memory'
      control'.lenient := by
  cases step with
  | call op patience admitted => exact .call op patience admitted
  | access permitted => exact .access permitted
  | ret => exact .ret

theorem Machine.lenient_step [DecidableEq ι]
    {machine : Machine ι M Act Reply Op Res}
    {config next : machine.State} {label : ι × Label Act Reply Op Res}
    (step : machine.Step config label next) :
    machine.lenient.Step
      ⟨config.shared, fun p => (config.control p).lenient⟩ label
      ⟨next.shared, fun p => (next.control p).lenient⟩ := by
  cases step with
  | @mk p label memory control moved =>
      have updated : (fun q =>
          (Function.update config.control p control q).lenient) =
          Function.update (fun q => (config.control q).lenient) p
              control.lenient :=
        funext fun q => Function.apply_update (fun _ => Control.lenient) _ _ _ q
      simp only [updated]
      exact .mk (Machine.lenient_program moved)

/-- Nobody has called anything yet. -/
def Machine.start (machine : Machine ι M Act Reply Op Res) (memory : M) :
    machine.State :=
  ⟨memory, fun _ => .idle⟩

theorem Machine.lenient_run [DecidableEq ι]
    {machine : Machine ι M Act Reply Op Res} {memory : M}
    {trace : List (ι × Label Act Reply Op Res)} {config : machine.State}
    (run : Run machine.Step (machine.start memory) trace config) :
    Run machine.lenient.Step (machine.lenient.start memory) trace
      ⟨config.shared, fun p => (config.control p).lenient⟩ := by
  induction run with
  | nil => exact .nil
  | snoc _ step induction => exact induction.snoc (Machine.lenient_step step)

/-! ## Schedules -/

/-- A choice of a scheduler for one process: call something, or go on. -/
inductive Choice (Op : Type) where
  | call (op : Op) (patience : Nat)
  | go

/-- The step that a process takes next, if it can take the chosen one. -/
def Machine.choose [DecidableEq ι] (machine : Machine ι M Act Reply Op Res)
    [∀ p op memory, Decidable (machine.admits p op memory)]
    [∀ p act memory, Decidable (machine.permits p act memory)]
    (config : machine.State) (p : ι) (choice : Choice Op) :
    Option (Label Act Reply Op Res × machine.State) :=
  match choice, config.control p with
  | .call op patience, .idle =>
      if machine.admits p op config.shared then
        some (.call op, ⟨config.shared,
          Function.update config.control p
            (.running op (machine.code p op patience))⟩)
      else none
  | .go, .running op (.access act next) =>
      if machine.permits p act config.shared then
        let result := machine.perform p act config.shared
        some (.access act result.1,
          ⟨result.2, Function.update config.control p
            (.running op (next result.1))⟩)
      else none
  | .go, .running op (.ret value) =>
      some (.ret op value,
        ⟨config.shared, Function.update config.control p .idle⟩)
  | _, _ => none

/-- The run of a schedule, if every choice in it can be taken. -/
def Machine.play [DecidableEq ι] (machine : Machine ι M Act Reply Op Res)
    [∀ p op memory, Decidable (machine.admits p op memory)]
    [∀ p act memory, Decidable (machine.permits p act memory)] :
    machine.State → List (ι × Choice Op) →
      Option (List (ι × Label Act Reply Op Res) × machine.State)
  | config, [] => some ([], config)
  | config, (p, choice) :: schedule =>
      match machine.choose config p choice with
      | none => none
      | some (label, next) =>
          (machine.play next schedule).map fun played =>
            ((p, label) :: played.1, played.2)

section Schedules

variable [DecidableEq ι] {machine : Machine ι M Act Reply Op Res}
  [∀ p op memory, Decidable (machine.admits p op memory)]
  [∀ p act memory, Decidable (machine.permits p act memory)]

theorem Machine.choose_step {config next : machine.State} {p : ι}
    {choice : Choice Op}
    {label : Label Act Reply Op Res}
    (chosen : machine.choose config p choice = some (label, next)) :
    machine.Step config (p, label) next := by
  have moves : ∀ memory control,
      machine.Program p config.shared (config.control p) label
      memory control → next =
        ⟨memory, Function.update config.control p control⟩ →
      machine.Step config (p, label) next := by
    intro memory control moved same
    rw [same]
    exact .mk moved
  cases choice with
  | call op patience =>
      cases here : config.control p with
      | idle =>
          simp only [choose, here, Option.ite_none_right_eq_some,
            Option.some.injEq,
            Prod.mk.injEq] at chosen
          obtain ⟨admitted, rfl, rfl⟩ := chosen
          exact moves _ _ (here ▸ .call op patience admitted) rfl
      | running op prog => simp [choose, here] at chosen
  | go =>
      cases here : config.control p with
      | idle => simp [choose, here] at chosen
      | running op prog =>
          cases prog with
          | access act rest =>
              simp only [choose, here, Option.ite_none_right_eq_some,
                Option.some.injEq,
                Prod.mk.injEq] at chosen
              obtain ⟨permitted, rfl, rfl⟩ := chosen
              exact moves _ _ (here ▸ .access permitted) rfl
          | ret value =>
              simp only [choose, here, Option.some.injEq,
                Prod.mk.injEq] at chosen
              obtain ⟨rfl, rfl⟩ := chosen
              exact moves _ _ (here ▸ .ret) rfl
          | spin => simp [choose, here] at chosen
          | abort => simp [choose, here] at chosen

theorem Machine.play_run {config final : machine.State}
    {schedule : List (ι × Choice Op)}
    {trace : List (ι × Label Act Reply Op Res)}
    (played : machine.play config schedule = some (trace, final)) :
    Run machine.Step config trace final := by
  induction schedule generalizing config trace with
  | nil =>
      obtain ⟨rfl, rfl⟩ := Prod.mk.inj (Option.some.inj played)
      exact .nil
  | cons choice schedule induction =>
      obtain ⟨p, choice⟩ := choice
      cases chosen : machine.choose config p choice with
      | none => simp [play, chosen] at played
      | some taken =>
          obtain ⟨label, next⟩ := taken
          simp only [play, chosen, Option.map_eq_some_iff,
            Prod.mk.injEq] at played
          obtain ⟨⟨rest, last⟩, playedRest, rfl, rfl⟩ := played
          exact .cons (choose_step chosen) (induction playedRest)

variable (machine) in
theorem Machine.exists_run (config : machine.State)
    (schedule : List (ι × Choice Op))
    (check : List (ι × Label Act Reply Op Res) × machine.State → Bool)
    (checked : (machine.play config schedule).any check = true) :
    ∃ trace final, Run machine.Step config trace final ∧
      check (trace, final) = true := by
  obtain ⟨⟨trace, final⟩, played, holds⟩ := (Option.any_eq_true _ _).mp checked
  exact ⟨trace, final, play_run played, holds⟩

end Schedules

/-! ## Protocols -/

/-- The moves that processes make on a memory together with auxiliary state,
and an invariant that the moves keep. -/
structure Protocol (ι M Act : Type) (Reply : Act → Type) (Op Res Γ : Type) where
  move : ι → Label Act Reply Op Res → Γ × M → Γ × M → Prop
  inv : Γ × M → Prop
  keeps : ∀ {p label state next}, inv state → move p label state next → inv next

namespace Protocol

variable {Γ : Type} {α β : Type} (protocol : Protocol ι M Act Reply Op Res Γ)

/-- A step of the protocol, as a step of a run. -/
def Step (state : Γ × M) (label : ι × Label Act Reply Op Res)
    (next : Γ × M) : Prop :=
  protocol.move label.1 label.2 state next

/-- A move of somebody else. -/
def Other (p : ι) (state next : Γ × M) : Prop :=
  ∃ q label, q ≠ p ∧ protocol.move q label state next

/-- Any moves of the others. -/
def Env (p : ι) : Γ × M → Γ × M → Prop := ReflTransGen (protocol.Other p)

/-- Others do not invalidate the assertion. -/
def Stable (p : ι) (assertion : Γ × M → Prop) : Prop :=
  ∀ {q label state next}, q ≠ p → protocol.inv state → assertion state →
    protocol.move q label state next → assertion next

variable {protocol}

theorem inv_env {p : ι} {state next : Γ × M} (inv : protocol.inv state)
    (env : protocol.Env p state next) : protocol.inv next := by
  induction env with
  | refl => exact inv
  | tail _ other induction =>
      obtain ⟨q, label, -, move⟩ := other
      exact protocol.keeps induction move

theorem Stable.env {p : ι} {assertion : Γ × M → Prop}
    (stable : protocol.Stable p assertion)
    {state next : Γ × M} (inv : protocol.inv state) (holds : assertion state)
    (env : protocol.Env p state next) : assertion next := by
  induction env with
  | refl => exact holds
  | tail before other induction =>
      obtain ⟨q, label, different, move⟩ := other
      exact stable different (inv_env inv before) induction move

theorem Stable.and {p : ι} {first second : Γ × M → Prop}
    (firstStable : protocol.Stable p first)
    (secondStable : protocol.Stable p second) :
    protocol.Stable p fun state => first state ∧ second state := by
  intro q label state next different inv holds move
  exact ⟨firstStable different inv holds.1 move,
    secondStable different inv holds.2 move⟩

variable (protocol) (machine : Machine ι M Act Reply Op Res)

/-- Process `p` runs the program within the protocol, whatever the others do
within it, and `post` holds of what it returns. -/
def Safe (p : ι) (post : α → Γ × M → Prop) : Prog Act Reply α → Γ × M → Prop
  | .ret value, state => ∀ next, protocol.Env p state next → post value next
  | .access act rest, state => ∀ next, protocol.Env p state next →
      machine.permits p act next.2 →
      ∃ ghost,
        protocol.move p (.access act (machine.perform p act next.2).1) next
          (ghost, (machine.perform p act next.2).2) ∧
        Safe p post (rest (machine.perform p act next.2).1)
          (ghost, (machine.perform p act next.2).2)
  | .spin, _ => True
  | .abort, _ => False

variable {protocol machine}

theorem Safe.env {p : ι} {post : α → Γ × M → Prop} {prog : Prog Act Reply α}
    {state next : Γ × M} (safe : protocol.Safe machine p post prog state)
    (env : protocol.Env p state next) :
    protocol.Safe machine p post prog next := by
  cases prog with
  | ret value => exact fun last after => safe last (env.trans after)
  | access act rest => exact fun last after => safe last (env.trans after)
  | spin => trivial
  | abort => exact safe

theorem Safe.mono {p : ι} {strong weak : α → Γ × M → Prop}
    {prog : Prog Act Reply α}
    {state : Γ × M} (safe : protocol.Safe machine p strong prog state)
    (weaken : ∀ value state, strong value state → weak value state) :
    protocol.Safe machine p weak prog state := by
  induction prog generalizing state with
  | ret value => exact fun next env => weaken value next (safe next env)
  | access act rest induction =>
      intro next env permitted
      obtain ⟨ghost, move, safeNext⟩ := safe next env permitted
      exact ⟨ghost, move, induction _ safeNext⟩
  | spin => trivial
  | abort => exact safe

theorem Safe.bind {p : ι} {middle : α → Γ × M → Prop} {post : β → Γ × M → Prop}
    {prog : Prog Act Reply α} {rest : α → Prog Act Reply β} {state : Γ × M}
    (inv : protocol.inv state)
    (safe : protocol.Safe machine p middle prog state)
    (continues : ∀ value state, protocol.inv state → middle value state →
      protocol.Safe machine p post (rest value) state) :
    protocol.Safe machine p post (prog >>= rest) state := by
  induction prog generalizing state with
  | ret value => exact continues value state inv (safe state .refl)
  | access act next induction =>
      intro later env permitted
      obtain ⟨ghost, move, safeNext⟩ := safe later env permitted
      exact ⟨ghost, move,
        induction _ (protocol.keeps (inv_env inv env) move) safeNext⟩
  | spin => trivial
  | abort => exact safe

variable (protocol machine)

/-- From every state with `pre`, process `p` runs the program within the
protocol and ends with `post`. -/
def Triple (p : ι) (pre : Γ × M → Prop) (prog : Prog Act Reply α)
    (post : α → Γ × M → Prop) : Prop :=
  ∀ state, protocol.inv state → pre state →
    protocol.Safe machine p post prog state

variable {protocol machine}

theorem Triple.pre {p : ι} {weak strong : Γ × M → Prop}
    {prog : Prog Act Reply α}
    {post : α → Γ × M → Prop}
    (triple : protocol.Triple machine p weak prog post)
    (weaken : ∀ state, protocol.inv state → strong state → weak state) :
    protocol.Triple machine p strong prog post :=
  fun state inv holds => triple state inv (weaken state inv holds)

theorem Triple.post {p : ι} {pre : Γ × M → Prop} {prog : Prog Act Reply α}
    {strong weak : α → Γ × M → Prop}
    (triple : protocol.Triple machine p pre prog strong)
    (weaken : ∀ value state, strong value state → weak value state) :
    protocol.Triple machine p pre prog weak :=
  fun state inv holds => (triple state inv holds).mono weaken

theorem Triple.of_imp {p : ι} {fact : Prop} {pre : Γ × M → Prop}
    {prog : Prog Act Reply α}
    {post : α → Γ × M → Prop}
    (known : fact → protocol.Triple machine p pre prog post) :
    protocol.Triple machine p (fun state => fact ∧ pre state) prog post :=
  fun state inv holds => known holds.1 state inv holds.2

theorem Triple.of_exists {p : ι} {κ : Type} {pre : κ → Γ × M → Prop}
    {prog : Prog Act Reply α}
    {post : α → Γ × M → Prop}
    (each : ∀ x, protocol.Triple machine p (pre x) prog post) :
    protocol.Triple machine p (fun state => ∃ x, pre x state) prog post := by
  intro state inv holds
  obtain ⟨x, holds⟩ := holds
  exact each x state inv holds

theorem Triple.spin {p : ι} {pre : Γ × M → Prop} {post : α → Γ × M → Prop} :
    protocol.Triple machine p pre .spin post :=
  fun _ _ _ => trivial

theorem Triple.ret {p : ι} {pre : Γ × M → Prop}
    {post : α → Γ × M → Prop} {value : α}
    (stable : protocol.Stable p pre)
    (ends : ∀ state, protocol.inv state → pre state → post value state) :
    protocol.Triple machine p pre (.ret value) post :=
  fun _ inv holds next env =>
    ends next (inv_env inv env) (stable.env inv holds env)

theorem Triple.access {p : ι} {pre : Γ × M → Prop} {act : Act}
    (middle : Reply act → Γ × M → Prop) {rest : Reply act → Prog Act Reply α}
    {post : α → Γ × M → Prop} (stable : protocol.Stable p pre)
    (moves : ∀ ghost memory, protocol.inv (ghost, memory) → pre
      (ghost, memory) →
      machine.permits p act memory →
      ∃ ghost',
        protocol.move p (.access act (machine.perform p act memory).1)
          (ghost, memory)
          (ghost', (machine.perform p act memory).2) ∧
        middle (machine.perform p act memory).1
          (ghost', (machine.perform p act memory).2))
    (continues : ∀ reply, protocol.Triple machine p (middle reply)
      (rest reply) post) :
    protocol.Triple machine p pre (.access act rest) post := by
  intro state inv holds next env permitted
  have invNext := inv_env inv env
  obtain ⟨ghost, move, after⟩ :=
    moves next.1 next.2 invNext (stable.env inv holds env) permitted
  exact ⟨ghost, move, continues _ _ (protocol.keeps invNext move) after⟩

theorem Triple.bind {p : ι} {pre : Γ × M → Prop} {prog : Prog Act Reply α}
    {middle : α → Γ × M → Prop} {rest : α → Prog Act Reply β}
    {post : β → Γ × M → Prop}
    (first : protocol.Triple machine p pre prog middle)
    (second : ∀ value, protocol.Triple machine p (middle value)
      (rest value) post) :
    protocol.Triple machine p pre (prog >>= rest) post :=
  fun state inv holds => (first state inv holds).bind inv second

/-- A program whose accesses all keep an assertion keeps it. -/
theorem Triple.only {p : ι} {pre : Γ × M → Prop} {allowed : Act → Prop}
    {good : α → Prop}
    {prog : Prog Act Reply α} (stable : protocol.Stable p pre)
    (moves : ∀ act, allowed act → ∀ ghost memory, protocol.inv (ghost, memory) →
      pre (ghost, memory) → machine.permits p act memory →
      ∃ ghost',
        protocol.move p (.access act (machine.perform p act memory).1)
          (ghost, memory)
          (ghost', (machine.perform p act memory).2) ∧
        pre (ghost', (machine.perform p act memory).2))
    (only : prog.Only allowed) (answers : prog.Answers good) :
    protocol.Triple machine p pre prog.lenient fun value state =>
      good value ∧ pre state := by
  induction prog with
  | ret value => exact Triple.ret stable fun _ _ holds => ⟨answers, holds⟩
  | access act next induction =>
      exact Triple.access (fun _ => pre) stable (moves act only.1)
        fun reply => induction reply (only.2 reply) (answers reply)
  | spin => exact Triple.spin
  | abort => exact Triple.spin

/-! ## Parts of the memory -/

section Parts

variable {N Δ Op' Res' : Type} (inner : Protocol ι N Act Reply Op' Res' Δ)
  (part : Machine ι N Act Reply Op' Res')
    (outer : Protocol ι M Act Reply Op Res Γ)
  (machine : Machine ι M Act Reply Op Res)

/-- A protocol for a part of the memory within one for the whole.  What the
others do to the whole, they do to the part, and the process makes the moves of
the part in the whole, where it keeps an assertion of its own. -/
structure Hosts (p : ι) (view : Γ × M → Δ × N) (own : Γ × M → Prop) : Prop where
  invariant : ∀ {state}, outer.inv state → inner.inv (view state)
  others : ∀ {q label state next}, q ≠ p → outer.inv state →
    outer.move q label state next →
    inner.Env p (view state) (view next)
  stable : outer.Stable p own
  permits : ∀ {act ghost memory}, machine.permits p act memory →
    part.permits p act (view (ghost, memory)).2
  replies : ∀ {act ghost memory},
    (machine.perform p act memory).1 =
      (part.perform p act (view (ghost, memory)).2).1
  moves : ∀ {act ghost memory ghost'}, outer.inv (ghost, memory) →
    own (ghost, memory) →
    machine.permits p act memory →
    inner.move p (.access act (part.perform p act (view (ghost, memory)).2).1)
      (view (ghost, memory))
        (ghost', (part.perform p act (view (ghost, memory)).2).2) →
    ∃ after, outer.move p (.access act (machine.perform p act memory).1)
        (ghost, memory)
        (after, (machine.perform p act memory).2) ∧
      view (after, (machine.perform p act memory).2) =
        (ghost', (part.perform p act (view (ghost, memory)).2).2) ∧
      own (after, (machine.perform p act memory).2)

variable {inner part outer machine} {p : ι} {view : Γ × M → Δ × N}
  {own : Γ × M → Prop}

theorem Hosts.env (hosts : Hosts inner part outer machine p view own)
    {state next : Γ × M}
    (inv : outer.inv state) (env : outer.Env p state next) :
    inner.Env p (view state) (view next) := by
  induction env with
  | refl => exact .refl
  | tail before other induction =>
      obtain ⟨q, label, different, move⟩ := other
      exact induction.trans (hosts.others different (inv_env inv before) move)

/-- A program that keeps to the protocol of the part keeps to that of the
whole. -/
theorem Hosts.safe (hosts : Hosts inner part outer machine p view own)
    {post : α → Δ × N → Prop}
    {prog : Prog Act Reply α} {state : Γ × M} (inv : outer.inv state)
    (holds : own state)
    (safe : inner.Safe part p post prog (view state)) :
    outer.Safe machine p
      (fun value after => own after ∧ post value (view after)) prog state := by
  induction prog generalizing state with
  | ret value =>
      intro next env
      exact ⟨Stable.env hosts.stable inv holds env, safe _ (hosts.env inv env)⟩
  | access act rest induction =>
      intro next env permitted
      have invNext := inv_env inv env
      have holdsNext := Stable.env hosts.stable inv holds env
      obtain ⟨ghost', moved, continues⟩ :=
        safe _ (hosts.env inv env) (hosts.permits permitted)
      obtain ⟨after, move, sameView, holdsAfter⟩ :=
        hosts.moves invNext holdsNext permitted moved
      have reply : (machine.perform p act next.2).1 =
          (part.perform p act (view next).2).1 := hosts.replies
      refine ⟨after, move, induction _ (outer.keeps invNext move) holdsAfter ?_⟩
      rw [sameView, reply]
      exact continues
  | spin => trivial
  | abort => exact safe

theorem Hosts.triple (hosts : Hosts inner part outer machine p view own)
    {pre : Δ × N → Prop}
    {prog : Prog Act Reply α} {post : α → Δ × N → Prop}
    (triple : inner.Triple part p pre prog post) :
    outer.Triple machine p (fun state => own state ∧ pre (view state)) prog
      fun value state => own state ∧ post value (view state) := by
  intro state inv holds
  exact hosts.safe inv holds.1 (triple _ (hosts.invariant inv) holds.2)

end Parts

end Protocol

/-! ## Parts that run undisturbed -/

/-- What a process relies on while nobody disturbs it: how the memory it knows
answers, what it is given before an access, which accesses it may make, and
whether a loop may run out of patience. -/
structure Solo (N Act : Type) (Reply : Act → Type) where
  perform : (act : Act) → N → Reply act × N
  given : Act → N → Prop
  allows : Act → Prop
  spins : Prop

namespace Solo

open Protocol

variable {N Γ α β : Type} (solo : Solo N Act Reply)

/-- Run undisturbed, the program ends with `post`. -/
def Ends (post : α → N → Prop) : Prog Act Reply α → N → Prop
  | .ret value, known => post value known
  | .access act rest, known => solo.given act known → solo.allows act ∧
      Ends post (rest (solo.perform act known).1) (solo.perform act known).2
  | .spin, _ => solo.spins
  | .abort, _ => False

/-- Run undisturbed, the program returns the value and leaves `after`. -/
def Yields (prog : Prog Act Reply α) (known : N) (value : α)
    (after : N) : Prop :=
  solo.Ends (fun returned left => returned = value ∧ left = after) prog known

variable {solo}

theorem Ends.bind {post : β → N → Prop} {prog : Prog Act Reply α}
    {rest : α → Prog Act Reply β} {known : N}
    (ends : solo.Ends (fun value after => solo.Ends post (rest value) after)
      prog known) :
    solo.Ends post (prog >>= rest) known := by
  induction prog generalizing known with
  | ret value => exact ends
  | access act next induction =>
      intro given
      exact ⟨(ends given).1, induction _ (ends given).2⟩
  | spin => exact ends
  | abort => exact ends

theorem Ends.mono {strong weak : α → N → Prop}
    {prog : Prog Act Reply α} {known : N}
    (ends : solo.Ends strong prog known)
    (weaken : ∀ value after, strong value after → weak value after) :
    solo.Ends weak prog known := by
  induction prog generalizing known with
  | ret value => exact weaken _ _ ends
  | access act next induction =>
      intro given
      exact ⟨(ends given).1, induction _ (ends given).2⟩
  | spin => exact ends
  | abort => exact ends

theorem Ends.perform {post : α → N → Prop} {act : Act}
    {rest : Reply act → Prog Act Reply α}
    {known : N}
    (ends : solo.given act known → solo.allows act ∧
      solo.Ends post (rest (solo.perform act known).1)
        (solo.perform act known).2) :
    solo.Ends post (Prog.perform act >>= rest) known :=
  ends

theorem Yields.bind {post : β → N → Prop} {prog : Prog Act Reply α}
    {rest : α → Prog Act Reply β} {known after : N} {value : α}
    (yields : solo.Yields prog known value after)
    (ends : solo.Ends post (rest value) after) :
    solo.Ends post (prog >>= rest) known := by
  apply Ends.bind
  apply Ends.mono yields
  rintro _ _ ⟨rfl, rfl⟩
  exact ends

/-! ## Calls of a process alone -/

/-- Run undisturbed, and given what it relies on, the program returns the value
and leaves `after`. -/
inductive Returns (solo : Solo N Act Reply) :
    Prog Act Reply α → N → α → N → Prop where
  | ret {value : α} {known : N} : solo.Returns (.ret value) known value known
  | access {act : Act} {next : Reply act → Prog Act Reply α} {known after : N}
      {value : α} :
      solo.given act known →
      solo.Returns (next (solo.perform act known).1) (solo.perform act known).2
        value after →
      solo.Returns (.access act next) known value after

/-- Run undisturbed, and given what it relies on, the program fails an
assertion. -/
inductive Aborts (solo : Solo N Act Reply) : Prog Act Reply α → N → Prop where
  | abort {known : N} : solo.Aborts .abort known
  | access {act : Act} {next : Reply act → Prog Act Reply α} {known : N} :
      solo.given act known →
      solo.Aborts (next (solo.perform act known).1) (solo.perform act known).2 →
      solo.Aborts (.access act next) known

theorem Ends.returns {post : α → N → Prop} {prog : Prog Act Reply α}
    {known after : N}
    {value : α} (ends : solo.Ends post prog known)
    (returns : solo.Returns prog known value after) : post value after := by
  induction returns with
  | ret => exact ends
  | access given _ induction => exact induction (ends given).2

/-- What needs nothing from others and does not run out of patience returns. -/
theorem Ends.exists_returns {perform : (act : Act) → N → Reply act × N}
    {given : Act → N → Prop}
    {allows allows' : Act → Prop} {spins' : Prop} {post : α → N → Prop}
    {prog : Prog Act Reply α}
    {known : N} (always : ∀ act known, given act known)
    (ends : Solo.Ends ⟨perform, given, allows, False⟩ post prog known) :
    ∃ value after, Solo.Returns ⟨perform, given, allows', spins'⟩ prog known
      value after ∧
      post value after := by
  induction prog generalizing known with
  | ret value => exact ⟨value, known, .ret, ends⟩
  | access act next induction =>
      obtain ⟨value, after, returned, holds⟩ :=
        induction _ (ends (always _ _)).2
      exact ⟨value, after, .access (always _ _) returned, holds⟩
  | spin => exact ends.elim
  | abort => exact ends.elim

theorem Ends.not_aborts {post : α → N → Prop}
    {prog : Prog Act Reply α} {known : N}
    (ends : solo.Ends post prog known) : ¬ solo.Aborts prog known := by
  intro aborts
  induction aborts with
  | abort => exact ends
  | access given _ induction => exact induction (ends given).2

@[simp] theorem returns_ret_iff {result value : α} {known after : N} :
    solo.Returns (.ret result) known value after ↔ value = result ∧
      after = known := by
  constructor
  · intro returned
    cases returned
    exact ⟨rfl, rfl⟩
  · rintro ⟨rfl, rfl⟩
    exact .ret

@[simp] theorem returns_access_iff {act : Act}
    {next : Reply act → Prog Act Reply α}
    {known after : N} {value : α} :
    solo.Returns (.access act next) known value after ↔ solo.given act known ∧
      solo.Returns (next (solo.perform act known).1) (solo.perform act known).2
        value after := by
  constructor
  · intro returned
    cases returned with
    | access given returned => exact ⟨given, returned⟩
  · exact fun both => .access both.1 both.2

@[simp] theorem not_returns_spin {known after : N} {value : α} :
    ¬ solo.Returns .spin known value after := nofun

@[simp] theorem not_returns_abort {known after : N} {value : α} :
    ¬ solo.Returns .abort known value after := nofun

theorem Returns.unique {prog : Prog Act Reply α} {known after after' : N}
    {value value' : α}
    (first : solo.Returns prog known value after)
    (second : solo.Returns prog known value' after') :
    value' = value ∧ after' = after := by
  induction first with
  | ret => exact returns_ret_iff.mp second
  | access _ _ induction => exact induction (returns_access_iff.mp second).2

/-- A program followed by another returns when both do. -/
theorem returns_bind_iff {prog : Prog Act Reply α} {rest : α → Prog Act Reply β}
    {known after : N}
    {value : β} :
    solo.Returns (prog >>= rest) known value after ↔
      ∃ middle between, solo.Returns prog known middle between ∧
        solo.Returns (rest middle) between value after := by
  induction prog generalizing known with
  | ret result => simp
  | access act next induction =>
      simp only [Prog.access_bind, returns_access_iff, induction, and_assoc,
        exists_and_left]
  | spin => simp
  | abort => simp

theorem Returns.bind_iff {prog : Prog Act Reply α} {rest : α → Prog Act Reply β}
    {known between after : N} {middle : α} {value : β}
    (first : solo.Returns prog known middle between) :
    solo.Returns (prog >>= rest) known value after ↔
      solo.Returns (rest middle) between value after := by
  rw [returns_bind_iff]
  constructor
  · rintro ⟨other, known', again, continued⟩
    obtain ⟨rfl, rfl⟩ := first.unique again
    exact continued
  · exact fun continued => ⟨middle, between, first, continued⟩

theorem returns_map_iff {prog : Prog Act Reply α} {f : α → β} {known after : N}
    {value : β} :
    solo.Returns (f <$> prog) known value after ↔
      ∃ result, solo.Returns prog known result after ∧ value = f result := by
  rw [← bind_pure_comp, returns_bind_iff]
  constructor
  · rintro ⟨result, between, returned, ended⟩
    obtain ⟨rfl, rfl⟩ := returns_ret_iff.mp ended
    exact ⟨result, returned, rfl⟩
  · rintro ⟨result, returned, rfl⟩
    exact ⟨result, after, returned, .ret⟩

theorem Returns.keeps {allowed : Act → Prop} {prog : Prog Act Reply α}
    {known after : N}
    {value : α} (inv : N → Prop)
    (returned : solo.Returns prog known value after)
    (only : prog.Only allowed)
    (kept : ∀ act known, allowed act → inv known → inv
      (solo.perform act known).2)
    (holds : inv known) : inv after := by
  induction returned with
  | ret => exact holds
  | access _ _ induction => exact induction (only.2 _) (kept _ _ only.1 holds)

/-- A call of an operation, with some bound for its loops, that returns. -/
inductive Call (solo : Solo N Act Reply) (code : Op → Nat → Prog Act Reply Res)
    (admits : Op → N → Prop) : N → Op × Res → N → Prop where
  | mk {op : Op} {res : Res} {known after : N} (patience : Nat) :
      admits op known →
      solo.Returns (code op patience) known res after →
      solo.Call code admits known (op, res) after

/-- Run the program, if it returns. -/
def execute (solo : Solo N Act Reply)
    [∀ act known, Decidable (solo.given act known)] :
    Prog Act Reply α → N → Option (α × N)
  | .ret value, known => some (value, known)
  | .access act next, known =>
      if solo.given act known then
        execute solo (next (solo.perform act known).1)
          (solo.perform act known).2
      else none
  | .spin, _ => none
  | .abort, _ => none

theorem execute_returns [∀ act known, Decidable (solo.given act known)]
    {prog : Prog Act Reply α} {known after : N} {value : α}
    (executed : solo.execute prog known = some (value, after)) :
    solo.Returns prog known value after := by
  induction prog generalizing known with
  | ret =>
      obtain ⟨rfl, rfl⟩ := Prod.mk.inj (Option.some.inj executed)
      exact .ret
  | access act next induction =>
      simp only [execute, Option.ite_none_right_eq_some] at executed
      exact .access executed.1 (induction _ executed.2)
  | spin => cases executed
  | abort => cases executed

/-- A program that returns as checked. -/
theorem exists_returns (solo : Solo N Act Reply)
    [∀ act known, Decidable (solo.given act known)]
    (prog : Prog Act Reply α) (known : N) (check : α × N → Bool)
    (checked : (solo.execute prog known).any check = true) :
    ∃ value after, solo.Returns prog known value after ∧
      check (value, after) = true := by
  obtain ⟨⟨value, after⟩, executed, holds⟩ :=
    (Option.any_eq_true _ _).mp checked
  exact ⟨value, after, execute_returns executed, holds⟩

/-- Call the operations one after the other, if every call is admitted and
returns. -/
def playCalls (solo : Solo N Act Reply)
    [∀ act known, Decidable (solo.given act known)]
    (code : Op → Nat → Prog Act Reply Res) (admits : Op → N → Prop)
    [∀ op known, Decidable (admits op known)] (patience : Nat) :
    N → List Op → Option (List (Op × Res) × N)
  | known, [] => some ([], known)
  | known, op :: ops =>
      if admits op known then
        match solo.execute (code op patience) known with
        | none => none
        | some (res, after) =>
            (playCalls solo code admits patience after ops).map fun played =>
              ((op, res) :: played.1, played.2)
      else none

theorem playCalls_run [∀ act known, Decidable (solo.given act known)]
    {code : Op → Nat → Prog Act Reply Res} {admits : Op → N → Prop}
    [∀ op known, Decidable (admits op known)] {patience : Nat} {known after : N}
    {ops : List Op}
    {history : List (Op × Res)}
    (played : solo.playCalls code admits patience known ops =
      some (history, after)) :
    Run (solo.Call code admits) known history after := by
  induction ops generalizing known history with
  | nil =>
      obtain ⟨rfl, rfl⟩ := Prod.mk.inj (Option.some.inj played)
      exact .nil
  | cons op ops induction =>
      simp only [playCalls, Option.ite_none_right_eq_some] at played
      obtain ⟨admitted, rest⟩ := played
      cases executed : solo.execute (code op patience) known with
      | none => simp [executed] at rest
      | some result =>
          obtain ⟨res, middle⟩ := result
          simp only [executed, Option.map_eq_some_iff, Prod.mk.injEq] at rest
          obtain ⟨⟨later, last⟩, playedRest, rfl, rfl⟩ := rest
          exact .cons (.mk patience admitted (execute_returns executed))
            (induction playedRest)

/-- Calls that can be played and end as checked give a run that does. -/
theorem exists_calls (solo : Solo N Act Reply)
    [∀ act known, Decidable (solo.given act known)]
    (code : Op → Nat → Prog Act Reply Res) (admits : Op → N → Prop)
    [∀ op known, Decidable (admits op known)] (patience : Nat) (known : N)
    (ops : List Op)
    (check : List (Op × Res) × N → Bool)
    (checked : (solo.playCalls code admits patience known ops).any
      check = true) :
    ∃ history after, Run (solo.Call code admits) known history after ∧
      check (history, after) = true := by
  obtain ⟨⟨history, after⟩, played, holds⟩ :=
    (Option.any_eq_true _ _).mp checked
  exact ⟨history, after, playCalls_run played, holds⟩

/-- What a process holds of the memory, it may work on as if undisturbed. -/
theorem triple (solo : Solo N Act Reply)
    {protocol : Protocol ι M Act Reply Op Res Γ}
    {machine : Machine ι M Act Reply Op Res} {p : ι} (held : N → Γ × M → Prop)
    (stable : ∀ known, protocol.Stable p (held known))
    (moves : ∀ act known ghost memory, protocol.inv (ghost, memory) →
      held known (ghost, memory) → machine.permits p act memory →
      solo.given act known ∧ (solo.allows act → ∃ ghost',
        protocol.move p (.access act (machine.perform p act memory).1)
          (ghost, memory)
          (ghost', (machine.perform p act memory).2) ∧
        (machine.perform p act memory).1 = (solo.perform act known).1 ∧
        held (solo.perform act known).2
          (ghost', (machine.perform p act memory).2)))
    {prog : Prog Act Reply α} {rest : α → Prog Act Reply β}
    {post : β → Γ × M → Prop}
    {known : N}
    (ends : solo.Ends
      (fun value after => protocol.Triple machine p (held after)
        (rest value) post)
      prog known) :
    protocol.Triple machine p (held known) (prog >>= rest) post := by
  induction prog generalizing known with
  | ret value => exact ends
  | access act next induction =>
      intro state inv holds later env permitted
      have invLater := inv_env inv env
      have holdsLater := Stable.env (stable known) inv holds env
      obtain ⟨given, allowed⟩ :=
        moves act known later.1 later.2 invLater holdsLater permitted
      obtain ⟨mayMake, continues⟩ := ends given
      obtain ⟨ghost, move, sameReply, after⟩ := allowed mayMake
      refine ⟨ghost, move, ?_⟩
      rw [sameReply]
      exact induction _ continues _ (protocol.keeps invLater move) after
  | spin => exact Triple.spin
  | abort => exact ends.elim

end Solo

namespace Protocol

variable {Γ : Type} {α β : Type} {protocol : Protocol ι M Act Reply Op Res Γ}
  {machine : Machine ι M Act Reply Op Res}

/-! ## Runs -/

variable (protocol machine)

/-- The operations of the machine keep to the protocol: between calls a process
satisfies `idle`, and its operations end with `post`. -/
structure Implements (idle : ι → Γ × M → Prop)
    (post : ι → Op → Res → Γ × M → Prop) :
    Prop where
  idleStable : ∀ p, protocol.Stable p (idle p)
  calls : ∀ p op patience ghost memory, protocol.inv (ghost, memory) →
    idle p (ghost, memory) → machine.admits p op memory →
    ∃ ghost', protocol.move p (.call op) (ghost, memory) (ghost', memory) ∧
      protocol.Safe machine p (post p op) (machine.code p op patience)
        (ghost', memory)
  returns : ∀ p op value ghost memory, protocol.inv (ghost, memory) →
    post p op value (ghost, memory) →
    ∃ ghost', protocol.move p (.ret op value) (ghost, memory) (ghost', memory) ∧
      idle p (ghost', memory)

/-- The process is where its control says it is. -/
def Keeps (idle : ι → Γ × M → Prop) (post : ι → Op → Res → Γ × M → Prop) (p : ι)
    (control : Control Act Reply Op Res) (state : Γ × M) : Prop :=
  match control with
  | .idle => idle p state
  | .running op prog => protocol.Safe machine p (post p op) prog state

variable {protocol machine} {idle : ι → Γ × M → Prop}
  {post : ι → Op → Res → Γ × M → Prop}

theorem Keeps.other
    (implements : protocol.Implements machine idle post) {p q : ι}
    {control : Control Act Reply Op Res} {label : Label Act Reply Op Res}
    {state next : Γ × M} (different : q ≠ p) (inv : protocol.inv state)
    (keeps : protocol.Keeps machine idle post p control state)
    (move : protocol.move q label state next) :
    protocol.Keeps machine idle post p control next := by
  cases control with
  | idle => exact implements.idleStable p different inv keeps move
  | running op prog =>
      exact Safe.env keeps (.single ⟨q, label, different, move⟩)

/-- Every run of the machine is a run of the protocol with the same labels on
the same memory. -/
theorem Implements.run [DecidableEq ι]
    (implements : protocol.Implements machine idle post)
    (ghost : Γ) {memory : M} (inv : protocol.inv (ghost, memory))
    (allIdle : ∀ p, idle p (ghost, memory))
    {trace : List (ι × Label Act Reply Op Res)} {config : machine.State}
    (run : Run machine.Step (machine.start memory) trace config) :
    ∃ ghost', Run protocol.Step (ghost, memory) trace (ghost', config.shared) ∧
      protocol.inv (ghost', config.shared) ∧
      ∀ p, protocol.Keeps machine idle post p (config.control p)
        (ghost', config.shared) := by
  induction run with
  | nil => exact ⟨ghost, .nil, inv, allIdle⟩
  | @snoc trace config next label _ step induction =>
      obtain ⟨ghost', abstractRun, invHere, everybody⟩ := induction
      cases step with
      | @mk p label memory' control' moved =>
          have here := everybody p
          -- the mover finds its move, and the others are not disturbed by it
          suffices found : ∃ ghost'',
              protocol.move p label (ghost', config.shared) (ghost'', memory') ∧
              protocol.Keeps machine idle post p control' (ghost'', memory') by
            obtain ⟨ghost'', move, keepsMover⟩ := found
            refine ⟨ghost'', abstractRun.snoc move, protocol.keeps invHere move,
              fun q => ?_⟩
            by_cases same : q = p
            · subst same
              simpa using keepsMover
            · simpa [same] using
                Keeps.other implements (Ne.symm same) invHere (everybody q) move
          generalize config.control p = control at moved here
          cases moved with
          | call op patience admitted =>
              exact implements.calls p op patience ghost' _ invHere
                here admitted
          | access permitted => exact here _ .refl permitted
          | @ret op value =>
              exact implements.returns p op value ghost' _ invHere
                (here _ .refl)

/-- No run of the machine fails an assertion. -/
theorem Implements.never_aborts [DecidableEq ι]
    (implements : protocol.Implements machine idle post)
    (ghost : Γ) {memory : M} (inv : protocol.inv (ghost, memory))
    (allIdle : ∀ p, idle p (ghost, memory))
    {trace : List (ι × Label Act Reply Op Res)} {config : machine.State}
    (run : Run machine.Step (machine.start memory) trace config)
    (p : ι) (op : Op) :
    config.control p ≠ .running op .abort := by
  intro aborted
  obtain ⟨ghost', -, -, everybody⟩ := implements.run ghost inv allIdle run
  have here := everybody p
  rw [aborted] at here
  exact here

end Protocol

end SharedProgram
