import EMS.Interleaving
import Mathlib.Algebra.BigOperators.Group.Finset.Piecewise
import Mathlib.Algebra.Order.BigOperators.Group.Finset
import Mathlib.Data.Fintype.Card

/-!
# Bulk synchronous programs

The processes of a bulk synchronous program run code between barriers.  A
barrier lets nobody go on before everybody has arrived, and then releases all.
Between two releases, a process that runs code has passed as many barriers as
there were releases, and nobody has passed more.
-/

namespace BulkSynchronous

open Interleaving

universe u

/-- A process runs code, waits in the barrier, or has been released from it. -/
inductive Status where
  | running
  | waiting
  | released
  deriving DecidableEq, Repr

/-- A process, with the number of barriers that it has left. -/
@[ext] structure Member (ℓ : Type u) where
  status : Status
  left : Nat
  state : ℓ

/-- What the processes run between barriers, when they call the barrier, and how
they go on.  `scratch` is what the barrier may do with the memory in its own
work. -/
structure Client (ι σ ℓ α : Type) where
  code : ι → σ → ℓ → α → σ → ℓ → Prop
  atBarrier : ℓ → Prop
  resume : ℓ → ℓ
  scratch : σ → σ → Prop

/-- The memory, the processes, and the number of releases. -/
@[ext] structure State (ι σ ℓ : Type) where
  shared : σ
  members : ι → Member ℓ
  round : Nat

inductive Label (ι α : Type) where
  | code (p : ι) (act : α)
  | arrive (p : ι)
  | release
  | leave (p : ι)
  | scratch

variable {ι σ ℓ α : Type} [DecidableEq ι]

/-- The steps of a bulk synchronous program. -/
inductive Client.Step (client : Client ι σ ℓ α) :
    State ι σ ℓ → Label ι α → State ι σ ℓ → Prop where
  | code {shared shared' : σ} {members : ι → Member ℓ} {round left : Nat}
      {p : ι} {act : α}
      {state state' : ℓ} : members p = ⟨.running, left, state⟩ →
      client.code p shared state act shared' state' →
      client.Step ⟨shared, members, round⟩ (.code p act)
        ⟨shared', Function.update members p ⟨.running, left, state'⟩, round⟩
  | arrive {shared : σ} {members : ι → Member ℓ} {round left : Nat} {p : ι}
      {state : ℓ} :
      members p = ⟨.running, left, state⟩ → client.atBarrier state →
      client.Step ⟨shared, members, round⟩ (.arrive p)
        ⟨shared, Function.update members p ⟨.waiting, left, state⟩, round⟩
  | release {shared : σ} {members : ι → Member ℓ} {round : Nat} :
      (∀ p, (members p).status = .waiting) →
      client.Step ⟨shared, members, round⟩ .release
        ⟨shared, fun p => { members p with status := .released }, round + 1⟩
  | leave {shared : σ} {members : ι → Member ℓ} {round left : Nat} {p : ι}
      {state : ℓ} :
      members p = ⟨.released, left, state⟩ →
      client.Step ⟨shared, members, round⟩ (.leave p)
        ⟨shared, Function.update members p
          ⟨.running, left + 1, client.resume state⟩, round⟩
  | scratch {shared shared' : σ} {members : ι → Member ℓ} {round : Nat} :
      client.scratch shared shared' →
      client.Step ⟨shared, members, round⟩ .scratch ⟨shared', members, round⟩

/-- Everybody runs code and has left no barrier. -/
def State.initial (shared : σ) (start : ι → ℓ) : State ι σ ℓ :=
  ⟨shared, fun p => ⟨.running, 0, start p⟩, 0⟩

/-- A process has left as many barriers as there were releases, or has still to
leave the last. -/
def Member.InRound (round : Nat) (member : Member ℓ) : Prop :=
  (member.status = .released ∧ member.left + 1 = round) ∨
    (member.status ≠ .released ∧ member.left = round)

/-- All processes are in the current round. -/
def State.InRound (state : State ι σ ℓ) : Prop :=
  ∀ p, (state.members p).InRound state.round

theorem Member.InRound.left_eq {round : Nat} {member : Member ℓ}
    (inRound : member.InRound round)
    (inside : member.status ≠ .released) : member.left = round := by
  rcases inRound with ⟨released, -⟩ | ⟨-, left⟩
  · exact absurd released inside
  · exact left

theorem Member.InRound.update {members : ι → Member ℓ} {round : Nat} {p : ι}
    {member : Member ℓ}
    (inRound : ∀ q, (members q).InRound round)
    (own : member.InRound round) (q : ι) :
    (Function.update members p member q).InRound round := by
  by_cases same : q = p
  · subst same
    simpa using own
  · simpa [same] using inRound q

theorem State.InRound.step {client : Client ι σ ℓ α} {state next : State ι σ ℓ}
    {label : Label ι α} (inRound : state.InRound)
    (step : client.Step state label next) :
    next.InRound := by
  cases step with
  | @code _ _ _ _ _ p _ _ _ here =>
      have own := inRound p
      simp only [here, Member.InRound] at own
      apply Member.InRound.update inRound
      simpa [Member.InRound] using own
  | @arrive _ _ _ _ p _ here =>
      have own := inRound p
      simp only [here, Member.InRound] at own
      apply Member.InRound.update inRound
      simpa [Member.InRound] using own
  | release everybody =>
      intro p
      have own := (inRound p).left_eq (by simp [everybody])
      exact .inl ⟨rfl, congrArg (· + 1) own⟩
  | @leave _ _ _ _ p _ here =>
      have own := inRound p
      simp only [here, Member.InRound] at own
      apply Member.InRound.update inRound
      simpa [Member.InRound] using own
  | scratch => exact inRound

theorem Client.invariant {client : Client ι σ ℓ α} (holds : State ι σ ℓ → Prop)
    (keeps : ∀ state label next, state.InRound → holds state →
      client.Step state label next →
      holds next)
    {shared : σ} {start : ι → ℓ} {labels : List (Label ι α)}
    {finish : State ι σ ℓ}
    (run : Run client.Step (State.initial shared start) labels finish)
    (initially : holds (State.initial shared start)) :
    finish.InRound ∧ holds finish := by
  apply run.invariant fun state => state.InRound ∧ holds state
  · rintro state label next ⟨inRound, before⟩ step
    exact ⟨inRound.step step, keeps _ _ _ inRound before step⟩
  · exact ⟨fun p => .inr ⟨by simp [State.initial], rfl⟩, initially⟩

/-! ## Histories -/

section Histories

variable {β : Type*} {needs : List β → β → Prop} {log : List β}

/-- When something happened, what it needs had happened before. -/
def Ordered (needs : List β → β → Prop) (log : List β) : Prop :=
  ∀ before event after, log = before ++ event :: after → needs before event

theorem Ordered.nil : Ordered needs [] := by
  intro before event after split
  cases before <;> cases split

theorem Ordered.append {event : β} (ordered : Ordered needs log)
    (now : needs log event) :
    Ordered needs (log ++ [event]) := by
  intro before event' after split
  rcases List.eq_nil_or_concat after with rfl | ⟨init, last, rfl⟩
  · obtain ⟨rfl, same⟩ := List.append_inj' split rfl
    rw [← List.singleton_inj.mp same]
    exact now
  · rw [List.concat_eq_append, ← List.cons_append, ← List.append_assoc] at split
    obtain ⟨earlier, -⟩ := List.append_inj' split rfl
    exact ordered before event' init earlier

theorem Ordered.earlier {event needed : β} (ordered : Ordered needs log)
    (happened : event ∈ log)
    (needing : ∀ {before}, needs before event → needed ∈ before) :
    needed ∈ log := by
  obtain ⟨before, after, rfl⟩ := List.append_of_mem happened
  exact List.mem_append_left _ (needing (ordered before event after rfl))

end Histories

/-! ## Tallies -/

section Tallies

variable {β : Type*} [Fintype ι]

/-- A number that every process has its share of. -/
def tally (weight : β → Nat) (members : ι → β) : Nat := ∑ p, weight (members p)

/-- One process changes its share. -/
theorem tally_update (weight : β → Nat) (members : ι → β) (p : ι) (member : β) :
    tally weight (Function.update members p member) + weight (members p) =
      tally weight members + weight member := by
  have before :=
    Finset.add_sum_erase Finset.univ (fun q => weight (members q))
      (Finset.mem_univ p)
  have after := Finset.add_sum_erase Finset.univ
    (fun q => weight (Function.update members p member q)) (Finset.mem_univ p)
  have others : ∑ q ∈ Finset.univ.erase p,
      weight (Function.update members p member q) =
      ∑ q ∈ Finset.univ.erase p, weight (members q) := by
    apply Finset.sum_congr rfl
    intro q erased
    rw [Function.update_of_ne (Finset.ne_of_mem_erase erased)]
  simp only [Function.update_self] at after
  unfold tally
  omega

theorem tally_update_same {weight : β → Nat} {members : ι → β} {p : ι}
    {member : β}
    (same : weight member = weight (members p)) :
    tally weight (Function.update members p member) = tally weight members := by
  have updated := tally_update weight members p member
  omega

theorem tally_others (weight : β → Nat) (members : ι → β) (p : ι) :
    ∃ others, tally weight members = others + weight (members p) ∧
      ∀ member, tally weight (Function.update members p member) =
        others + weight member := by
  have own :=
    Finset.single_le_sum (f := fun q => weight (members q))
      (fun _ _ => Nat.zero_le _)
    (Finset.mem_univ p)
  refine ⟨tally weight members - weight (members p), ?_, fun member => ?_⟩
  · exact (Nat.sub_add_cancel own).symm
  · have updated := tally_update weight members p member
    have own : weight (members p) ≤ tally weight members := own
    omega

omit [DecidableEq ι] in
theorem tally_constant {weight : β → Nat} {members : ι → β} {share : Nat}
    (everybody : ∀ p, weight (members p) = share) :
    tally weight members = Fintype.card ι * share := by
  simp [tally, everybody]

omit [DecidableEq ι] in
theorem tally_zero {weight : β → Nat} {members : ι → β}
    (nobody : ∀ p, weight (members p) = 0) : tally weight members = 0 := by
  simp [tally, nobody]

omit [DecidableEq ι] in
theorem le_tally (weight : β → Nat) (members : ι → β) (p : ι) :
    weight (members p) ≤ tally weight members :=
  Finset.single_le_sum (f := fun q => weight (members q))
    (fun _ _ => Nat.zero_le _)
    (Finset.mem_univ p)

theorem add_le_tally (weight : β → Nat) (members : ι → β) {p q : ι}
    (different : p ≠ q) :
    weight (members p) + weight (members q) ≤ tally weight members := by
  have pair : ∑ r ∈ {p, q}, weight (members r) ≤ tally weight members :=
    Finset.sum_le_sum_of_subset (Finset.subset_univ _)
  rwa [Finset.sum_pair different] at pair

omit [DecidableEq ι] in
theorem tally_le {weight : β → Nat} {members : ι → β}
    (small : ∀ member, weight member ≤ 1) :
    tally weight members ≤ Fintype.card ι := by
  have bound :=
    Finset.sum_le_card_nsmul Finset.univ (fun p => weight (members p)) 1
    (fun p _ => small (members p))
  simpa [tally] using bound

end Tallies

end BulkSynchronous
