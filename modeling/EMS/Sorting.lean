import Mathlib.Data.List.Basic
import Mathlib.Data.Set.Basic

/-!
# When two sorts put the same things in the same order

Two parties sort lists of their own, each with its own comparison function,
and each entry of a list names something.  The file says when any two things
that are named in both lists come out in the same order: the comparisons must
separate them, and agree on which comes first.
-/

namespace Sorting

universe u v w

section Consistency

variable {α : Type u}

/-- The comparison function is a total preorder on the items. -/
structure Consistent (order : α → α → Ordering) (items : List α) : Prop where
  refl : ∀ a ∈ items, order a a = .eq
  swap : ∀ a ∈ items, ∀ b ∈ items, order b a = (order a b).swap
  trans : ∀ a ∈ items, ∀ b ∈ items, ∀ c ∈ items,
    order a b ≠ .gt → order b c ≠ .gt → order a c ≠ .gt

def notAfter (order : α → α → Ordering) (a b : α) : Bool :=
  order a b != .gt

/-- A sort that moves nothing past its equals when the comparison function is
consistent, and that at least loses nothing when it is not. -/
structure IsStableSort (order : α → α → Ordering)
    (sort : List α → List α) : Prop where
  perm : ∀ items, (sort items).Perm items
  stable : ∀ items, Consistent order items →
    sort items = items.mergeSort (notAfter order)

/-- The first comes before the second. -/
def Precedes (items : List α) (a b : α) : Prop :=
  List.Sublist [a, b] items

theorem precedes_or {items : List α} {a b : α} (first : a ∈ items)
    (second : b ∈ items)
    (different : a ≠ b) : Precedes items a b ∨ Precedes items b a := by
  induction items with
  | nil => cases first
  | cons item items induction =>
      rcases List.mem_cons.mp first with rfl | first'
      · have later : b ∈ items := by
          simpa [Ne.symm different] using second
        exact .inl (.cons_cons _ (List.singleton_sublist.mpr later))
      · rcases List.mem_cons.mp second with rfl | second'
        · exact .inr (.cons_cons _ (List.singleton_sublist.mpr first'))
        · exact (induction first' second').imp (.cons _) (.cons _)

theorem Precedes.asymm {items : List α} {a b : α} (distinct : items.Nodup)
    (before : Precedes items a b) : ¬ Precedes items b a := by
  induction items with
  | nil => cases before
  | cons item items induction =>
      obtain ⟨fresh, rest⟩ := List.nodup_cons.mp distinct
      intro after
      cases before with
      | cons _ before =>
          cases after with
          | cons _ after => exact induction rest before after
          | cons_cons _ after =>
              exact fresh (before.subset (by simp))
      | cons_cons _ before =>
          cases after with
          | cons _ after => exact fresh (after.subset (by simp))
          | cons_cons _ after => exact fresh (before.subset (by simp))

theorem Consistent.pairwise {order : α → α → Ordering} {items : List α}
    (consistent : Consistent order items) :
    (items.mergeSort (notAfter order)).Pairwise fun a b => order a b ≠ .gt := by
  let inside : { a // a ∈ items } → { a // a ∈ items } → Bool :=
    fun a b => notAfter order a.1 b.1
  have trans : ∀ a b c, inside a b = true → inside b c = true →
      inside a c = true := by
    intro a b c first second
    simp only [inside, notAfter, bne_iff_ne] at first second ⊢
    exact consistent.trans a.1 a.2 b.1 b.2 c.1 c.2 first second
  have total : ∀ a b, (inside a b || inside b a) = true := by
    intro a b
    simp only [inside, notAfter, consistent.swap a.1 a.2 b.1 b.2]
    cases order a.1 b.1 <;> rfl
  have sorted := List.pairwise_mergeSort trans total items.attach
  have image : (items.attach.mergeSort inside).map Subtype.val =
      items.mergeSort (notAfter order) := by
    rw [List.map_mergeSort (s := notAfter order) (fun _ _ _ _ => rfl),
      List.attach_map_subtype_val]
  rw [← image, List.pairwise_map]
  apply sorted.imp
  intro a b kept
  simpa [inside, notAfter] using kept

theorem IsStableSort.precedes {order : α → α → Ordering}
    {sort : List α → List α}
    (sorts : IsStableSort order sort) {items : List α}
    (consistent : Consistent order items)
    {a b : α} (first : a ∈ items) (second : b ∈ items)
    (below : order a b = .lt) :
    Precedes (sort items) a b := by
  have different : a ≠ b := by
    rintro rfl
    rw [consistent.refl a first] at below
    cases below
  have sorted : (sort items).Pairwise fun a b => order a b ≠ .gt := by
    rw [sorts.stable items consistent]
    exact consistent.pairwise
  rcases precedes_or ((sorts.perm items).mem_iff.mpr first)
    ((sorts.perm items).mem_iff.mpr second) different with before | after
  · exact before
  · have wrong := List.pairwise_iff_forall_sublist.mp sorted after
    rw [consistent.swap a first b second, below] at wrong
    exact absurd rfl wrong

theorem IsStableSort.pair {order : α → α → Ordering} {sort : List α → List α}
    (sorts : IsStableSort order sort) {a b : α}
    (consistent : Consistent order [a, b])
    (kept : order a b ≠ .gt) : sort [a, b] = [a, b] := by
  rw [sorts.stable _ consistent]
  apply List.mergeSort_of_pairwise
  simpa [notAfter] using kept

end Consistency

section Agreement

variable {α : Type u} {β : Type v} {ν : Type w}

/-- Somebody who sorts entries, each of which names something. -/
structure Party (α : Type u) (ν : Type w) where
  name : α → ν
  order : α → α → Ordering
  sort : List α → List α
  sorts : IsStableSort order sort
  swap : ∀ a b, order b a = (order a b).swap

namespace Party

/-- A list of the party's entries that names nothing twice. -/
def Lists (party : Party α ν) (entries : Set α) (items : List α) : Prop :=
  (∀ a ∈ items, a ∈ entries) ∧ (items.map party.name).Nodup

/-- The things that a list names, in the order in which they come out. -/
def sortedNames (party : Party α ν) (items : List α) : List ν :=
  (party.sort items).map party.name

/-- The party's comparison separates the things that its entries name. -/
structure Separates (party : Party α ν) (entries : Set α) : Prop where
  consistent : ∀ items, party.Lists entries items → Consistent party.order items
  apart : ∀ a ∈ entries, ∀ b ∈ entries, party.name a ≠ party.name b →
    party.order a b ≠ .eq

theorem sortedNames_perm (party : Party α ν) (items : List α) :
    (party.sortedNames items).Perm (items.map party.name) :=
  (party.sorts.perm items).map _

theorem precedes_of_lt {party : Party α ν} {items : List α}
    (consistent : Consistent party.order items) {a b : α} (first : a ∈ items)
    (second : b ∈ items) (below : party.order a b = .lt) :
    Precedes (party.sortedNames items) (party.name a) (party.name b) :=
  (party.sorts.precedes consistent first second below).map party.name

theorem Separates.precedes_iff {party : Party α ν} {entries : Set α}
    (separates : party.Separates entries) {items : List α}
    (lists : party.Lists entries items)
    {a b : α} (first : a ∈ items) (second : b ∈ items)
    (different : party.name a ≠ party.name b) :
    Precedes (party.sortedNames items) (party.name a) (party.name b) ↔
      party.order a b = .lt := by
  have consistent := separates.consistent items lists
  constructor
  · intro before
    have distinct : (party.sortedNames items).Nodup :=
      (party.sortedNames_perm items).nodup_iff.mpr lists.2
    cases compared : party.order a b with
    | lt => rfl
    | eq =>
        exact absurd compared
          (separates.apart a (lists.1 a first) b (lists.1 b second) different)
    | gt =>
        have below : party.order b a = .lt := by
          rw [party.swap a b, compared]; rfl
        exact absurd (precedes_of_lt consistent second first below)
          (before.asymm distinct)
  · exact precedes_of_lt consistent first second

theorem order_self (party : Party α ν) (a : α) : party.order a a = .eq := by
  have swap := party.swap a a
  cases compared : party.order a a with
  | eq => rfl
  | _ => simp [compared] at swap

theorem consistent_pair (party : Party α ν) (a b : α) :
    Consistent party.order [a, b] := by
  refine ⟨fun c _ => party.order_self c, fun c _ d _ => party.swap c d, ?_⟩
  have swap := party.swap a b
  have self := party.order_self
  intro c inC d inD e inE first second
  simp only [List.mem_cons, List.not_mem_nil, or_false] at inC inD inE
  rcases inC with rfl | rfl <;> rcases inD with rfl | rfl <;>
    rcases inE with rfl | rfl <;>
    simp_all

theorem precedes_pair (party : Party α ν) {a b : α}
    (different : party.name a ≠ party.name b) :
    Precedes (party.sortedNames [a, b]) (party.name a) (party.name b) ↔
      party.order a b ≠ .gt := by
  have consistent := party.consistent_pair a b
  constructor
  · intro before after
    have below : party.order b a = .lt := by rw [party.swap a b, after]; rfl
    have distinct : (party.sortedNames [a, b]).Nodup :=
      (party.sortedNames_perm _).nodup_iff.mpr (by simpa using different)
    exact before.asymm distinct
      (precedes_of_lt consistent (by simp) (by simp) below)
  · intro kept
    rw [sortedNames, party.sorts.pair consistent kept]
    exact List.Sublist.refl _

theorem precedes_pair_swap (party : Party α ν) {a b : α}
    (different : party.name a ≠ party.name b) :
    Precedes (party.sortedNames [b, a]) (party.name a) (party.name b) ↔
      party.order a b = .lt := by
  have distinct : (party.sortedNames [b, a]).Nodup :=
    (party.sortedNames_perm _).nodup_iff.mpr (by simpa using different.symm)
  have either := @precedes_or _ (party.sortedNames [b, a]) (party.name a)
    (party.name b) ((party.sortedNames_perm _).mem_iff.mpr (by simp))
    ((party.sortedNames_perm _).mem_iff.mpr (by simp)) different
  have other := party.precedes_pair (a := b) (b := a) different.symm
  have below : party.order b a ≠ .gt ↔ party.order a b ≠ .lt := by
    rw [party.swap a b]
    cases party.order a b <;> decide
  constructor
  · intro before
    by_contra above
    exact before.asymm distinct (other.mpr (below.mpr above))
  · intro less
    rcases either with before | after
    · exact before
    · exact absurd less (below.mp (other.mp after))

/-- Whatever two lists the parties sort, any two things named in both come out
in the same order. -/
def SameOrder (first : Party α ν) (entries₁ : Set α) (second : Party β ν)
    (entries₂ : Set β) :
    Prop :=
  ∀ items₁ items₂, first.Lists entries₁ items₁ → second.Lists entries₂ items₂ →
    ∀ m n, m ≠ n → m ∈ items₁.map first.name → n ∈ items₁.map first.name →
      m ∈ items₂.map second.name → n ∈ items₂.map second.name →
      (Precedes (first.sortedNames items₁) m n ↔
        Precedes (second.sortedNames items₂) m n)

/-- The parties compare entries that name the same things alike. -/
def Agree (first : Party α ν) (entries₁ : Set α) (second : Party β ν)
    (entries₂ : Set β) : Prop :=
  ∀ a ∈ entries₁, ∀ b ∈ entries₁, ∀ a' ∈ entries₂, ∀ b' ∈ entries₂,
    first.name a = second.name a' → first.name b = second.name b' →
    first.name a ≠ first.name b → first.order a b = second.order a' b'

theorem sameOrder_of_agree {first : Party α ν} {entries₁ : Set α}
    {second : Party β ν}
    {entries₂ : Set β} (separates₁ : first.Separates entries₁)
    (separates₂ : second.Separates entries₂)
    (agree : first.Agree entries₁ second entries₂) :
    first.SameOrder entries₁ second entries₂ := by
  intro items₁ items₂ lists₁ lists₂ m n different inM₁ inN₁ inM₂ inN₂
  obtain ⟨a, inA, rfl⟩ := List.mem_map.mp inM₁
  obtain ⟨b, inB, rfl⟩ := List.mem_map.mp inN₁
  obtain ⟨a', inA', nameA⟩ := List.mem_map.mp inM₂
  obtain ⟨b', inB', nameB⟩ := List.mem_map.mp inN₂
  have different' : second.name a' ≠ second.name b' := by rwa [nameA, nameB]
  rw [separates₁.precedes_iff lists₁ inA inB different, ← nameA, ← nameB,
    separates₂.precedes_iff lists₂ inA' inB' different',
    agree a (lists₁.1 a inA) b (lists₁.1 b inB) a' (lists₂.1 a' inA') b'
      (lists₂.1 b' inB')
      nameA.symm nameB.symm different]

/-- Two pairs, each named both ways, show how the parties compare. -/
theorem SameOrder.compares {first : Party α ν} {entries₁ : Set α}
    {second : Party β ν}
    {entries₂ : Set β} (same : first.SameOrder entries₁ second entries₂)
    {a b : α} {a' b' : β}
    (inA : a ∈ entries₁) (inB : b ∈ entries₁) (inA' : a' ∈ entries₂)
    (inB' : b' ∈ entries₂)
    (nameA : first.name a = second.name a')
    (nameB : first.name b = second.name b')
    (different : first.name a ≠ first.name b) :
    first.order a b = second.order a' b' ∧ first.order a b ≠ .eq := by
  have different' : second.name a' ≠ second.name b' := by rwa [← nameA, ← nameB]
  have lists₁ : first.Lists entries₁ [a, b] ∧ first.Lists entries₁ [b, a] := by
    simp [Lists, inA, inB, different, different.symm]
  have lists₂ : second.Lists entries₂ [a', b'] ∧
      second.Lists entries₂ [b', a'] := by
    simp [Lists, inA', inB', different', different'.symm]
  have straight :=
    same [a, b] [a', b'] lists₁.1 lists₂.1 (first.name a)
      (first.name b) different
    (by simp) (by simp) (by simp [nameA]) (by simp [nameB])
  have turned :=
    same [b, a] [a', b'] lists₁.2 lists₂.1 (first.name a)
      (first.name b) different
    (by simp) (by simp) (by simp [nameA]) (by simp [nameB])
  have turned' :=
    same [a, b] [b', a'] lists₁.1 lists₂.2 (first.name a)
      (first.name b) different
    (by simp) (by simp) (by simp [nameA]) (by simp [nameB])
  rw [first.precedes_pair different, nameA, nameB,
    second.precedes_pair different'] at straight
  rw [first.precedes_pair_swap different, nameA, nameB,
    second.precedes_pair different'] at turned
  rw [first.precedes_pair different, nameA, nameB,
    second.precedes_pair_swap different'] at turned'
  cases compared : first.order a b <;> cases compared' : second.order a' b' <;>
    simp_all

end Party

end Agreement

end Sorting
