/-
# Theory.Interleaving -- agents that take atomic steps one at a time

An interleaved system says what the step of a label does in a state, `none` while
that step cannot be taken.  Who moves next is free: a run is any list of labels
whose steps can be taken one after the other, so a statement about every reached
state is a statement about every interleaving.

`Reaches` collects the states that runs arrive at whose steps all meet a condition
`admits` on the state before the step; `fun _ _ => True` admits every run.
`Reaches.invariant` is the induction every such statement goes through and
`reaches_run` turns a concrete schedule into a reached state.

What a shared counter counts is the `population` of the agents in some phase.  One
lemma says how the move of one agent changes it (`population_update`).
-/
import Mathlib.Algebra.BigOperators.Group.Finset.Basic
import Mathlib.Data.BitVec
import Mathlib.Data.Fintype.Card
import Mathlib.Data.Fintype.EquivFin
import Mathlib.Logic.Function.Basic

namespace SnitchCluster.Theory

universe u v

/-- What the step of a label does, `none` while it cannot be taken. -/
structure Interleaving (State : Type u) (Label : Type v) where
  step : Label → State → Option State

namespace Interleaving

variable {State : Type u} {Label : Type v} (M : Interleaving State Label)

/-- `M.Reaches admits start s`: some run from `start`, every step of which `admits`
allows, ends in `s`. -/
inductive Reaches (admits : State → Label → Prop) (start : State) : State → Prop
  | start : Reaches admits start start
  | step {s t : State} {l : Label} (before : Reaches admits start s) (admitted : admits s l)
      (taken : M.step l s = some t) : Reaches admits start t

/-- Every run is allowed. -/
abbrev Reachable (start : State) : State → Prop := M.Reaches (fun _ _ => True) start

variable {M}

/-- **The invariant rule.** -/
theorem Reaches.invariant {admits : State → Label → Prop} {start : State} (Inv : State → Prop)
    (base : Inv start)
    (step : ∀ s l t, Inv s → admits s l → M.step l s = some t → Inv t)
    {s : State} (reached : M.Reaches admits start s) : Inv s := by
  induction reached with
  | start => exact base
  | step before admitted taken ih => exact step _ _ _ ih admitted taken

/-- A condition that allows more reaches more. -/
theorem Reaches.mono {admits admits' : State → Label → Prop} {start s : State}
    (reached : M.Reaches admits start s) (allows : ∀ s l, admits s l → admits' s l) :
    M.Reaches admits' start s := by
  induction reached with
  | start => exact .start
  | step before admitted taken ih => exact ih.step (allows _ _ admitted) taken

variable (M)

/-- The state after a schedule, `none` if one of its steps cannot be taken. -/
def run (s : State) : List Label → Option State
  | [] => some s
  | l :: rest => (M.step l s).bind fun t => run t rest

/-- Every step along a schedule is allowed. -/
def Admits (admits : State → Label → Prop) (s : State) : List Label → Prop
  | [] => True
  | l :: rest => admits s l ∧ ∀ t ∈ M.step l s, Admits admits t rest

instance decidableAdmits (admits : State → Label → Prop)
    [decide : ∀ s l, Decidable (admits s l)] : ∀ s schedule, Decidable (M.Admits admits s schedule)
  | _, [] => isTrue trivial
  | s, l :: rest =>
    have after : Decidable (∀ t ∈ M.step l s, M.Admits admits t rest) :=
      match M.step l s with
      | none => isTrue fun _ never => by cases never
      | some t =>
        match decidableAdmits admits t rest with
        | isTrue holds => isTrue fun _ here => by cases here; exact holds
        | isFalse fails => isFalse fun all => fails (all t rfl)
    @instDecidableAnd _ _ (decide s l) after

theorem reaches_run_from {admits : State → Label → Prop} {start s t : State}
    (reached : M.Reaches admits start s) (schedule : List Label)
    (admitted : M.Admits admits s schedule) (ran : M.run s schedule = some t) :
    M.Reaches admits start t := by
  induction schedule generalizing s with
  | nil =>
    cases ran
    exact reached
  | cons l rest ih =>
    obtain ⟨next, taken, ran⟩ := Option.bind_eq_some_iff.mp ran
    exact ih (reached.step admitted.1 taken) (admitted.2 next taken) ran

/-- A concrete schedule, allowed step by step, reaches the state it ends in. -/
theorem reaches_run {admits : State → Label → Prop} {start t : State} (schedule : List Label)
    (admitted : M.Admits admits start schedule) (ran : M.run start schedule = some t) :
    M.Reaches admits start t :=
  M.reaches_run_from .start schedule admitted ran

theorem admits_true (s : State) (schedule : List Label) : M.Admits (fun _ _ => True) s schedule := by
  induction schedule generalizing s with
  | nil => exact trivial
  | cons l rest ih => exact ⟨trivial, fun t _ => ih t⟩

theorem reachable_run {start t : State} (schedule : List Label)
    (ran : M.run start schedule = some t) : M.Reachable start t :=
  M.reaches_run schedule (M.admits_true start schedule) ran

end Interleaving

/-- What holds of the agent that has moved and held of the others holds of all. -/
theorem forall_update {ι : Type u} {Local : Type v} [DecidableEq ι] {loc : ι → Local} {i : ι}
    {x : Local} (P : ι → Local → Prop) (here : P i x) (others : ∀ j, j ≠ i → P j (loc j)) :
    ∀ j, P j (Function.update loc i x j) :=
  (Function.forall_update_iff loc P).mpr ⟨here, others⟩

/-! ## How many agents are in a phase -/

section Population

variable {ι : Type u} {Local : Type v} [Fintype ι] (p : ι → Local → Prop)
  [∀ i, DecidablePred (p i)]

/-- The number of agents whose local state satisfies `p`. -/
def population (loc : ι → Local) : Nat := (Finset.univ.filter fun i => p i (loc i)).card

variable {p} {loc loc' : ι → Local}

theorem population_congr {q : ι → Local → Prop} [∀ i, DecidablePred (q i)]
    (same : ∀ i, p i (loc i) ↔ q i (loc' i)) : population p loc = population q loc' :=
  congrArg Finset.card (Finset.filter_congr fun i _ => same i)

theorem population_le : population p loc ≤ Fintype.card ι :=
  Finset.card_le_univ _

theorem population_eq_zero : population p loc = 0 ↔ ∀ i, ¬p i (loc i) := by
  rw [population, Finset.card_eq_zero, Finset.filter_eq_empty_iff]
  simp

theorem population_eq_card : population p loc = Fintype.card ι ↔ ∀ i, p i (loc i) := by
  rw [population, Finset.card_eq_iff_eq_univ, Finset.filter_eq_self]
  simp

theorem population_lt {i : ι} (out : ¬p i (loc i)) : population p loc < Fintype.card ι := by
  refine Nat.lt_of_le_of_ne population_le fun full => out ?_
  exact population_eq_card.mp full i

/-- A counter that counts every agent. -/
theorem counter_full {w n : Nat} {c : BitVec w} (was : c = BitVec.ofNat w (population p loc))
    (full : c = BitVec.ofNat w n) (card : Fintype.card ι = n) (small : n < 2 ^ w) :
    ∀ i, p i (loc i) := by
  have le : population p loc ≤ Fintype.card ι := population_le
  have same := congrArg BitVec.toNat (was.symm.trans full)
  rw [BitVec.toNat_ofNat, BitVec.toNat_ofNat, Nat.mod_eq_of_lt (by omega), Nat.mod_eq_of_lt small]
    at same
  exact population_eq_card.mp (same.trans card.symm)

variable [DecidableEq ι]

/-- **One agent moves.** -/
theorem population_update (loc : ι → Local) (i : ι) (x : Local) :
    population p (Function.update loc i x) + (if p i (loc i) then 1 else 0) =
      population p loc + if p i x then 1 else 0 := by
  have others : ∀ loc : ι → Local, population p loc =
      ((Finset.univ.erase i).filter fun j => p j (loc j)).card + if p i (loc i) then 1 else 0 := by
    intro loc
    rw [population, ← Finset.insert_erase (Finset.mem_univ i), Finset.filter_insert]
    split
    · rw [Finset.card_insert_of_notMem (by simp)]
      simp
    · simp
  have rest : ((Finset.univ.erase i).filter fun j => p j (Function.update loc i x j)) =
      (Finset.univ.erase i).filter fun j => p j (loc j) := by
    apply Finset.filter_congr
    intro j away
    rw [Function.update_of_ne (Finset.ne_of_mem_erase away)]
  rw [others loc, others (Function.update loc i x), rest, Function.update_self]
  omega

/-- A counter that moves as the agent does. -/
theorem counter_update {w : Nat} {c c' : BitVec w} {loc : ι → Local} {i : ι} {x : Local}
    (was : c = BitVec.ofNat w (population p loc))
    (moves : c' + (if p i (loc i) then 1 else 0) = c + if p i x then 1 else 0) :
    c' = BitVec.ofNat w (population p (Function.update loc i x)) := by
  have counted := congrArg (BitVec.ofNat w) (population_update (p := p) loc i x)
  rw [BitVec.ofNat_add, BitVec.ofNat_add, ← was] at counted
  have bit : ∀ q : Prop, [Decidable q] → BitVec.ofNat w (if q then 1 else 0) = if q then 1 else 0 := by
    intro q _
    split <;> rfl
  rw [bit, bit, ← moves] at counted
  exact (BitVec.add_left_inj _).mp counted.symm

section Among

variable (among : ι → Prop) [DecidablePred among] {i : ι}

theorem phase_subset (out : ¬p i (loc i)) (within : ∀ j, p j (loc j) → among j) :
    (Finset.univ.filter fun j => p j (loc j)) ⊆ (Finset.univ.filter among).erase i := by
  intro j here
  have holds := (Finset.mem_filter.mp here).2
  refine Finset.mem_erase.mpr ⟨?_, Finset.mem_filter.mpr ⟨Finset.mem_univ j, within j holds⟩⟩
  rintro rfl
  exact out holds

/-- A member that is not in the phase. -/
theorem population_lt_among (inside : among i) (out : ¬p i (loc i))
    (within : ∀ j, p j (loc j) → among j) : population p loc < (Finset.univ.filter among).card := by
  have member : i ∈ Finset.univ.filter among := Finset.mem_filter.mpr ⟨Finset.mem_univ i, inside⟩
  refine Nat.lt_of_le_of_lt (Finset.card_le_card (phase_subset among out within)) ?_
  exact Finset.card_erase_lt_of_mem member

/-- If all that may be in the phase but one make up all but one of them, every other is there. -/
theorem population_others (inside : among i) (out : ¬p i (loc i))
    (within : ∀ j, p j (loc j) → among j)
    (one : (Finset.univ.filter among).card ≤ population p loc + 1) :
    ∀ j, among j → j ≠ i → p j (loc j) := by
  have member : i ∈ Finset.univ.filter among := Finset.mem_filter.mpr ⟨Finset.mem_univ i, inside⟩
  have same := Finset.eq_of_subset_of_card_le (phase_subset among out within) (by
    rw [Finset.card_erase_of_mem member]
    exact Nat.sub_le_of_le_add one)
  intro j joins away
  have there : j ∈ Finset.univ.filter fun j => p j (loc j) := by
    rw [same]
    exact Finset.mem_erase.mpr ⟨away, Finset.mem_filter.mpr ⟨Finset.mem_univ j, joins⟩⟩
  exact (Finset.mem_filter.mp there).2

end Among

end Population

/-- What the agents have left to do, when one of them moves. -/
theorem sum_update {ι : Type u} {Local : Type v} [Fintype ι] [DecidableEq ι] (f : ι → Local → Nat)
    (loc : ι → Local) (i : ι) (x : Local) :
    ∑ j, f j (Function.update loc i x j) + f i (loc i) = ∑ j, f j (loc j) + f i x := by
  have rest : ∑ j ∈ Finset.univ.erase i, f j (Function.update loc i x j) =
      ∑ j ∈ Finset.univ.erase i, f j (loc j) :=
    Finset.sum_congr rfl fun j away => by rw [Function.update_of_ne (Finset.ne_of_mem_erase away)]
  rw [← Finset.add_sum_erase _ _ (Finset.mem_univ i), ← Finset.add_sum_erase _ (fun j => f j (loc j))
    (Finset.mem_univ i), rest, Function.update_self]
  omega

/-- The last of `n` arrivals is recognized by a counter of the width of `n`. -/
theorem counter_eq_iff {w : Nat} {n : BitVec w} {m : Nat} (below : m < n.toNat) :
    BitVec.ofNat w m + 1 = n ↔ m + 1 = n.toNat := by
  have width := n.isLt
  have next : BitVec.ofNat w m + 1 = BitVec.ofNat w (m + 1) := (BitVec.ofNat_add m 1).symm
  rw [next, ← BitVec.toNat_inj, BitVec.toNat_ofNat, Nat.mod_eq_of_lt (by omega)]

end SnitchCluster.Theory
