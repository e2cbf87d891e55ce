/-
# Theory.Progression -- loops with a step of either sign, and how to share them out

The values of a loop `for (v = a; v within b; v += d)` are the progression from `a` to
`b` by `d`.  In terms of their indices a bound is one inequality, whatever the sign of
the step (`within_iff_le`), so that statements about sharing a loop out among threads
are statements about intervals of natural numbers: consecutive blocks
(`exists_unique_block`), or blocks of one length in turns (`exists_unique_turn`).
-/
import Mathlib.Algebra.Order.Group.Int
import Mathlib.Data.Set.Basic
import Mathlib.Order.Monotone.Basic
import Mathlib.Tactic.Linarith
import Mathlib.Tactic.Ring

namespace SnitchCluster.Theory

/-- `v` has not passed `bound`, going by `d`. -/
def Within (d v bound : Int) : Prop := if 0 < d then v ≤ bound else bound ≤ v

instance (d v bound : Int) : Decidable (Within d v bound) := by
  unfold Within
  infer_instance

/-- The values from `a` to `b` by `d`. -/
def progression (a b d : Int) : Set Int := {v | ∃ i : Nat, v = a + i * d ∧ Within d v b}

section Progression

variable {a b d x y : Int}

theorem within_iff (step : d ≠ 0) : Within d (a + x * d) (a + y * d) ↔ x ≤ y := by
  unfold Within
  by_cases up : 0 < d
  · rw [if_pos up, Int.add_le_add_iff_left]
    exact mul_le_mul_iff_left₀ up
  · rw [if_neg up, Int.add_le_add_iff_left]
    have down : d < 0 := lt_of_le_of_ne (Int.not_lt.mp up) step
    exact mul_le_mul_right_of_neg down

/-- The index of the last value is the quotient, rounded down. -/
theorem within_iff_le (step : d ≠ 0) : Within d (a + x * d) b ↔ x ≤ (b - a).fdiv d := by
  unfold Within
  by_cases up : 0 < d
  · rw [if_pos up, Int.fdiv_eq_ediv_of_nonneg _ up.le, Int.le_ediv_iff_mul_le up]
    omega
  · have down : 0 < -d := by omega
    rw [if_neg up, ← Int.neg_fdiv_neg, Int.fdiv_eq_ediv_of_nonneg _ down.le,
      Int.le_ediv_iff_mul_le down, Int.mul_neg]
    omega

/-- A range that ends one step before `m` steps have been made. -/
theorem mem_progression_steps (step : d ≠ 0) (m : Int) {v : Int} :
    v ∈ progression a (a + m * d - d) d ↔ ∃ i : Nat, (i : Int) < m ∧ v = a + i * d := by
  have stop : a + m * d - d = a + (m - 1) * d := by ring
  rw [stop]
  constructor
  · rintro ⟨i, rfl, within⟩
    exact ⟨i, Int.lt_of_le_sub_one ((within_iff step).mp within), rfl⟩
  · rintro ⟨i, lt, rfl⟩
    exact ⟨i, rfl, (within_iff step).mpr (Int.le_sub_one_of_lt lt)⟩

/-- The first value of a range that is not empty. -/
theorem within_of_mem {v : Int} (here : v ∈ progression a b d) : Within d a b := by
  obtain ⟨i, rfl, within⟩ := here
  unfold Within at *
  split at within
  next up =>
    rw [if_pos up]
    have := Int.mul_nonneg (Int.natCast_nonneg i) up.le
    omega
  next down =>
    rw [if_neg down]
    have := Int.mul_nonpos_of_nonneg_of_nonpos (Int.natCast_nonneg i) (Int.not_lt.mp down)
    omega

theorem first_mem (some : Within d a b) : a ∈ progression a b d := ⟨0, by simp, some⟩

/-- A bound that is one step before the first value. -/
theorem progression_empty (step : d ≠ 0) : progression a (a - d) d = ∅ := by
  refine Set.eq_empty_of_forall_notMem fun v here => ?_
  have none : a - d = a + 0 * d - d := by ring
  rw [none, mem_progression_steps step] at here
  obtain ⟨i, never, -⟩ := here
  omega

theorem within_move {v bound c : Int} : Within d (v - c) bound ↔ Within d v (bound + c) := by
  unfold Within
  split <;> omega

theorem mem_progression_move {v c : Int} :
    v ∈ progression (a + c) (b + c) d ↔ v - c ∈ progression a b d := by
  unfold progression
  simp only [Set.mem_ofPred_eq, within_move]
  refine exists_congr fun i => and_congr_left fun _ => ?_
  omega

theorem add_mul_inj (step : d ≠ 0) : a + x * d = a + y * d ↔ x = y := by
  rw [Int.add_right_inj]
  exact Int.mul_eq_mul_right_iff step

end Progression

/-! ## Sharing out the indices -/

/-- Consecutive blocks cover everything between the first and the last start. -/
theorem exists_block (s : Nat → Nat) (zero : s 0 = 0) {n i : Nat} (below : i < s n) :
    ∃ t < n, s t ≤ i ∧ i < s (t + 1) := by
  induction n with
  | zero => omega
  | succ n ih =>
    by_cases before : i < s n
    · obtain ⟨t, less, here⟩ := ih before
      exact ⟨t, Nat.lt_succ_of_lt less, here⟩
    · exact ⟨n, Nat.lt_succ_self n, Nat.le_of_not_lt before, below⟩

theorem block_unique {s : Nat → Nat} (mono : Monotone s) {i t t' : Nat} (here : s t ≤ i ∧ i < s (t + 1))
    (there : s t' ≤ i ∧ i < s (t' + 1)) : t = t' := by
  by_contra apart
  rcases Nat.lt_or_gt_of_ne apart with less | less
  · have := mono (show t + 1 ≤ t' from less)
    omega
  · have := mono (show t' + 1 ≤ t from less)
    omega

/-- The length of block `t` where `m` blocks share `n` indices as evenly as possible. -/
def blockLen (n m t : Nat) : Nat := n / m + if t < n % m then 1 else 0

/-- Its first index. -/
def blockStart (n m t : Nat) : Nat := t * (n / m) + min t (n % m)

theorem blockStart_succ (n m t : Nat) :
    blockStart n m (t + 1) = blockStart n m t + blockLen n m t := by
  unfold blockStart blockLen
  rw [Nat.add_mul]
  split <;> omega

theorem blockStart_mono (n m : Nat) : Monotone (blockStart n m) := by
  refine monotone_nat_of_le_succ fun t => ?_
  rw [blockStart_succ]
  exact Nat.le_add_right _ _

theorem blockStart_all {n m : Nat} (some : 0 < m) : blockStart n m m = n := by
  unfold blockStart
  rw [Nat.min_eq_right (Nat.mod_lt n some).le]
  exact Nat.div_add_mod n m

theorem block_le {n m t : Nat} (less : t < m) : blockStart n m t + blockLen n m t ≤ n := by
  rw [← blockStart_succ]
  exact (blockStart_mono n m less).trans (blockStart_all (Nat.zero_lt_of_lt less)).le

/-- Every index is in one block. -/
theorem exists_unique_block {n m i : Nat} (some : 0 < m) (below : i < n) :
    ∃! t, t < m ∧ blockStart n m t ≤ i ∧ i < blockStart n m t + blockLen n m t := by
  rw [← blockStart_all (n := n) some] at below
  obtain ⟨t, less, here⟩ := exists_block (blockStart n m) (by simp [blockStart]) below
  rw [blockStart_succ] at here
  refine ⟨t, ⟨less, here⟩, fun t' there => ?_⟩
  exact block_unique (blockStart_mono n m) (by rw [blockStart_succ]; exact there.2)
    (by rw [blockStart_succ]; exact here)

/-- The index of block `i / chunk` in turns of `n`. -/
theorem turn_iff {n chunk i t : Nat} (size : 0 < chunk) (t_lt : t < n) :
    (∃ k, (k * n + t) * chunk ≤ i ∧ i < (k * n + t + 1) * chunk) ↔ t = i / chunk % n := by
  constructor
  · rintro ⟨k, low, high⟩
    have block : i / chunk = k * n + t := Nat.div_eq_of_lt_le low high
    rw [block, Nat.mul_comm, Nat.mul_add_mod, Nat.mod_eq_of_lt t_lt]
  · rintro rfl
    have split : i / chunk / n * n + i / chunk % n = i / chunk := by
      rw [Nat.mul_comm]
      exact Nat.div_add_mod _ _
    refine ⟨i / chunk / n, ?_, ?_⟩
    · rw [split]
      exact Nat.div_mul_le_self _ _
    · rw [split, Nat.add_mul, Nat.one_mul]
      exact Nat.lt_div_mul_add size

end SnitchCluster.Theory
