/-
# Theory.Softmax -- weighted means by an exponential, block by block

The scores `s 0 .. s (n - 1)` weigh the values `v` by an exponential.  A blockwise evaluation
keeps the maximum of the scores so far (`peak`), subtracts it from every exponent and rescales
what it has whenever the maximum moves: `mass_block` is the step of the denominator and it
needs a multiplication by `exp (old - new)`.

`skewed` is what the numerator becomes when the rescaling divides by that factor instead.
Each term is then off by the square of what the maximum still moved by after its block
(`drift`), and `skewed_mean` says exactly what the final division leaves.
-/
import Mathlib.Algebra.BigOperators.Field
import Mathlib.Algebra.Order.BigOperators.Group.Finset
import Mathlib.Algebra.Order.Field.Basic
import Mathlib.Data.Finset.Lattice.Fold
import Mathlib.Order.WithBot
import Mathlib.Tactic.FieldSimp
import Mathlib.Tactic.Ring

namespace SnitchCluster.Theory.Softmax

universe u

variable {F : Type u}

structure Exponential [Field F] [LinearOrder F] (exp : F → F) : Prop where
  add : ∀ x y, exp (x + y) = exp x * exp y
  pos : ∀ x, 0 < exp x

namespace Exponential

variable [Field F] [LinearOrder F] {exp : F → F} (e : Exponential exp)

include e

theorem ne_zero (x : F) : exp x ≠ 0 := (e.pos x).ne'

theorem sub (x y : F) : exp (x - y) = exp x / exp y := by
  rw [eq_div_iff (e.ne_zero y), ← e.add, sub_add_cancel]

end Exponential

/-! ## The maximum so far -/

section Peak

variable [LinearOrder F] (s : Nat → F) (n : Nat)

/-- The maximum of the first `n` scores, minus infinity for none. -/
def top : WithBot F := (Finset.range n).sup fun k => (s k : WithBot F)

def peak [Zero F] : F := (top s n).unbotD 0

@[simp] theorem top_zero : top s 0 = ⊥ := rfl

theorem top_succ : top s (n + 1) = top s n ⊔ s n := by
  rw [top, Finset.range_add_one, Finset.sup_insert, sup_comm]
  rfl

variable {s n}

theorem coe_peak [Zero F] (some_score : 0 < n) : ((peak s n : F) : WithBot F) = top s n := by
  obtain ⟨m, rfl⟩ := Nat.exists_eq_succ_of_ne_zero some_score.ne'
  have above : (s m : WithBot F) ≤ top s (m + 1) := by
    rw [top_succ]
    exact le_sup_right
  obtain ⟨x, is⟩ := WithBot.ne_bot_iff_exists.mp (ne_bot_of_le_ne_bot WithBot.coe_ne_bot above)
  rw [peak, Nat.succ_eq_add_one, ← is]
  rfl

end Peak

/-! ## Blocks of `B` scores -/

section Blocks

variable [Field F] [LinearOrder F] (exp : F → F) (s v : Nat → F) (B : Nat)

/-- The maximum after `j` blocks. -/
def blockPeak (j : Nat) : F := peak s (j * B)

/-- The denominator after `j` blocks. -/
def mass (j : Nat) : F := ∑ k ∈ Finset.range (j * B), exp (s k - blockPeak s B j)

/-- The numerator after `j` blocks, rescaled by dividing. -/
def skewed (j : Nat) : F :=
  ∑ k ∈ Finset.range (j * B),
    exp (s k - blockPeak s B (k / B + 1)) / exp (blockPeak s B (k / B + 1) - blockPeak s B j) * v k

/-- What the maximum moves by between the block of score `k` and the last of `j` blocks. -/
def drift (j k : Nat) : F := exp (blockPeak s B j - blockPeak s B (k / B + 1))

variable {exp s v B} (e : Exponential exp) (j : Nat)

include e

theorem mass_block :
    mass exp s B (j + 1) =
      mass exp s B j * exp (blockPeak s B j - blockPeak s B (j + 1)) +
        ∑ c ∈ Finset.range B, exp (s (j * B + c) - blockPeak s B (j + 1)) := by
  rw [mass, mass, Nat.add_mul, Nat.one_mul, Finset.sum_range_add, Finset.sum_mul]
  congr 1
  refine Finset.sum_congr rfl fun k _ => ?_
  rw [← e.add, sub_add_sub_cancel]

theorem skewed_block (some_score : 0 < B) :
    skewed exp s v B (j + 1) =
      skewed exp s v B j / exp (blockPeak s B j - blockPeak s B (j + 1)) +
        ∑ c ∈ Finset.range B, exp (s (j * B + c) - blockPeak s B (j + 1)) * v (j * B + c) := by
  rw [skewed, skewed, Nat.add_mul, Nat.one_mul, Finset.sum_range_add, Finset.sum_div]
  congr 1
  · refine Finset.sum_congr rfl fun k _ => ?_
    simp only [e.sub]
    have x := e.ne_zero (blockPeak s B j)
    have y := e.ne_zero (blockPeak s B (j + 1))
    have z := e.ne_zero (blockPeak s B (k / B + 1))
    field_simp
  · refine Finset.sum_congr rfl fun c inside => ?_
    have block : (j * B + c) / B = j := by
      rw [Nat.mul_comm, Nat.mul_add_div some_score,
        Nat.div_eq_of_lt (Finset.mem_range.mp inside), Nat.add_zero]
    rw [block, e.sub (blockPeak s B (j + 1)) (blockPeak s B (j + 1)),
      div_self (e.ne_zero _), div_one]

/-- **What dividing leaves**: every weight is off by the square of its drift. -/
theorem skewed_mean :
    skewed exp s v B j / mass exp s B j =
      (∑ k ∈ Finset.range (j * B), exp (s k) * drift exp s B j k ^ 2 * v k) /
        ∑ k ∈ Finset.range (j * B), exp (s k) := by
  have unit := e.ne_zero (blockPeak s B j)
  have above : skewed exp s v B j =
      (∑ k ∈ Finset.range (j * B), exp (s k) * drift exp s B j k ^ 2 * v k) /
        exp (blockPeak s B j) := by
    rw [skewed, Finset.sum_div]
    refine Finset.sum_congr rfl fun k _ => ?_
    have z := e.ne_zero (blockPeak s B (k / B + 1))
    simp only [drift, e.sub]
    field_simp
  have below : mass exp s B j =
      (∑ k ∈ Finset.range (j * B), exp (s k)) / exp (blockPeak s B j) := by
    rw [mass, Finset.sum_div]
    exact Finset.sum_congr rfl fun k _ => e.sub _ _
  rw [above, below, div_div_div_cancel_right₀ unit]

variable [IsStrictOrderedRing F]

/-- The skewed mean is the mean when the drifts cancel. -/
theorem skewed_mean_iff :
    skewed exp s v B j / mass exp s B j =
        (∑ k ∈ Finset.range (j * B), exp (s k) * v k) / ∑ k ∈ Finset.range (j * B), exp (s k) ↔
      ∑ k ∈ Finset.range (j * B), (drift exp s B j k ^ 2 - 1) * exp (s k) * v k = 0 := by
  have apart : ∑ k ∈ Finset.range (j * B), (drift exp s B j k ^ 2 - 1) * exp (s k) * v k =
      ∑ k ∈ Finset.range (j * B), exp (s k) * drift exp s B j k ^ 2 * v k -
        ∑ k ∈ Finset.range (j * B), exp (s k) * v k := by
    rw [← Finset.sum_sub_distrib]
    exact Finset.sum_congr rfl fun k _ => by ring
  rw [skewed_mean e, apart, sub_eq_zero]
  rcases Nat.eq_zero_or_pos (j * B) with none | some_score
  · simp [none]
  · have positive : 0 < ∑ k ∈ Finset.range (j * B), exp (s k) :=
      Finset.sum_pos (fun k _ => e.pos _) ⟨0, Finset.mem_range.mpr some_score⟩
    exact div_left_inj' positive.ne'

omit [IsStrictOrderedRing F] in
theorem drift_eq_one {j k : Nat} :
    drift exp s B j k = 1 ↔ exp (blockPeak s B (k / B + 1)) = exp (blockPeak s B j) := by
  rw [drift, e.sub, div_eq_one_iff_eq (e.ne_zero _), eq_comm]

theorem drift_sq_eq_one {j k : Nat} : drift exp s B j k ^ 2 - 1 = 0 ↔ drift exp s B j k = 1 := by
  rw [sub_eq_zero]
  exact pow_eq_one_iff_of_nonneg (e.pos _).le two_ne_zero

end Blocks

end SnitchCluster.Theory.Softmax
