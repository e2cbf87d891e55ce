/-
# Theory.Statistics -- mean and covariance of finite samples

A sample is a function of the index below its size `n`.  Its centred values sum to zero, and a
sample that is not constant varies: its covariance with itself is positive.
-/
import Mathlib.Algebra.BigOperators.Field
import Mathlib.Algebra.Order.BigOperators.Ring.Finset
import Mathlib.Algebra.Order.Field.Basic
import Mathlib.Tactic.FieldSimp
import Mathlib.Tactic.Positivity
import Mathlib.Tactic.Ring

namespace SnitchCluster.Theory.Statistics

open Finset

universe u

variable {K : Type u} [Field K] (n : Nat)

def mean (f : Nat → K) : K := (∑ k ∈ range n, f k) / n

def centred (f : Nat → K) (k : Nat) : K := f k - mean n f

/-- The sum of the products of the deviations from the means. -/
def scatter (f g : Nat → K) : K := ∑ k ∈ range n, centred n f k * centred n g k

def covariance (f g : Nat → K) : K := scatter n f g / n

variable {n} {f g : Nat → K}

theorem covariance_div (a : K) : covariance n f g / a = scatter n f g / (n * a) :=
  div_div _ _ _

theorem mean_congr {f' : Nat → K} (same : ∀ k < n, f k = f' k) : mean n f = mean n f' := by
  rw [mean, mean, sum_congr rfl fun k inside => same k (mem_range.mp inside)]

theorem centred_congr {f' : Nat → K} (same : ∀ k < n, f k = f' k) {k : Nat} (inside : k < n) :
    centred n f k = centred n f' k := by
  rw [centred, centred, mean_congr same, same k inside]

theorem covariance_congr {f' g' : Nat → K} (same : ∀ k < n, f k = f' k)
    (same' : ∀ k < n, g k = g' k) : covariance n f g = covariance n f' g' := by
  unfold covariance scatter
  rw [sum_congr rfl fun k inside => ?_]
  rw [centred_congr same (mem_range.mp inside), centred_congr same' (mem_range.mp inside)]

/-- Scaling a sample scales its deviations. -/
theorem centred_mul (a : K) (k : Nat) : centred n (fun k => f k * a) k = centred n f k * a := by
  unfold centred mean
  rw [← sum_mul, sub_mul, div_mul_eq_mul_div]

/-- The sample that is one at `k` and zero elsewhere. -/
theorem mean_single {k : Nat} (inside : k < n) :
    mean n (fun l => if l = k then (1 : K) else 0) = 1 / n := by
  rw [mean, sum_ite_eq', if_pos (mem_range.mpr inside)]

section Ordered

variable [LinearOrder K] [IsStrictOrderedRing K]

theorem scatter_self_pos (varies : ∃ k < n, ∃ l < n, f k ≠ f l) : 0 < scatter n f f := by
  obtain ⟨k, hk, l, hl, differ⟩ := varies
  have off : ∃ i < n, centred n f i ≠ 0 := by
    by_contra! none
    apply differ
    rw [sub_eq_zero.mp (none k hk), sub_eq_zero.mp (none l hl)]
  obtain ⟨i, inside, nonzero⟩ := off
  exact sum_pos' (fun _ _ => mul_self_nonneg _)
    ⟨i, mem_range.mpr inside, mul_self_pos.mpr nonzero⟩

theorem covariance_self_pos (varies : ∃ k < n, ∃ l < n, f k ≠ f l) : 0 < covariance n f f := by
  have some : (0 : K) < n := by
    obtain ⟨k, inside, -⟩ := varies
    exact Nat.cast_pos.mpr (Nat.zero_lt_of_lt inside)
  exact div_pos (scatter_self_pos varies) some

end Ordered

end SnitchCluster.Theory.Statistics
