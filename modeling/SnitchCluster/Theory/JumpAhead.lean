/-
# Theory.JumpAhead -- many steps of a generator at once

Two families of generators skip ahead by arithmetic.  A step `x * a + c` repeated `n` times
multiplies by `a ^ n` and adds a geometric sum of `c` (`iterate_affine`).  A step that is
linear over the field of two elements is a root of a polynomial; a polynomial acts on a state
by adding up the states after the steps at which it has a coefficient (`act`), products of
polynomials act one after the other (`act_mul`), and squaring `m` times the polynomial of one
step gives that of `2 ^ m` steps (`act_squares`).
-/
import SnitchCluster.Theory.BitLinear
import Mathlib.Algebra.BigOperators.Intervals
import Mathlib.Algebra.BigOperators.Ring.Finset
import Mathlib.Data.BitVec
import Mathlib.Tactic.Ring

namespace SnitchCluster.Theory

namespace JumpAhead

/-! ## Affine steps -/

section Affine

variable {R : Type} [CommSemiring R]

/-- **Many affine steps are one.** -/
theorem iterate_affine (a c x : R) (n : Nat) :
    (fun y => y * a + c)^[n] x = x * a ^ n + (∑ p ∈ Finset.range n, a ^ p) * c := by
  induction n with
  | zero => simp
  | succ n ih =>
    have sum : (∑ p ∈ Finset.range (n + 1), a ^ p) =
        (∑ p ∈ Finset.range n, a ^ p) * a + 1 := by
      simp only [Finset.sum_range_succ', pow_succ, pow_zero, Finset.sum_mul]
    rw [Function.iterate_succ_apply', ih, sum]
    ring

end Affine

/-- Every `n`-th state from the one after `i + 1` steps. -/
theorem iterate_leap {α : Type} (f : α → α) (x : α) (n i j : Nat) :
    (f^[n])^[j] (f^[i + 1] x) = f^[i + 1 + j * n] x := by
  rw [← Function.iterate_mul, ← Function.iterate_add_apply, Nat.mul_comm n j, Nat.add_comm]

/-! ## Linear steps -/

open BitManip (Linear)

variable {n w : Nat} {f : BitVec w → BitVec w}

/-- The states after the steps at which `q` has a coefficient, from step `k` on. -/
def actFrom (f : BitVec w → BitVec w) (q : BitVec n) : Nat → Nat → BitVec w → BitVec w
  | 0, _, _ => 0#w
  | len + 1, k, x => (if q.getLsbD k then x else 0#w) ^^^ actFrom f q len (k + 1) (f x)

@[simp] theorem actFrom_zero (q : BitVec n) (k : Nat) (x : BitVec w) : actFrom f q 0 k x = 0#w := rfl

theorem actFrom_cons (q : BitVec n) (len k : Nat) (x : BitVec w) : actFrom f q (len + 1) k x =
    (if q.getLsbD k then x else 0#w) ^^^ actFrom f q len (k + 1) (f x) := rfl

/-- A polynomial of a degree below `n`, evaluated at a step and applied to a state. -/
def act (f : BitVec w → BitVec w) (q : BitVec n) (x : BitVec w) : BitVec w := actFrom f q n 0 x

/-- A word taken under a condition is linear in the condition. -/
theorem taken_xor (a b : Bool) (x : BitVec w) : (if a ^^ b then x else 0#w) =
    (if a then x else 0#w) ^^^ if b then x else 0#w := by
  cases a <;> cases b <;> simp

theorem actFrom_coefficients (len k : Nat) (x : BitVec w) :
    Linear fun q : BitVec n => actFrom f q len k x := by
  intro q r
  induction len generalizing k x with
  | zero => simp
  | succ len ih =>
    simp only [actFrom_cons, ih, BitVec.getLsbD_xor, taken_xor]
    ac_rfl

theorem actFrom_state (linear : Linear f) (q : BitVec n) (len k : Nat) :
    Linear (actFrom f q len k) := by
  intro x y
  induction len generalizing k x y with
  | zero => simp
  | succ len ih =>
    rw [actFrom_cons, linear, ih, actFrom_cons, actFrom_cons]
    cases q.getLsbD k <;> simp
    ac_rfl

theorem actFrom_single {i : Nat} (degree : i < n) (len k : Nat) (x : BitVec w) :
    actFrom f (1#n <<< i) len k x = if k ≤ i ∧ i < k + len then f^[i - k] x else 0#w := by
  induction len generalizing k x with
  | zero =>
    rw [actFrom_zero, if_neg (by omega)]
  | succ len ih =>
    have bit : (1#n <<< i).getLsbD k = decide (i = k) := by
      rw [← BitVec.twoPow_eq, BitVec.getLsbD_twoPow, decide_eq_true degree, Bool.true_and]
    rw [actFrom_cons, ih, bit]
    rcases Nat.lt_trichotomy i k with below | rfl | above
    · rw [if_neg (by simp; omega), if_neg (by omega), if_neg (by omega), BitVec.xor_zero]
    · rw [if_pos (by simp), if_neg (by omega), if_pos (by omega), BitVec.xor_zero, Nat.sub_self]
      rfl
    · have steps : i - k = i - (k + 1) + 1 := by omega
      have range : k + 1 ≤ i ∧ i < k + 1 + len ↔ k ≤ i ∧ i < k + (len + 1) := by omega
      rw [if_neg (by simp; omega), BitVec.zero_xor, steps, Function.iterate_succ_apply]
      simp only [range]

/-- One step more, at the end. -/
theorem actFrom_succ (q : BitVec n) (len k : Nat) (x : BitVec w) : actFrom f q (len + 1) k x =
    actFrom f q len k x ^^^ if q.getLsbD (k + len) then f^[len] x else 0#w := by
  induction len generalizing k x with
  | zero => simp [actFrom_cons]
  | succ len ih =>
    have place : k + 1 + len = k + (len + 1) := by omega
    rw [actFrom_cons, ih, actFrom_cons, place, Function.iterate_succ_apply, BitVec.xor_assoc]

theorem act_coefficients (x : BitVec w) : Linear fun q : BitVec n => act f q x :=
  actFrom_coefficients n 0 x

theorem act_state (linear : Linear f) (q : BitVec n) : Linear (act f q) :=
  actFrom_state linear q n 0

/-- A single coefficient takes its number of steps. -/
theorem act_single {i : Nat} (degree : i < n) (x : BitVec w) :
    act f (1#n <<< i) x = f^[i] x := by
  rw [act, actFrom_single degree, if_pos (by omega), Nat.sub_zero]

/-- A polynomial times the variable, modulo the monic polynomial of degree `n` with lower
coefficients `p`. -/
def mulX (p q : BitVec n) : BitVec n := q <<< 1 ^^^ if q.getLsbD (n - 1) then p else 0#n

theorem mulX_linear (p : BitVec n) : Linear (mulX p) := by
  intro q r
  simp only [mulX, BitVec.shiftLeft_xor_distrib, BitVec.getLsbD_xor, taken_xor]
  ac_rfl

/-- A product of polynomials, modulo the same. -/
def mul (p q r : BitVec n) : BitVec n := act (mulX p) q r

/-- `m` squarings of the variable. -/
def squares (p : BitVec n) : Nat → BitVec n
  | 0 => 1#n <<< 1
  | m + 1 => mul p (squares p m) (squares p m)

section Root

variable {p : BitVec n} (linear : Linear f) (root : ∀ x, act f p x = f^[n] x)

include linear root

/-- **The variable acts as a step.** -/
theorem act_mulX (q : BitVec n) (x : BitVec w) : act f (mulX p q) x = f (act f q x) := by
  refine ((act_coefficients x).comp (mulX_linear p)).ext (linear.comp (act_coefficients x)) ?_ q
  intro i degree
  have top : (1#n <<< i).getLsbD (n - 1) = decide (i = n - 1) := by
    rw [← BitVec.twoPow_eq, BitVec.getLsbD_twoPow, decide_eq_true degree, Bool.true_and]
  rw [mulX, top, act_single degree, ← Function.iterate_succ_apply' f, ← BitVec.shiftLeft_add]
  by_cases last : i = n - 1
  · have whole : i + 1 = n := by omega
    have past : 1#n <<< n = 0#n := BitVec.shiftLeft_eq_zero (Nat.le_refl n)
    rw [if_pos (by simp [last]), Nat.succ_eq_add_one, whole, past, BitVec.zero_xor, root]
  · rw [if_neg (by simp [last]), BitVec.xor_zero, act_single (by omega)]

theorem act_mulX_iterate (k : Nat) (q : BitVec n) (x : BitVec w) :
    act f ((mulX p)^[k] q) x = f^[k] (act f q x) := by
  induction k with
  | zero => rfl
  | succ k ih =>
    rw [Function.iterate_succ_apply', Function.iterate_succ_apply', act_mulX linear root, ih]

/-- **Products act one after the other.** -/
theorem act_mul (q r : BitVec n) (x : BitVec w) :
    act f (mul p q r) x = act f q (act f r x) := by
  refine ((act_coefficients x).comp (act_coefficients r)).ext (act_coefficients _) ?_ q
  intro i degree
  rw [act_single degree, act_single degree, act_mulX_iterate linear root]

/-- **Squares act as powers of two of a step.** -/
theorem act_squares (several : 1 < n) (m : Nat) (x : BitVec w) :
    act f (squares p m) x = f^[2 ^ m] x := by
  induction m generalizing x with
  | zero => rw [squares, act_single several, pow_zero]
  | succ m ih =>
    rw [squares, act_mul linear root, ih, ih, ← Function.iterate_add_apply, pow_succ,
      Nat.mul_two]

end Root

end JumpAhead

end SnitchCluster.Theory
