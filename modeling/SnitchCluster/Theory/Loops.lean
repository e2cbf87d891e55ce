/-
# Theory.Loops -- counted loops over a state

`loop n body` runs `body 0` to `body (n - 1)` one after the other.  Three rules carry the
loops of the kernels: an invariant indexed by the counter (`loop_invariant`), a view that no
iteration changes (`loop_still`), and a view that exactly one iteration changes (`loop_once`):
a loop over the rows of a matrix, whichever way they are dealt out, is for each of its rows
the one iteration that is about this row.

An array is a function of its index.
-/
import Mathlib.Algebra.BigOperators.Group.Finset.Basic
import Mathlib.Algebra.BigOperators.Intervals
import Mathlib.Logic.Function.Basic

namespace SnitchCluster.Theory.Loops

universe u v

variable {σ : Type u} {ρ : Type v}

def loop (n : Nat) (body : Nat → σ → σ) (s : σ) : σ :=
  match n with
  | 0 => s
  | n + 1 => body n (loop n body s)

section Rules

variable {n : Nat} {body : Nat → σ → σ} {s : σ}

@[simp] theorem loop_zero : loop 0 body s = s := rfl

theorem loop_succ : loop (n + 1) body s = body n (loop n body s) := rfl

/-- **The invariant rule.** -/
theorem loop_invariant (Inv : Nat → σ → Prop) (base : Inv 0 s)
    (step : ∀ i < n, ∀ s, Inv i s → Inv (i + 1) (body i s)) : Inv n (loop n body s) := by
  induction n with
  | zero => exact base
  | succ n ih =>
    have before := ih fun i small => step i (Nat.lt_succ_of_lt small)
    exact step n (Nat.lt_succ_self n) _ before

theorem loop_congr {body' : Nat → σ → σ} (same : ∀ i < n, ∀ s, body i s = body' i s) :
    loop n body s = loop n body' s := by
  induction n with
  | zero => rfl
  | succ n ih =>
    rw [loop_succ, loop_succ, ih fun i small => same i (Nat.lt_succ_of_lt small)]
    exact same n (Nat.lt_succ_self n) _

/-- What no iteration changes. -/
theorem loop_still (view : σ → ρ) (still : ∀ i < n, ∀ s, view (body i s) = view s) :
    view (loop n body s) = view s :=
  loop_invariant (fun _ t => view t = view s) rfl fun i small t same =>
    (still i small t).trans same

/-- **What one iteration changes and no other touches.** -/
theorem loop_once (view : σ → ρ) {g : ρ → ρ} {k : Nat} (inside : k < n)
    (others : ∀ i < n, i ≠ k → ∀ s, view (body i s) = view s)
    (here : ∀ s, view (body k s) = g (view s)) : view (loop n body s) = g (view s) := by
  induction n with
  | zero => exact absurd inside (Nat.not_lt_zero k)
  | succ n ih =>
    rw [loop_succ]
    rcases Nat.lt_succ_iff_lt_or_eq.mp inside with before | rfl
    · rw [others n (Nat.lt_succ_self n) before.ne']
      exact ih before fun i small => others i (Nat.lt_succ_of_lt small)
    · rw [here, loop_still view fun i small => others i (Nat.lt_succ_of_lt small) small.ne]

/-- **What one iteration of two nested loops changes.** -/
theorem loop_grid {a b : Nat} {body : Nat → Nat → σ → σ} (view : σ → ρ) {g : ρ → ρ} {k l : Nat}
    (row : k < a) (column : l < b)
    (others : ∀ i < a, ∀ j < b, (i ≠ k ∨ j ≠ l) → ∀ s, view (body i j s) = view s)
    (here : ∀ s, view (body k l s) = g (view s)) :
    view (loop a (fun i => loop b (body i)) s) = g (view s) :=
  loop_once view row
    (fun i small other _ => loop_still view fun j inside => others i small j inside (.inl other))
    fun _ => loop_once view column (fun j inside other => others k row j inside (.inr other)) here

/-- **Each iteration its own item.**  An iteration turns `Pre` of its item into `Post` and keeps
what holds of the others. -/
theorem loop_each (Pre Post : Nat → σ → Prop)
    (before : ∀ i k s, i ≠ k → Pre k s → Pre k (body i s))
    (after : ∀ i k s, i ≠ k → Post k s → Post k (body i s))
    (here : ∀ k < n, ∀ s, Pre k s → Post k (body k s)) (pre : ∀ k < n, Pre k s) :
    ∀ k < n, Post k (loop n body s) := by
  have progress : ∀ k < n, if k < n then Post k (loop n body s) else Pre k (loop n body s) := by
    refine loop_invariant (fun m s => ∀ k < n, if k < m then Post k s else Pre k s) ?_ ?_
    · intro k inside
      rw [if_neg (Nat.not_lt_zero k)]
      exact pre k inside
    · intro i small s so_far k inside
      have was := so_far k inside
      rcases Nat.lt_trichotomy k i with past | rfl | ahead
      · rw [if_pos past] at was
        rw [if_pos (Nat.lt_succ_of_lt past)]
        exact after i k s past.ne' was
      · rw [if_neg (Nat.lt_irrefl k)] at was
        rw [if_pos (Nat.lt_succ_self k)]
        exact here k inside s was
      · rw [if_neg (Nat.lt_asymm ahead)] at was
        rw [if_neg (by omega)]
        exact before i k s ahead.ne was
  intro k inside
  have done := progress k inside
  rwa [if_pos inside] at done

/-- Two loops in a row. -/
theorem loop_append (a b : Nat) :
    loop (a + b) body s = loop b (fun i => body (a + i)) (loop a body s) := by
  induction b with
  | zero => rfl
  | succ b ih => rw [← Nat.add_assoc, loop_succ, ih, loop_succ]

end Rules

/-! ## Accumulation -/

theorem loop_add {M : Type u} [AddCommMonoid M] (n : Nat) (f : Nat → M) (a : M) :
    loop n (fun i acc => acc + f i) a = a + ∑ i ∈ Finset.range n, f i := by
  induction n with
  | zero => simp
  | succ n ih => rw [loop_succ, ih, Finset.sum_range_succ, add_assoc]

/-! ## Arrays -/

/-- A loop that fills an array, each iteration its own element. -/
theorem loop_fill {α : Type u} {n : Nat} {p : Nat → Nat} {f : Nat → α → α} {a : Nat → α} {k : Nat}
    (inside : k < n) (apart : ∀ i < n, i ≠ k → p i ≠ p k) :
    loop n (fun i a => Function.update a (p i) (f i (a (p i)))) a (p k) = f k (a (p k)) :=
  loop_once (fun a : Nat → α => a (p k)) inside
    (fun i small other _ => Function.update_of_ne (apart i small other).symm _ _)
    fun _ => Function.update_self _ _ _

/-- What a loop over an array does not write. -/
theorem loop_outside {α : Type u} {n : Nat} {p : Nat → Nat} {f : Nat → (Nat → α) → α}
    {a : Nat → α} {x : Nat} (outside : ∀ i < n, p i ≠ x) :
    loop n (fun i a => Function.update a (p i) (f i a)) a x = a x :=
  loop_still (fun a : Nat → α => a x) fun i small _ => Function.update_of_ne (outside i small).symm _ _

/-! ## Rows of equal width -/

section Grids

variable {w h k l k' l' : Nat}

theorem grid_div (column : l < w) : (k * w + l) / w = k := by
  rw [Nat.mul_comm, Nat.mul_add_div (Nat.zero_lt_of_lt column), Nat.div_eq_of_lt column, Nat.add_zero]

theorem grid_mod (column : l < w) : (k * w + l) % w = l := by
  rw [Nat.add_comm, Nat.add_mul_mod_self_right, Nat.mod_eq_of_lt column]

theorem grid_inj (column : l < w) (column' : l' < w) (same : k * w + l = k' * w + l') :
    k = k' ∧ l = l' := by
  have row := congrArg (· / w) same
  have rest := congrArg (· % w) same
  simp only [grid_div column, grid_div column', grid_mod column, grid_mod column'] at row rest
  exact ⟨row, rest⟩

theorem grid_lt (row : k < h) (column : l < w) : k * w + l < h * w := by
  have next := Nat.mul_le_mul_right w (show k + 1 ≤ h from row)
  rw [Nat.succ_mul] at next
  omega

/-- A range as rows. -/
theorem range_grid {α : Type u} (f : Nat → α) :
    (List.range (h * w)).map f =
      (List.range h).flatMap fun k => (List.range w).map fun l => f (k * w + l) := by
  induction h with
  | zero => simp
  | succ h ih =>
    rw [Nat.succ_mul, List.range_add, List.map_append, ih, List.range_succ, List.flatMap_append,
      List.flatMap_singleton, List.map_map]
    rfl

/-- A sum as rows. -/
theorem sum_grid {M : Type u} [AddCommMonoid M] (f : Nat → M) :
    ∑ x ∈ Finset.range (h * w), f x =
      ∑ k ∈ Finset.range h, ∑ l ∈ Finset.range w, f (k * w + l) := by
  induction h with
  | zero => simp
  | succ h ih => rw [Nat.succ_mul, Finset.sum_range_add, ih, Finset.sum_range_succ]

end Grids

end SnitchCluster.Theory.Loops
