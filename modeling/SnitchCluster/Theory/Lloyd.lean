/-
# Theory.Lloyd -- rounds of k-means

A round assigns each sample to its nearest centroid, the first of several equally near ones, and
replaces each centroid by the mean of its samples (`round`).  The nearest centroid is found by
one comparison per centroid (`argmin_range_succ`), and the sums and counts of a round can be
taken over parts of the samples and added (`tally_blocks`, `round_eq`).
-/
import Mathlib.Algebra.BigOperators.Field
import Mathlib.Data.List.MinMax

namespace SnitchCluster.Theory.Lloyd

open Finset

universe u

/-! ## The nearest centroid -/

section Nearest

variable {F : Type u} [LinearOrder F] {k j : Nat} {dist : Nat → F}

/-- The first of the `k` indices with the least distance. -/
def nearest (k : Nat) (dist : Nat → F) : Nat :=
  ((List.range k).argmin dist).getD 0

/-- One more centroid is compared with the best so far. -/
theorem argmin_range_succ :
    (List.range (k + 1)).argmin dist =
      match (List.range k).argmin dist with
      | none => some k
      | some best => if dist k < dist best then some k else some best := by
  rw [List.range_succ, List.argmin_concat]
  cases (List.range k).argmin dist <;> rfl

end Nearest

/-! ## Rounds -/

section Round

variable {F : Type u} [Field F]

def squaredDistance (n_features : Nat) (x y : Nat → F) : F :=
  ∑ f ∈ range n_features, (x f - y f) * (x f - y f)

/-- The sum of `g` over those of the `n` samples from `start` on that are assigned to `k`. -/
def tally {M : Type u} [AddCommMonoid M] (g : Nat → M) (assigned : Nat → Nat) (k start n : Nat) :
    M :=
  ∑ s ∈ range n, if assigned (start + s) = k then g (start + s) else 0

/-- The nearest centroid of each sample. -/
def assignment [LinearOrder F] (n_clusters n_features : Nat) (sample centroid : Nat → Nat → F)
    (s : Nat) : Nat :=
  nearest n_clusters fun k => squaredDistance n_features (sample s) (centroid k)

/-- A round: each centroid becomes the mean of the samples assigned to it. -/
def round [LinearOrder F] (n_samples n_clusters n_features : Nat) (sample centroid : Nat → Nat → F)
    (k f : Nat) : F :=
  let mine := (range n_samples).filter (assignment n_clusters n_features sample centroid · = k)
  (∑ s ∈ mine, sample s f) / mine.card

end Round

/-! ## Sums in parts -/

section Parts

variable {M : Type u} [AddCommMonoid M] {g : Nat → M} {assigned : Nat → Nat} {k start n m : Nat}

@[simp] theorem tally_zero : tally g assigned k start 0 = 0 := rfl

theorem tally_succ : tally g assigned k start (n + 1) =
    tally g assigned k start n + if assigned (start + n) = k then g (start + n) else 0 :=
  sum_range_succ _ _

theorem tally_add : tally g assigned k start (n + m) =
    tally g assigned k start n + tally g assigned k (start + n) m := by
  simp only [tally, sum_range_add, Nat.add_assoc]

theorem tally_shift {a : Nat} :
    tally (fun s => g (a + s)) (fun s => assigned (a + s)) k start n =
      tally g assigned k (a + start) n := by
  simp only [tally, Nat.add_assoc]

/-- Blocks of `m` samples one after the other. -/
theorem tally_blocks : tally g assigned k start (n * m) =
    ∑ i ∈ range n, tally g assigned k (start + i * m) m := by
  induction n with
  | zero => simp
  | succ n ih => rw [Nat.succ_mul, tally_add, ih, sum_range_succ]

variable {F : Type u} [Field F] [LinearOrder F]

/-- A round by its sums and counts. -/
theorem round_eq {n_samples n_clusters n_features f : Nat} {sample centroid : Nat → Nat → F} :
    round n_samples n_clusters n_features sample centroid k f =
      tally (sample · f) (assignment n_clusters n_features sample centroid) k 0 n_samples /
        ((tally (fun _ => 1) (assignment n_clusters n_features sample centroid) k 0 n_samples :
          Nat) : F) := by
  simp only [round, tally, Nat.zero_add, sum_filter, card_filter]

end Parts

end SnitchCluster.Theory.Lloyd
