/-
# Kernels.Lcg -- leapfrog sequences of a linear congruential generator

`lcg_init_n` deals the sequence of one generator out to `n`: it accumulates the multiplier
and the increment of `n` steps modulo `2 ^ 32`, and starts each generator one step after the
one before.  What the `i`-th holds after `j` calls is the state of the base sequence after
`i + 1 + j * n` calls (`lcg_leapfrog`), so read in turn they are the base sequence.
-/
import SnitchCluster.Theory.JumpAhead
import SnitchCluster.Theory.Loops

namespace SnitchCluster.Kernels

open Theory
open Theory.Loops (loop)

/-- `lcg_t` -/
structure Lcg where
  state : BitVec 32
  A : BitVec 32
  C : BitVec 32
  deriving DecidableEq, Repr

namespace Lcg

def LCG_A : BitVec 32 := 1664525
def LCG_C : BitVec 32 := 1013904223

/-- `lcg_init` -/
def init (seed A C : BitVec 32) : Lcg := { state := seed, A := A, C := C }

/-- The generator after a call of `lcg_next`, which returns its state. -/
def next (lcg : Lcg) : Lcg := { lcg with state := lcg.state * lcg.A + lcg.C }

/-- The first loop of `lcg_init_n`: `(Ap, Cp)`, before the product with `C`. -/
def powers (A n : BitVec 32) : BitVec 32 × BitVec 32 :=
  loop n.toNat (fun _ s => (s.1 * A, s.2 + s.1)) (1, 0)

/-- One iteration of the second loop: `lcg0` moves on, and generator `i` starts there. -/
def deal (Ap Cp : BitVec 32) (i : Nat) (s : Lcg × (Nat → Lcg)) : Lcg × (Nat → Lcg) :=
  (s.1.next, Function.update s.2 i (init s.1.next.state Ap Cp))

/-- `lcg_init_n`, over the array it fills. -/
def initN (seed A C n : BitVec 32) (lcg : Nat → Lcg) : Nat → Lcg :=
  (loop n.toNat (deal (powers A n).1 ((powers A n).2 * C)) (init seed A C, lcg)).2

/-- `lcg_init_n_default` -/
def initNDefault (seed n : BitVec 32) (lcg : Nat → Lcg) : Nat → Lcg :=
  initN seed LCG_A LCG_C n lcg

/-! ## A generator over its calls -/

section Calls

variable (lcg : Lcg) (k : Nat)

theorem next_iterate : next^[k] lcg =
    { lcg with state := (fun x => x * lcg.A + lcg.C)^[k] lcg.state } := by
  induction k with
  | zero => rfl
  | succ k ih => rw [Function.iterate_succ_apply', ih, Function.iterate_succ_apply']; rfl

theorem state_iterate : (next^[k] lcg).state = (fun x => x * lcg.A + lcg.C)^[k] lcg.state := by
  rw [next_iterate]

end Calls

/-! ## The parameters and the offsets -/

section Init

variable (seed A C n : BitVec 32) (lcg : Nat → Lcg)

theorem powers_eq :
    powers A n = (A ^ n.toNat, ∑ p ∈ Finset.range n.toNat, A ^ p) := by
  rw [powers]
  refine Loops.loop_invariant (fun k s => s = (A ^ k, ∑ p ∈ Finset.range k, A ^ p)) ?_ ?_
  · simp
  · rintro k - _ rfl
    rw [pow_succ, Finset.sum_range_succ]

/-- Each generator starts one step after the one before, with the same parameters. -/
theorem deal_loop (lcg0 : Lcg) (Ap Cp : BitVec 32) (m : Nat) :
    (loop m (deal Ap Cp) (lcg0, lcg)).1 = next^[m] lcg0 ∧
      ∀ i < m, (loop m (deal Ap Cp) (lcg0, lcg)).2 i = init (next^[i + 1] lcg0).state Ap Cp := by
  induction m with
  | zero => exact ⟨rfl, fun i none => absurd none (Nat.not_lt_zero i)⟩
  | succ m ih =>
    obtain ⟨current, filled⟩ := ih
    rw [Loops.loop_succ]
    refine ⟨by rw [deal, current, Function.iterate_succ_apply'], fun i below => ?_⟩
    rcases Nat.lt_succ_iff_lt_or_eq.mp below with before | rfl
    · rw [deal, ← filled i before]
      exact Function.update_of_ne (Nat.ne_of_lt before) _ _
    · rw [deal, current, ← Function.iterate_succ_apply' next]
      exact Function.update_self _ _ _

theorem initN_apply {i : Nat} (inside : i < n.toNat) : initN seed A C n lcg i =
    init (next^[i + 1] (init seed A C)).state (powers A n).1 ((powers A n).2 * C) :=
  (deal_loop lcg (init seed A C) _ _ n.toNat).2 i inside

/-- A call with the parameters of `n` steps takes `n` steps. -/
theorem leap (A C n : BitVec 32) : (fun x => x * (powers A n).1 + (powers A n).2 * C) =
    (fun x => x * A + C)^[n.toNat] := by
  funext x
  rw [JumpAhead.iterate_affine, powers_eq]

theorem state_initN {i : Nat} (inside : i < n.toNat) (j : Nat) :
    (next^[j] (initN seed A C n lcg i)).state =
      (next^[i + 1 + j * n.toNat] (init seed A C)).state := by
  have stream : (next^[j] (initN seed A C n lcg i)).state =
      (fun x => x * (powers A n).1 + (powers A n).2 * C)^[j]
        (next^[i + 1] (init seed A C)).state := by
    rw [initN_apply seed A C n lcg inside, state_iterate]
    rfl
  rw [stream, leap, state_iterate, state_iterate]
  exact JumpAhead.iterate_leap _ _ _ _ _

end Init

/-- **The leapfrog generators partition the base sequence**: the `i`-th holds every `n`-th
state from the one after `i + 1` calls, and the call of number `k` of the base sequence is
call `k / n` of generator `k % n`. -/
theorem lcg_leapfrog (seed A C n : BitVec 32) (several : 1 ≤ n.toNat) (lcg : Nat → Lcg) :
    (∀ i < n.toNat, ∀ j, (next^[j] (initN seed A C n lcg i)).state =
      (next^[i + 1 + j * n.toNat] (init seed A C)).state) ∧
    ∀ k, (next^[k / n.toNat] (initN seed A C n lcg (k % n.toNat))).state =
      (next^[k + 1] (init seed A C)).state := by
  refine ⟨fun i inside j => state_initN seed A C n lcg inside j, fun k => ?_⟩
  have place : k % n.toNat + 1 + k / n.toNat * n.toNat = k + 1 := by
    have := Nat.mod_add_div' k n.toNat
    omega
  rw [state_initN seed A C n lcg (Nat.mod_lt k several), place]

/-- Three generators of the default parameters. -/
theorem lcg_leapfrog_three :
    (next^[2] (initN 42 LCG_A LCG_C 3 (fun _ => init 0 0 0) 1)).state =
      (next^[8] (init 42 LCG_A LCG_C)).state :=
  (lcg_leapfrog 42 LCG_A LCG_C 3 (by decide) fun _ => init 0 0 0).1 1 (by decide) 2

end Lcg

end SnitchCluster.Kernels
