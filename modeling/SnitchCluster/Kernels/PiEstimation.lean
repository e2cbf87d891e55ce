/-
# Kernels.PiEstimation -- a Monte Carlo loop in two threads

`calculate_psum_optimized` generates a batch of pairs with the integer thread, has the FP thread
evaluate it in the next iteration and counts its hits in the one after that.

This module has the code of both variants and what its stages leave: the macros generate the pairs
that the generators define (`eval_pairs`), the FP thread compares those of a batch
(`evaluate_value`), counting adds up its flags (`accumulate_value`).  In one thread they count the
hits (`baseline_hits`).
-/
import Mathlib.Tactic.IntervalCases
import SnitchCluster.Kernels.BlasVariants
import SnitchCluster.Kernels.Lcg
import SnitchCluster.Kernels.Xoshiro128p

namespace SnitchCluster.Kernels.PiEstimation

open Theory Theory.Loops Theory.Supersteps
open Blas (iterations)

/-! ## The code -/

section Code

inductive Rng
  | x
  | y
  | z
  deriving DecidableEq

/-- The registers of the two threads, and a double in one of the two sets of buffers: numbers and
flags in its lower word, under an upper word that stays clear. -/
inductive Loc
  | int_x (r : Nat)
  | int_y (r : Nat)
  | Ap
  | Cp
  | s (i : Fin 4)
  | tmp
  | t (r : Nat)
  | a (r : Nat)
  | temp (r : Nat)
  | result
  | ft (r : Nat)
  | fa (r : Nat)
  | rng (buffer : Rng) (idx : Bool) (e : Nat)
  deriving DecidableEq

abbrev Mem := Loc → BitVec 32

abbrev Asm := Statement Loc (BitVec 32)

def mul (rd rs1 rs2 : Loc) : Asm := .assign rd rs1 rs2 rs2 fun v w _ => v * w

def add (rd rs1 rs2 : Loc) : Asm := .assign rd rs1 rs2 rs2 fun v w _ => v + w

def xor (rd rs1 rs2 : Loc) : Asm := .assign rd rs1 rs2 rs2 fun v w _ => v ^^^ w

def or (rd rs1 rs2 : Loc) : Asm := .assign rd rs1 rs2 rs2 fun v w _ => v ||| w

def sll (rd rs : Loc) (shamt : Nat) : Asm := .assign rd rs rs rs fun v _ _ => v <<< shamt

def srl (rd rs : Loc) (shamt : Nat) : Asm := .assign rd rs rs rs fun v _ _ => v >>> shamt

/-- Offsets are in bytes, addresses in doubles. -/
def lw (rd : Loc) (offs : Nat) (addr : Nat → Loc) : Asm :=
  .assign rd (addr (offs / 8)) (addr (offs / 8)) (addr (offs / 8)) fun v _ _ => v

def sw (word : Loc) (offs : Nat) (addr : Nat → Loc) : Asm :=
  .assign (addr (offs / 8)) word word word fun v _ _ => v

/-- An FP register stands for the number it was converted from. -/
def fcvt (fd rs : Loc) : Asm := .assign fd rs rs rs fun v _ _ => v

def flag (b : Bool) : BitVec 32 := if b then 1 else 0

/-- From the normalization of a pair to the comparison. -/
def flt (hit : BitVec 32 → BitVec 32 → Bool) (rd x y : Loc) : Asm :=
  .assign rd x y y fun v w _ => flag (hit v w)

def EVAL_LCG_UNROLL4 : List Asm :=
  [mul (.int_x 0) (.int_x 0) .Ap,
    mul (.int_x 1) (.int_x 1) .Ap,
    mul (.int_x 2) (.int_x 2) .Ap,
    mul (.int_x 3) (.int_x 3) .Ap,
    add (.int_x 0) (.int_x 0) .Cp,
    mul (.int_y 0) (.int_y 0) .Ap,
    add (.int_x 1) (.int_x 1) .Cp,
    mul (.int_y 1) (.int_y 1) .Ap,
    add (.int_x 2) (.int_x 2) .Cp,
    mul (.int_y 2) (.int_y 2) .Ap,
    add (.int_x 3) (.int_x 3) .Cp,
    mul (.int_y 3) (.int_y 3) .Ap,
    add (.int_y 0) (.int_y 0) .Cp,
    add (.int_y 1) (.int_y 1) .Cp,
    add (.int_y 2) (.int_y 2) .Cp,
    add (.int_y 3) (.int_y 3) .Cp]

/-- A number of `EVAL_XOSHIRO128P_UNROLL4`. -/
def xoshiro128p (out : Loc) : List Asm :=
  [add out (.s 0) (.s 3),
    sll .tmp (.s 1) 9,
    xor (.s 2) (.s 2) (.s 0),
    xor (.s 3) (.s 3) (.s 1),
    xor (.s 1) (.s 1) (.s 2),
    xor (.s 0) (.s 0) (.s 3),
    xor (.s 2) (.s 2) .tmp,
    sll .tmp (.s 3) 11,
    srl (.s 3) (.s 3) 21,
    or (.s 3) (.s 3) .tmp]

def EVAL_XOSHIRO128P_UNROLL4 : List Asm :=
  [.t 0, .t 1, .t 2, .t 3, .a 0, .a 1, .a 2, .a 3].flatMap xoshiro128p

def FCVT_UNROLL_8 (inputs outputs : List Loc) : List Asm :=
  List.zipWith (fun rs fd => fcvt fd rs) inputs outputs

def SW_UNROLL_8 (words : List Loc) (offs : List Nat) (addrs : List (Nat → Loc)) : List Asm :=
  List.zipWith (fun word target => sw word target.1 target.2) words (offs.zip addrs)

/-- How often a loop runs that ends with `addi n, n, -1` and `bnez n`, or a body under `frep` with
`n - 1`. -/
def times (n : BitVec 32) : Nat := (n - 1).toNat + 1

/-- `PRNG_T *prngs`, by the choice of `PRNG`. -/
inductive Prngs
  | lcg (prngs : Nat → Lcg)
  | xoshiro128p (prngs : Nat → Xoshiro128p)

namespace Prngs

/-- The registers that a thread starts with: the states of the generators, and sums of 0. -/
def load (m : Mem) : Prngs → Mem
  | .lcg prngs => fun
      | .int_x r => (prngs r).state
      | .int_y r => (prngs (4 + r)).state
      | .Ap => (prngs 0).A
      | .Cp => (prngs 0).C
      | .temp _ | .result => 0
      | x => m x
  | .xoshiro128p prngs => fun
      | .s 0 => (prngs 0).s0
      | .s 1 => (prngs 0).s1
      | .s 2 => (prngs 0).s2
      | .s 3 => (prngs 0).s3
      | .temp _ | .result => 0
      | x => m x

def EVAL : Prngs → List Asm
  | .lcg _ => EVAL_LCG_UNROLL4
  | .xoshiro128p _ => EVAL_XOSHIRO128P_UNROLL4

def convert : Prngs → List Asm
  | .lcg _ => FCVT_UNROLL_8
      [.int_x 0, .int_y 0, .int_x 1, .int_y 1, .int_x 2, .int_y 2, .int_x 3, .int_y 3]
      [.ft 0, .fa 0, .ft 1, .fa 1, .ft 2, .fa 2, .ft 3, .fa 3]
  | .xoshiro128p _ => FCVT_UNROLL_8
      [.t 0, .t 1, .t 2, .t 3, .a 0, .a 1, .a 2, .a 3]
      [.ft 0, .ft 1, .ft 2, .ft 3, .fa 0, .fa 1, .fa 2, .fa 3]

def store (rng_x rng_y : Nat → Loc) (prngs : Prngs) : List Asm :=
  let words : List Loc := match prngs with
    | .lcg _ => [.int_x 0, .int_y 0, .int_x 1, .int_y 1, .int_x 2, .int_y 2, .int_x 3, .int_y 3]
    | .xoshiro128p _ => [.t 0, .a 0, .t 1, .a 1, .t 2, .a 2, .t 3, .a 3]
  SW_UNROLL_8 words [0, 0, 8, 8, 16, 16, 24, 24]
    [rng_x, rng_y, rng_x, rng_y, rng_x, rng_y, rng_x, rng_y]

end Prngs

variable (prngs : Prngs) (hit : BitVec 32 → BitVec 32 → Bool) (core_idx N_CORES BATCH_SIZE : Nat)
  (n_samples : BitVec 32)

/-- Four pairs, in one thread. -/
def baselineBody : List Asm :=
  prngs.EVAL ++ prngs.convert ++
    (List.range 4).map (fun r => flt hit (.a r) (.ft r) (.fa r)) ++
    (List.range 4).map fun r => add .result .result (.a r)

def calculate_psum_baseline (m : Mem) : BitVec 32 :=
  if core_idx < N_CORES then
    let n_iter := n_samples / 4
    after Statement.run ((List.range (times n_iter)).flatMap fun _ => baselineBody prngs hit)
      (prngs.load m) .result
  else 0

/-- An instruction under `frep`: `ft0` and `ft1` are the streams it reads, `ft2` the one it
writes. -/
inductive FpInstr
  | fcvt_ft0 (fd : Loc)
  | fcvt_ft1 (fd : Loc)
  | flt_ft2 (x y : Loc)

/-- What the FP thread executes; it waits for ever when a stream is at its end. -/
def streamed : List FpInstr → List Loc → List Loc → List Loc → List Asm
  | .fcvt_ft0 fd :: is, x :: xs, ys, zs => fcvt fd x :: streamed is xs ys zs
  | .fcvt_ft1 fd :: is, xs, y :: ys, zs => fcvt fd y :: streamed is xs ys zs
  | .flt_ft2 x y :: is, xs, ys, z :: zs => flt hit z x y :: streamed is xs ys zs
  | _, _, _, _ => []

def frepBody : List FpInstr :=
  [.fcvt_ft0 (.fa 0), .fcvt_ft1 (.fa 1), .fcvt_ft0 (.fa 2), .fcvt_ft1 (.fa 3),
    .fcvt_ft0 (.fa 4), .fcvt_ft1 (.fa 5), .fcvt_ft0 (.fa 6), .fcvt_ft1 (.fa 7),
    .flt_ft2 (.fa 0) (.fa 1), .flt_ft2 (.fa 2) (.fa 3), .flt_ft2 (.fa 4) (.fa 5),
    .flt_ft2 (.fa 6) (.fa 7)]

/-- The FP thread on a batch. -/
def evaluate (fp_x_ptr fp_y_ptr fp_z_ptr : Nat → Loc) : List Asm :=
  let elements := List.range (iterations BATCH_SIZE)
  streamed hit
    ((List.range (times (BitVec.ofNat 32 (BATCH_SIZE / 4)))).flatMap fun _ => frepBody)
    (elements.map fp_x_ptr) (elements.map fp_y_ptr) (elements.map fp_z_ptr)

/-- The integer thread produces a batch. -/
def generate (int_x_ptr int_y_ptr : Nat → Loc) : List Asm :=
  (List.range (times (BitVec.ofNat 32 (BATCH_SIZE / 4)))).flatMap fun k =>
    prngs.EVAL ++ prngs.store (fun e => int_x_ptr (4 * k + e)) fun e => int_y_ptr (4 * k + e)

/-- The integer thread counts the hits of a batch. -/
def accumulate (int_z_ptr : Nat → Loc) : List Asm :=
  (dealtRows 8 0 BATCH_SIZE).flatMap fun j =>
    let rng_z := fun e => int_z_ptr (j + e)
    [lw (.a 0) 0 rng_z,
      lw (.a 1) 8 rng_z,
      lw (.a 2) 16 rng_z,
      lw (.a 3) 24 rng_z,
      add (.temp 0) (.temp 0) (.a 0),
      lw (.a 4) 32 rng_z,
      add (.temp 1) (.temp 1) (.a 1),
      lw (.a 5) 40 rng_z,
      add (.temp 2) (.temp 2) (.a 2),
      lw (.a 6) 48 rng_z,
      add (.temp 3) (.temp 3) (.a 3),
      lw (.a 7) 56 rng_z,
      add (.temp 4) (.temp 4) (.a 4),
      add (.temp 5) (.temp 5) (.a 5),
      add (.temp 6) (.temp 6) (.a 6),
      add (.temp 7) (.temp 7) (.a 7)]

/-- The stages of an iteration, by its number and `n_iterations`. -/
def evaluates (n_iterations : BitVec 32) (iteration : Nat) : Bool :=
  0 < iteration ∧ iteration < (n_iterations - 1).toNat

def generates (n_iterations : BitVec 32) (iteration : Nat) : Bool :=
  iteration < (n_iterations - 2).toNat

def accumulates (iteration : Nat) : Bool := 1 < iteration

structure Indices where
  fp_xyz_idx : Bool
  int_xy_idx : Bool
  int_z_idx : Bool

/-- A stage of an iteration toggles its index first. -/
def Indices.next (n_iterations : BitVec 32) (iteration : Nat) (idx : Indices) : Indices where
  fp_xyz_idx := idx.fp_xyz_idx ^^ evaluates n_iterations iteration
  int_xy_idx := idx.int_xy_idx ^^ generates n_iterations iteration
  int_z_idx := idx.int_z_idx ^^ accumulates iteration

/-- Before an iteration. -/
def indices (n_iterations : BitVec 32) : Nat → Indices
  | 0 => ⟨false, false, false⟩
  | iteration + 1 => (indices n_iterations iteration).next n_iterations iteration

/-- The section of a core. -/
def rng_all (buffer : Rng) (idx : Bool) (e : Nat) : Loc :=
  .rng buffer idx (core_idx * BATCH_SIZE + e)

def int_thread (n_iterations : BitVec 32) (iteration : Nat) : List Asm :=
  let idx := indices n_iterations (iteration + 1)
  let rng_all := rng_all core_idx BATCH_SIZE
  (if generates n_iterations iteration then
    generate prngs BATCH_SIZE (rng_all .x idx.int_xy_idx) (rng_all .y idx.int_xy_idx) else []) ++
  if accumulates iteration then accumulate BATCH_SIZE (rng_all .z idx.int_z_idx) else []

def fp_thread (n_iterations : BitVec 32) (iteration : Nat) : List Asm :=
  let idx := (indices n_iterations (iteration + 1)).fp_xyz_idx
  let rng_all := rng_all core_idx BATCH_SIZE
  if evaluates n_iterations iteration then
    evaluate hit BATCH_SIZE (rng_all .x idx) (rng_all .y idx) (rng_all .z idx) else []

/-- The iterations of a core, each up to its fence.  Thread 0 is the integer thread. -/
def calculate_psum_optimized : Program Nat Asm :=
  let n_batches := n_samples / BitVec.ofNat 32 BATCH_SIZE
  let n_iterations := n_batches + 2
  { agents := 2
    schedule := if core_idx < N_CORES then List.range n_iterations.toNat else []
    code := fun iteration thread => match thread with
      | 0 => int_thread prngs core_idx BATCH_SIZE n_iterations iteration
      | _ => fp_thread hit core_idx BATCH_SIZE n_iterations iteration
    waits := fun _ _ _ => true }

/-- What `calculate_psum_optimized` returns after its last iteration. -/
def psum (m : Mem) : BitVec 32 :=
  if core_idx < N_CORES then (List.range 8).foldl (fun result r => result + m (.temp r)) 0 else 0

end Code

/-! ## The pairs -/

section Pairs

variable {m : Mem} {k : Nat}

/-- A generator of `EVAL_LCG_UNROLL4`: all take their parameters from the first. -/
def lcgOf (prngs : Nat → Lcg) (i : Nat) : Lcg := { prngs 0 with state := (prngs i).state }

/-- The generator of `EVAL_XOSHIRO128P_UNROLL4`. -/
def state (m : Mem) : Xoshiro128p := ⟨m (.s 0), m (.s 1), m (.s 2), m (.s 3)⟩

namespace Prngs

/-- Pair number `j` in the order of the samples. -/
def pair (j : Nat) : Prngs → BitVec 32 × BitVec 32
  | .lcg prngs => ((Lcg.next^[j / 4 + 1] (lcgOf prngs (j % 4))).state,
      (Lcg.next^[j / 4 + 1] (lcgOf prngs (4 + j % 4))).state)
  | .xoshiro128p prngs => ((Xoshiro128p.next^[j / 4 * 8 + j % 4] (prngs 0)).result,
      (Xoshiro128p.next^[j / 4 * 8 + (4 + j % 4)] (prngs 0)).result)

/-- Where `EVAL` leaves its pairs. -/
def x (r : Nat) : Prngs → Loc
  | .lcg _ => .int_x r
  | .xoshiro128p _ => .t r

def y (r : Nat) : Prngs → Loc
  | .lcg _ => .int_y r
  | .xoshiro128p _ => .a r

/-- The registers of the generators hold their states after `k` evaluations. -/
def At (k : Nat) (m : Mem) : Prngs → Prop
  | .lcg prngs => (∀ r < 4, m (.int_x r) = (Lcg.next^[k] (lcgOf prngs r)).state ∧
      m (.int_y r) = (Lcg.next^[k] (lcgOf prngs (4 + r))).state) ∧
      m .Ap = (prngs 0).A ∧ m .Cp = (prngs 0).C
  | .xoshiro128p prngs => state m = Xoshiro128p.next^[k * 8] (prngs 0)

end Prngs

theorem lcgOf_next (prngs : Nat → Lcg) (i k : Nat) :
    (Lcg.next^[k + 1] (lcgOf prngs i)).state =
      (Lcg.next^[k] (lcgOf prngs i)).state * (prngs 0).A + (prngs 0).C := by
  rw [Lcg.state_iterate, Function.iterate_succ_apply', ← Lcg.state_iterate]
  rfl

theorem eval_lcg (m : Mem) {r : Nat} (small : r < 4) :
    after Statement.run EVAL_LCG_UNROLL4 m (.int_x r) = m (.int_x r) * m .Ap + m .Cp ∧
      after Statement.run EVAL_LCG_UNROLL4 m (.int_y r) = m (.int_y r) * m .Ap + m .Cp := by
  interval_cases r <;>
    simp [EVAL_LCG_UNROLL4, mul, add, Statement.assign]

theorem xoshiro128p_value (m : Mem) {out : Loc} (state' : ∀ i, out ≠ .s i) (tmp : out ≠ .tmp) :
    state (after Statement.run (xoshiro128p out) m) = (state m).next ∧
      after Statement.run (xoshiro128p out) m out = (state m).result := by
  simp [xoshiro128p, state, Xoshiro128p.next, Xoshiro128p.result, add, xor, or, sll, srl,
    Statement.assign, state', tmp, Ne.symm (state' _), BitVec.or_comm]

theorem xoshiro128p_writes {out x : Loc} : ∀ a ∈ xoshiro128p out, a.writes x →
    x = out ∨ (∃ i, x = .s i) ∨ x = .tmp := by
  simp [xoshiro128p, add, xor, or, sll, srl, Statement.assign]
  grind

/-- Numbers one after the other, each to its own register. -/
theorem xoshiro128p_values (outs : List Loc) (apart : outs.Nodup)
    (fresh : ∀ out ∈ outs, (∀ i, out ≠ .s i) ∧ out ≠ .tmp) (m : Mem) :
    state (after Statement.run (outs.flatMap xoshiro128p) m) =
        Xoshiro128p.next^[outs.length] (state m) ∧
      ∀ i (inside : i < outs.length), after Statement.run (outs.flatMap xoshiro128p) m outs[i] =
        (Xoshiro128p.next^[i] (state m)).result := by
  induction outs generalizing m with
  | nil => exact ⟨rfl, fun i none => absurd none (Nat.not_lt_zero i)⟩
  | cons out outs ih =>
    obtain ⟨first, apart⟩ := List.nodup_cons.mp apart
    obtain ⟨⟨state', tmp⟩, fresh⟩ := List.forall_mem_cons.mp fresh
    obtain ⟨next, result⟩ := xoshiro128p_value m state' tmp
    obtain ⟨final, results⟩ := ih apart fresh (after Statement.run (xoshiro128p out) m)
    rw [next] at final results
    rw [List.flatMap_cons, after_append]
    refine ⟨final, fun i inside => ?_⟩
    cases i with
    | zero =>
      have kept : after Statement.run (outs.flatMap xoshiro128p)
          (after Statement.run (xoshiro128p out) m) out =
            after Statement.run (xoshiro128p out) m out := by
        refine after_frame (S := Statement.semantics) fun a inner written => ?_
        obtain ⟨out', later, inner⟩ := List.mem_flatMap.mp inner
        rcases xoshiro128p_writes a inner written with rfl | ⟨i, same⟩ | same
        · exact first later
        · exact state' i same
        · exact tmp same
      exact kept.trans result
    | succ i => exact results i (Nat.lt_of_succ_lt_succ inside)

/-- **An evaluation leaves the next four pairs.** -/
theorem eval_pairs {prngs : Prngs} {k : Nat} {m : Mem} (start : prngs.At k m) :
    prngs.At (k + 1) (after Statement.run prngs.EVAL m) ∧ ∀ r < 4,
      after Statement.run prngs.EVAL m (prngs.x r) = (prngs.pair (4 * k + r)).1 ∧
      after Statement.run prngs.EVAL m (prngs.y r) = (prngs.pair (4 * k + r)).2 := by
  have place : ∀ r < 4, (4 * k + r) / 4 = k ∧ (4 * k + r) % 4 = r := by omega
  cases prngs with
  | lcg prngs =>
    obtain ⟨states, A, C⟩ := start
    have next : ∀ r < 4,
        after Statement.run EVAL_LCG_UNROLL4 m (.int_x r) =
            (Lcg.next^[k + 1] (lcgOf prngs r)).state ∧
          after Statement.run EVAL_LCG_UNROLL4 m (.int_y r) =
            (Lcg.next^[k + 1] (lcgOf prngs (4 + r))).state := by
      intro r small
      obtain ⟨x, y⟩ := eval_lcg m small
      rw [x, y, (states r small).1, (states r small).2, A, C, lcgOf_next, lcgOf_next]
      exact ⟨rfl, rfl⟩
    have parameters : after Statement.run EVAL_LCG_UNROLL4 m .Ap = m .Ap ∧
        after Statement.run EVAL_LCG_UNROLL4 m .Cp = m .Cp := by
      simp [EVAL_LCG_UNROLL4, mul, add, Statement.assign]
    refine ⟨⟨next, parameters.1.trans A, parameters.2.trans C⟩, fun r small => ?_⟩
    · simp only [Prngs.pair, place r small]
      exact next r small
  | xoshiro128p prngs =>
    obtain ⟨final, results⟩ := xoshiro128p_values
      [.t 0, .t 1, .t 2, .t 3, .a 0, .a 1, .a 2, .a 3] (by decide) (by simp) m
    have start : state m = Xoshiro128p.next^[k * 8] (prngs 0) := start
    rw [start] at final results
    simp only [← Function.iterate_add_apply] at final results
    refine ⟨?_, fun r small => ?_⟩
    · refine final.trans ?_
      rw [Nat.add_comm, Nat.succ_mul]
      rfl
    · have first := results r (Nat.lt_of_lt_of_le small (by decide))
      have second := results (4 + r) (Nat.add_lt_add_left small 4)
      simp only [Prngs.pair, place r small, Nat.add_comm (k * 8)]
      rw [← first, ← second]
      interval_cases r <;> exact ⟨rfl, rfl⟩

end Pairs

/-! ## What the stages touch -/

section Footprints

variable {prngs : Prngs} {hit : BitVec 32 → BitVec 32 → Bool} {core_idx BATCH_SIZE : Nat}
  {idx : Bool}

namespace Loc

/-- The registers that generating writes. -/
def Generator : Loc → Prop
  | int_x _ | int_y _ | s _ | tmp | t _ | a _ => True
  | _ => False

/-- The registers that counting writes. -/
def Counter : Loc → Prop
  | temp _ | a _ => True
  | _ => False

def Fp : Loc → Prop
  | fa _ => True
  | _ => False

def Numbers (idx : Bool) : Loc → Prop
  | rng .x i _ | rng .y i _ => i = idx
  | _ => False

def Flags (idx : Bool) : Loc → Prop
  | rng .z i _ => i = idx
  | _ => False

end Loc

theorem eval_within :
    Statement.Within (fun x => x = .Ap ∨ x = .Cp) Loc.Generator prngs.EVAL := by
  cases prngs with
  | lcg => simp [Prngs.EVAL, EVAL_LCG_UNROLL4, mul, add, Statement.assign, Loc.Generator]
  | xoshiro128p =>
    simp [Prngs.EVAL, EVAL_XOSHIRO128P_UNROLL4, xoshiro128p, add, xor, or, sll, srl,
      Statement.assign, Loc.Generator]

/-- The stores of four pairs. -/
theorem store_within {rng_x rng_y : Nat → Loc} : Statement.Within Loc.Generator
    (fun x => ∃ r < 4, x = rng_x r ∨ x = rng_y r) (prngs.store rng_x rng_y) := by
  have x : ∀ r < 4, ∃ r' < 4, rng_x r = rng_x r' ∨ rng_x r = rng_y r' :=
    fun r small => ⟨r, small, .inl rfl⟩
  have y : ∀ r < 4, ∃ r' < 4, rng_y r = rng_x r' ∨ rng_y r = rng_y r' :=
    fun r small => ⟨r, small, .inr rfl⟩
  cases prngs <;> simp [Prngs.store, SW_UNROLL_8, sw, Statement.assign, Loc.Generator, x, y]

theorem generate_within : Statement.Within (fun x => x = .Ap ∨ x = .Cp)
    (fun x => x.Generator ∨ x.Numbers idx)
    (generate prngs BATCH_SIZE (rng_all core_idx BATCH_SIZE .x idx)
      (rng_all core_idx BATCH_SIZE .y idx)) := by
  refine Semantics.within_flatMap.mpr fun k _ => Semantics.within_append.mpr ⟨?_, ?_⟩
  · exact eval_within.mono (fun x => .inl) fun x => .inl
  · refine store_within.mono (fun x register => .inr (.inl register)) fun x target => ?_
    obtain ⟨r, -, rfl | rfl⟩ := target <;> exact .inr rfl

/-- An iteration of `accumulate`. -/
def count (rng_z : Nat → Loc) : List Asm :=
  [lw (.a 0) 0 rng_z, lw (.a 1) 8 rng_z, lw (.a 2) 16 rng_z, lw (.a 3) 24 rng_z,
    add (.temp 0) (.temp 0) (.a 0), lw (.a 4) 32 rng_z, add (.temp 1) (.temp 1) (.a 1),
    lw (.a 5) 40 rng_z, add (.temp 2) (.temp 2) (.a 2), lw (.a 6) 48 rng_z,
    add (.temp 3) (.temp 3) (.a 3), lw (.a 7) 56 rng_z, add (.temp 4) (.temp 4) (.a 4),
    add (.temp 5) (.temp 5) (.a 5), add (.temp 6) (.temp 6) (.a 6),
    add (.temp 7) (.temp 7) (.a 7)]

theorem accumulate_eq (z : Nat → Loc) (whole : 8 ∣ BATCH_SIZE) : accumulate BATCH_SIZE z =
    (List.range (BATCH_SIZE / 8)).flatMap fun q => count fun e => z (q * 8 + e) := by
  unfold accumulate
  rw [Blas.dealtRows_whole whole, List.flatMap_map]
  rfl

theorem count_within {j : Nat} : Statement.Within (Loc.Flags idx) Loc.Counter
    (count fun e => rng_all core_idx BATCH_SIZE .z idx (j + e)) := by
  simp [count, lw, add, Statement.assign, Loc.Counter, Loc.Flags, rng_all]

theorem accumulate_within (whole : 8 ∣ BATCH_SIZE) : Statement.Within (Loc.Flags idx) Loc.Counter
    (accumulate BATCH_SIZE (rng_all core_idx BATCH_SIZE .z idx)) := by
  rw [accumulate_eq _ whole]
  exact Semantics.within_flatMap.mpr fun q _ => count_within

/-- What the FP thread executes of its loop on four pairs. -/
def frep (hit : BitVec 32 → BitVec 32 → Bool) (x y z : Nat → Loc) : List Asm :=
  streamed hit frepBody ((List.range 4).map x) ((List.range 4).map y) ((List.range 4).map z)

/-- **The streams end with the loop.** -/
theorem streamed_frep (x y z : Nat → Loc) (n : Nat) :
    streamed hit ((List.range n).flatMap fun _ => frepBody) ((List.range (n * 4)).map x)
        ((List.range (n * 4)).map y) ((List.range (n * 4)).map z) =
      (List.range n).flatMap fun k =>
        frep hit (fun r => x (k * 4 + r)) (fun r => y (k * 4 + r)) fun r => z (k * 4 + r) := by
  simp only [range_grid]
  induction List.range n with
  | nil => rfl
  | cons k ks ih =>
    simp only [List.flatMap_cons]
    rw [← ih]
    rfl

theorem times_toNat {n : BitVec 32} (some : 0 < n.toNat) : times n = n.toNat := by
  have one : (1 : BitVec 32).toNat = 1 := rfl
  have bound := n.isLt
  simp only [times, BitVec.toNat_sub, one]
  omega

theorem times_eq {n : Nat} (some : 0 < n) (small : n < 2 ^ 32) :
    times (BitVec.ofNat 32 n) = n := by
  have exact : (BitVec.ofNat 32 n).toNat = n := by
    rw [BitVec.toNat_ofNat, Nat.mod_eq_of_lt small]
  rw [times_toNat (by omega), exact]

theorem evaluate_eq {x y z : Nat → Loc} (some : 0 < BATCH_SIZE) (whole : 4 ∣ BATCH_SIZE)
    (small : BATCH_SIZE < 2 ^ 32) : evaluate hit BATCH_SIZE x y z =
      (List.range (BATCH_SIZE / 4)).flatMap fun k =>
        frep hit (fun r => x (k * 4 + r)) (fun r => y (k * 4 + r)) fun r => z (k * 4 + r) := by
  unfold evaluate
  rw [Blas.iterations_eq some small.le, times_eq (by omega) (by omega), ← streamed_frep,
    Nat.div_mul_cancel whole]

theorem evaluate_within (some : 0 < BATCH_SIZE) (whole : 4 ∣ BATCH_SIZE)
    (small : BATCH_SIZE < 2 ^ 32) :
    Statement.Within (Loc.Numbers idx) (fun x => x.Fp ∨ x.Flags idx)
      (evaluate hit BATCH_SIZE (rng_all core_idx BATCH_SIZE .x idx)
        (rng_all core_idx BATCH_SIZE .y idx) (rng_all core_idx BATCH_SIZE .z idx)) := by
  rw [evaluate_eq some whole small]
  refine Semantics.within_flatMap.mpr fun k _ => ?_
  simp [frep, frepBody, List.range_succ, streamed, fcvt, flt, Statement.assign, rng_all, Loc.Fp,
    Loc.Numbers, Loc.Flags]

end Footprints

/-! ## What the stages do -/

section Stages

variable {prngs : Prngs} {hit : BitVec 32 → BitVec 32 → Bool} {core_idx BATCH_SIZE k : Nat}
  {idx : Bool} {m : Mem}

/-- The registers of the generators. -/
def Loc.State : Loc → Prop
  | .int_x _ | .int_y _ | .Ap | .Cp | .s _ => True
  | _ => False

theorem Prngs.At.congr {m' : Mem} (start : prngs.At k m)
    (same : ∀ x : Loc, x.State → m' x = m x) : prngs.At k m' := by
  cases prngs with
  | lcg prngs =>
    obtain ⟨states, A, C⟩ := start
    refine ⟨fun r small => ?_, (same .Ap trivial).trans A, (same .Cp trivial).trans C⟩
    rw [same (.int_x r) trivial, same (.int_y r) trivial]
    exact states r small
  | xoshiro128p prngs =>
    have states : state m' = state m := by
      simp [state, same (.s _) trivial]
    exact states.trans start

/-- Four pairs are stored as they were left. -/
theorem store_value {i r : Nat} (small : r < 4) :
    after Statement.run (prngs.store (fun e => rng_all core_idx BATCH_SIZE .x idx (4 * i + e))
        fun e => rng_all core_idx BATCH_SIZE .y idx (4 * i + e)) m
        (rng_all core_idx BATCH_SIZE .x idx (4 * i + r)) = m (prngs.x r) ∧
      after Statement.run (prngs.store (fun e => rng_all core_idx BATCH_SIZE .x idx (4 * i + e))
        fun e => rng_all core_idx BATCH_SIZE .y idx (4 * i + e)) m
        (rng_all core_idx BATCH_SIZE .y idx (4 * i + r)) = m (prngs.y r) := by
  cases prngs <;> interval_cases r <;>
    simp [Prngs.store, SW_UNROLL_8, sw, Statement.assign, rng_all, Prngs.x, Prngs.y]

/-- An iteration of `generate`. -/
def produce (prngs : Prngs) (core_idx BATCH_SIZE : Nat) (idx : Bool) (i : Nat) : List Asm :=
  prngs.EVAL ++ prngs.store (fun e => rng_all core_idx BATCH_SIZE .x idx (4 * i + e))
    fun e => rng_all core_idx BATCH_SIZE .y idx (4 * i + e)

/-- What the stores of an iteration leave. -/
theorem store_frame {i : Nat} {x : Loc}
    (other : ∀ b, ∀ r < 4, x ≠ rng_all core_idx BATCH_SIZE b idx (4 * i + r)) :
    after Statement.run (prngs.store (fun e => rng_all core_idx BATCH_SIZE .x idx (4 * i + e))
      fun e => rng_all core_idx BATCH_SIZE .y idx (4 * i + e)) m x = m x := by
  refine store_within.frame ?_
  rintro ⟨r, small, same | same⟩ <;> exact other _ r small same

/-- **The iterations leave the pairs in order.** -/
theorem produce_values (start : prngs.At k m) (n : Nat) :
    prngs.At (k + n)
        (after Statement.run ((List.range n).flatMap (produce prngs core_idx BATCH_SIZE idx)) m) ∧
      ∀ e < 4 * n,
        after Statement.run ((List.range n).flatMap (produce prngs core_idx BATCH_SIZE idx)) m
            (rng_all core_idx BATCH_SIZE .x idx e) = (prngs.pair (4 * k + e)).1 ∧
          after Statement.run ((List.range n).flatMap (produce prngs core_idx BATCH_SIZE idx)) m
            (rng_all core_idx BATCH_SIZE .y idx e) = (prngs.pair (4 * k + e)).2 := by
  induction n with
  | zero => exact ⟨start, by simp⟩
  | succ n ih =>
    obtain ⟨before, filled⟩ := ih
    obtain ⟨next, pairs⟩ := eval_pairs before
    rw [List.range_succ, List.flatMap_append, List.flatMap_singleton, after_append, produce,
      after_append]
    refine ⟨next.congr fun x register => store_frame fun b r _ same => ?_, fun e inside => ?_⟩
    · rw [same] at register
      exact register
    · by_cases old : e < 4 * n
      · have other : ∀ b b', ∀ r < 4, rng_all core_idx BATCH_SIZE b idx e ≠
            rng_all core_idx BATCH_SIZE b' idx (4 * n + r) := by
          intro b b' r _ same
          injection same with _ _ same
          omega
        rw [store_frame (other .x), store_frame (other .y), eval_within.frame id,
          eval_within.frame id]
        exact filled e old
      · obtain ⟨r, rfl⟩ : ∃ r, e = 4 * n + r := ⟨e - 4 * n, by omega⟩
        have last : r < 4 := by omega
        rw [(store_value last).1, (store_value last).2, (pairs r last).1, (pairs r last).2,
          Nat.mul_add, Nat.add_assoc]
        exact ⟨rfl, rfl⟩

variable (core_idx idx) in
/-- **A batch holds the next pairs.** -/
theorem generate_value (start : prngs.At k m) (some : 0 < BATCH_SIZE) (whole : 4 ∣ BATCH_SIZE)
    (small : BATCH_SIZE < 2 ^ 32) :
    prngs.At (k + BATCH_SIZE / 4) (after Statement.run (generate prngs BATCH_SIZE
        (rng_all core_idx BATCH_SIZE .x idx) (rng_all core_idx BATCH_SIZE .y idx)) m) ∧
      ∀ e < BATCH_SIZE,
        after Statement.run (generate prngs BATCH_SIZE (rng_all core_idx BATCH_SIZE .x idx)
            (rng_all core_idx BATCH_SIZE .y idx)) m (rng_all core_idx BATCH_SIZE .x idx e) =
          (prngs.pair (4 * k + e)).1 ∧
        after Statement.run (generate prngs BATCH_SIZE (rng_all core_idx BATCH_SIZE .x idx)
            (rng_all core_idx BATCH_SIZE .y idx)) m (rng_all core_idx BATCH_SIZE .y idx e) =
          (prngs.pair (4 * k + e)).2 := by
  rw [generate, times_eq (by omega) (by omega)]
  refine ⟨(produce_values start _).1, fun e inside => ?_⟩
  exact (produce_values start _).2 e (by omega)

/-- An iteration of the FP thread. -/
def compare (hit : BitVec 32 → BitVec 32 → Bool) (core_idx BATCH_SIZE : Nat) (idx : Bool)
    (i : Nat) : List Asm :=
  frep hit (fun r => rng_all core_idx BATCH_SIZE .x idx (i * 4 + r))
    (fun r => rng_all core_idx BATCH_SIZE .y idx (i * 4 + r))
    fun r => rng_all core_idx BATCH_SIZE .z idx (i * 4 + r)

theorem compare_value {i r : Nat} (small : r < 4) :
    after Statement.run (compare hit core_idx BATCH_SIZE idx i) m
        (rng_all core_idx BATCH_SIZE .z idx (i * 4 + r)) =
      flag (hit (m (rng_all core_idx BATCH_SIZE .x idx (i * 4 + r)))
        (m (rng_all core_idx BATCH_SIZE .y idx (i * 4 + r)))) := by
  interval_cases r <;>
    simp [compare, frep, frepBody, List.range_succ, streamed, fcvt, flt, Statement.assign, rng_all]

theorem compare_within {i : Nat} : Statement.Within (Loc.Numbers idx)
    (fun x => x.Fp ∨ ∃ r < 4, x = rng_all core_idx BATCH_SIZE .z idx (i * 4 + r))
    (compare hit core_idx BATCH_SIZE idx i) := by
  simp [compare, frep, frepBody, List.range_succ, streamed, fcvt, flt, Statement.assign, rng_all,
    Loc.Fp, Loc.Numbers]

/-- **The FP thread compares the pairs of its batch.** -/
theorem evaluate_value (some : 0 < BATCH_SIZE) (whole : 4 ∣ BATCH_SIZE)
    (small : BATCH_SIZE < 2 ^ 32) {e : Nat} (inside : e < BATCH_SIZE) :
    after Statement.run (evaluate hit BATCH_SIZE (rng_all core_idx BATCH_SIZE .x idx)
        (rng_all core_idx BATCH_SIZE .y idx) (rng_all core_idx BATCH_SIZE .z idx)) m
        (rng_all core_idx BATCH_SIZE .z idx e) =
      flag (hit (m (rng_all core_idx BATCH_SIZE .x idx e))
        (m (rng_all core_idx BATCH_SIZE .y idx e))) := by
  have split : e / 4 * 4 + e % 4 = e := Nat.div_add_mod' e 4
  have last : e % 4 < 4 := Nat.mod_lt e (by decide)
  have iteration : e / 4 ∈ List.range (BATCH_SIZE / 4) := List.mem_range.mpr (by omega)
  obtain ⟨m', same, value⟩ := Blas.after_one (S := Statement.semantics)
    (f := compare hit core_idx BATCH_SIZE idx) iteration List.nodup_range m
  have keep : ∀ b, Blas.OthersKeep Statement.semantics (List.range (BATCH_SIZE / 4))
      (compare hit core_idx BATCH_SIZE idx) (e / 4) (rng_all core_idx BATCH_SIZE b idx e) := by
    rintro b i _ other a inner written
    rcases (compare_within a inner).2 _ written with register | ⟨r, small, same⟩
    · exact register
    · injection same with _ _ same
      omega
  have here : after Statement.run (compare hit core_idx BATCH_SIZE idx (e / 4)) m'
      (rng_all core_idx BATCH_SIZE .z idx (e / 4 * 4 + e % 4)) = _ := compare_value last
  rw [split, same _ (keep .x), same _ (keep .y)] at here
  rw [evaluate_eq some whole small]
  exact (value _ (keep .z)).trans here

theorem count_value {j q : Nat} (small : q < 8) :
    after Statement.run (count fun e => rng_all core_idx BATCH_SIZE .z idx (j + e)) m (.temp q) =
      m (.temp q) + m (rng_all core_idx BATCH_SIZE .z idx (j + q)) := by
  interval_cases q <;> simp [count, lw, add, Statement.assign, rng_all]

/-- The hits counted so far. -/
def total (m : Mem) : BitVec 32 := ∑ q ∈ Finset.range 8, m (.temp q)

/-- **Counting adds up the flags of a batch.** -/
theorem accumulate_value (whole : 8 ∣ BATCH_SIZE) :
    total (after Statement.run (accumulate BATCH_SIZE (rng_all core_idx BATCH_SIZE .z idx)) m) =
      total m + ∑ e ∈ Finset.range BATCH_SIZE, m (rng_all core_idx BATCH_SIZE .z idx e) := by
  have counts : ∀ n, total (after Statement.run ((List.range n).flatMap fun q =>
        count fun e => rng_all core_idx BATCH_SIZE .z idx (q * 8 + e)) m) =
      total m + ∑ e ∈ Finset.range (n * 8), m (rng_all core_idx BATCH_SIZE .z idx e) := by
    intro n
    induction n with
    | zero => simp
    | succ n ih =>
      rw [List.range_succ, List.flatMap_append, List.flatMap_singleton, after_append, total,
        Nat.succ_mul, Finset.sum_range_add, ← add_assoc, ← ih, total, ← Finset.sum_add_distrib]
      refine Finset.sum_congr rfl fun q inside => ?_
      rw [count_value (Finset.mem_range.mp inside)]
      congr 1
      exact Semantics.Within.frame (Semantics.within_flatMap.mpr fun q _ => count_within) id
  rw [accumulate_eq _ whole, counts, Nat.div_mul_cancel whole]

/-! ### One thread -/

/-- The hits among the first pairs. -/
def hits (prngs : Prngs) (hit : BitVec 32 → BitVec 32 → Bool) (n : Nat) : BitVec 32 :=
  ∑ j ∈ Finset.range n, flag (hit (prngs.pair j).1 (prngs.pair j).2)

/-- **Both variants start with the generators as they are.** -/
theorem load_at (prngs : Prngs) (m : Mem) : prngs.At 0 (prngs.load m) ∧
    prngs.load m .result = 0 ∧ total (prngs.load m) = 0 := by
  cases prngs with
  | lcg prngs => exact ⟨⟨fun r _ => ⟨rfl, rfl⟩, rfl, rfl⟩, rfl, by simp [total, Prngs.load]⟩
  | xoshiro128p prngs => exact ⟨rfl, rfl, by simp [total, Prngs.load]⟩

variable (prngs) in
theorem convert_value (m : Mem) {r : Nat} (small : r < 4) :
    after Statement.run prngs.convert m (.ft r) = m (prngs.x r) ∧
      after Statement.run prngs.convert m (.fa r) = m (prngs.y r) := by
  cases prngs <;> interval_cases r <;>
    simp [Prngs.convert, FCVT_UNROLL_8, fcvt, Statement.assign, Prngs.x, Prngs.y]

/-- The instructions of an iteration after its evaluation. -/
def tally (prngs : Prngs) (hit : BitVec 32 → BitVec 32 → Bool) : List Asm :=
  prngs.convert ++ (List.range 4).map (fun r => flt hit (.a r) (.ft r) (.fa r)) ++
    (List.range 4).map fun r => add .result .result (.a r)

theorem tally_within : Statement.Within (fun _ => True) (fun x => ¬x.State)
    (tally prngs hit) := by
  cases prngs <;> simp [tally, Prngs.convert, FCVT_UNROLL_8, fcvt, flt, add, Statement.assign,
    Loc.State, List.range_succ]

theorem tally_value : after Statement.run (tally prngs hit) m .result =
    m .result + ∑ r ∈ Finset.range 4, flag (hit (m (prngs.x r)) (m (prngs.y r))) := by
  have kept : after Statement.run prngs.convert m .result = m .result := by
    cases prngs <;> simp [Prngs.convert, FCVT_UNROLL_8, fcvt, Statement.assign]
  have converted : ∀ r ∈ Finset.range 4,
      flag (hit (m (prngs.x r)) (m (prngs.y r))) =
        flag (hit (after Statement.run prngs.convert m (.ft r))
          (after Statement.run prngs.convert m (.fa r))) := by
    intro r small
    obtain ⟨x, y⟩ := convert_value prngs m (Finset.mem_range.mp small)
    rw [x, y]
  rw [Finset.sum_congr rfl converted, tally, after_append, after_append, ← kept]
  simp [flt, add, Statement.assign, List.range_succ, Finset.sum_range_succ, add_assoc]

variable (hit) in
/-- **An iteration counts its four pairs.** -/
theorem baselineBody_value (start : prngs.At k m) :
    prngs.At (k + 1) (after Statement.run (baselineBody prngs hit) m) ∧
      after Statement.run (baselineBody prngs hit) m .result =
        m .result + ∑ r ∈ Finset.range 4,
          flag (hit (prngs.pair (k * 4 + r)).1 (prngs.pair (k * 4 + r)).2) := by
  have split : baselineBody prngs hit = prngs.EVAL ++ tally prngs hit := by
    simp only [baselineBody, tally, List.append_assoc]
  obtain ⟨next, pairs⟩ := eval_pairs start
  rw [split, after_append]
  refine ⟨next.congr fun x register => tally_within.frame fun other => other register, ?_⟩
  rw [tally_value, eval_within.frame id]
  congr 1
  refine Finset.sum_congr rfl fun r small => ?_
  obtain ⟨x, y⟩ := pairs r (Finset.mem_range.mp small)
  rw [x, y, Nat.mul_comm k]

/-- **The baseline counts the hits.** -/
theorem baseline_hits {N_CORES : Nat} {n_samples : BitVec 32} (working : core_idx < N_CORES)
    (some : 0 < n_samples.toNat) (whole : 4 ∣ n_samples.toNat) :
    calculate_psum_baseline prngs hit core_idx N_CORES n_samples m =
      hits prngs hit n_samples.toNat := by
  have quarter : (n_samples / 4).toNat = n_samples.toNat / 4 := BitVec.toNat_udiv
  have runs : times (n_samples / 4) = n_samples.toNat / 4 := by
    rw [times_toNat (by omega), quarter]
  obtain ⟨start, zero, -⟩ := load_at prngs m
  rw [calculate_psum_baseline, if_pos working]
  simp only [runs]
  have counts : ∀ n, prngs.At n (after Statement.run
        ((List.range n).flatMap fun _ => baselineBody prngs hit) (prngs.load m)) ∧
      after Statement.run ((List.range n).flatMap fun _ => baselineBody prngs hit)
        (prngs.load m) .result = hits prngs hit (n * 4) := by
    intro n
    induction n with
    | zero => exact ⟨start, by simpa [hits] using zero⟩
    | succ n ih =>
      obtain ⟨before, result⟩ := ih
      obtain ⟨next, more⟩ := baselineBody_value hit before
      rw [List.range_succ, List.flatMap_append, List.flatMap_singleton, after_append]
      exact ⟨next, by rw [more, result, hits, hits, Nat.succ_mul, Finset.sum_range_add]⟩
  rw [(counts _).2, Nat.div_mul_cancel whole]

end Stages

end SnitchCluster.Kernels.PiEstimation
