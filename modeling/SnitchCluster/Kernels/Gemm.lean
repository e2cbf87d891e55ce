/-
# Kernels.Gemm -- one tile on one cluster

A tile kernel computes `C := A * B + beta * C` on matrices given by a pointer and a leading
dimension (`gemm_fp32_naive`, `sw/kernels/blas/gemm/src/gemm_fp32.h`); `Exact` says so in the
terms a caller needs.  `sc_st_gemm` (`gemm.h`) deals the rows of `C` out to the compute cores
in turn: core `i` runs the kernel on rows `i`, `i + core_num`, ... by scaling the leading
dimensions.  The cores together leave the same product (`sc_st_gemm_product`), whatever their
number.

An array is a function of the element index, a pointer into an operand the array seen from
there, a pointer into `C` the index it points to.
-/
import Mathlib.Algebra.BigOperators.Ring.Finset
import Mathlib.Tactic.Ring
import SnitchCluster.Theory.Loops

namespace SnitchCluster.Kernels

open Theory.Loops

universe u

variable {F : Type u}

/-- `multiply_opt` of `blas.h`. -/
def multiply_opt [Semiring F] (multiplicand : F) (multiplier : Nat) : F :=
  if multiplier = 0 then 0 else multiplicand * multiplier

@[simp] theorem multiply_opt_eq [Semiring F] (x : F) (beta : Nat) :
    multiply_opt x beta = x * beta := by
  unfold multiply_opt
  split
  · next none => rw [none, Nat.cast_zero, mul_zero]
  · rfl

/-- `gemm_fp_t`: `transa transb M N K A lda B ldb beta C ldc`, `C` an index into the memory the
kernel transforms. -/
abbrev GemmFp (F : Type u) : Type u :=
  Bool → Bool → Nat → Nat → Nat → (Nat → F) → Nat → (Nat → F) → Nat → Nat → Nat → Nat →
    (Nat → F) → Nat → F

/-- The four branches of the source differ in how they index `A` and `B`. -/
def gemm_fp32_naive [Semiring F] : GemmFp F :=
  fun transa transb M N K A lda B ldb beta c ldc =>
    let a m k := if transa then A (k * M * lda + m * lda) else A (k + m * lda)
    let b k n := if transb then B (k + n * ldb) else B (k * ldb + n)
    loop M fun m => loop N fun n C =>
      Function.update C (c + (m * ldc + n))
        (loop K (fun k c0 => c0 + a m k * b k n) (multiply_opt (C (c + (m * ldc + n))) beta))

/-- `sc_st_gemm_args_t`, as far as the product depends on it. -/
structure ScStGemmArgs (F : Type u) where
  transa : Bool
  transb : Bool
  m : Nat
  n : Nat
  k : Nat
  a : Nat → F
  lda : Nat
  b : Nat → F
  ldb : Nat
  beta : Nat
  ldc : Nat

/-- `sc_st_gemm` on core `core_idx` of `core_num`. -/
def sc_st_gemm (kernel : GemmFp F) (args : ScStGemmArgs F) (core_num core_idx : Nat)
    (C : Nat → F) : Nat → F :=
  let lda := core_num * args.lda
  let ldc := core_num * args.ldc
  let offset_a := core_idx * args.lda
  let offset_c := core_idx * args.ldc
  let frac_m := args.m / core_num + if core_idx < args.m % core_num then 1 else 0
  if 0 < frac_m then
    kernel args.transa args.transb frac_m args.n args.k (fun x => args.a (offset_a + x)) lda
      args.b args.ldb args.beta offset_c ldc C
  else C

/-! ## Rows and columns -/

/-- A row and a column are recovered from the element they address. -/
theorem element_inj {ld m n m' n' : Nat} (column : n < ld) (column' : n' < ld) :
    m * ld + n = m' * ld + n' ↔ m = m' ∧ n = n' := by
  constructor
  · intro same
    have row : (m * ld + n) / ld = m := by
      rw [Nat.mul_comm, Nat.mul_add_div (by omega), Nat.div_eq_of_lt column, Nat.add_zero]
    have row' : (m' * ld + n') / ld = m' := by
      rw [Nat.mul_comm, Nat.mul_add_div (by omega), Nat.div_eq_of_lt column', Nat.add_zero]
    have rows : m = m' := by rw [← row, ← row', same]
    subst rows
    exact ⟨rfl, Nat.add_left_cancel same⟩
  · rintro ⟨rfl, rfl⟩
    rfl

/-- Row `q` of what core `i` sees. -/
theorem dealt_element (core_num i q ld n : Nat) :
    i * ld + (q * (core_num * ld) + n) = (q * core_num + i) * ld + n := by
  ring

/-- How many of the rows `i`, `i + core_num`, ... lie below `m`. -/
theorem dealt_lt {core_num i m q : Nat} (core : i < core_num) :
    q < m / core_num + (if i < m % core_num then 1 else 0) ↔ q * core_num + i < m := by
  have whole := Nat.div_add_mod m core_num
  have rest := Nat.mod_lt m (Nat.lt_of_le_of_lt (Nat.zero_le i) core)
  generalize m / core_num = full at whole ⊢
  generalize m % core_num = rem at whole rest ⊢
  subst whole
  constructor
  · intro below
    split at below
    · have rows : q * core_num ≤ full * core_num := Nat.mul_le_mul_right _ (by omega)
      rw [Nat.mul_comm core_num full]
      omega
    · have rows : (q + 1) * core_num ≤ full * core_num := Nat.mul_le_mul_right _ below
      rw [Nat.add_mul, Nat.one_mul] at rows
      rw [Nat.mul_comm core_num full]
      omega
  · intro below
    by_contra out
    rw [Nat.mul_comm core_num full] at below
    split at out
    · have rows : (full + 1) * core_num ≤ q * core_num := Nat.mul_le_mul_right _ (by omega)
      rw [Nat.add_mul, Nat.one_mul] at rows
      omega
    · have rows : full * core_num ≤ q * core_num := Nat.mul_le_mul_right _ (by omega)
      omega

/-! ## What a kernel computes -/

/-- Every `core_num`-th row. -/
def dealtRows (core_num core_idx M : Nat) : List Nat :=
  (List.range (M / core_num + if core_idx < M % core_num then 1 else 0)).map
    fun q => q * core_num + core_idx

theorem mem_dealtRows {core_num core_idx M m : Nat} (core : core_idx < core_num) :
    m ∈ dealtRows core_num core_idx M ↔ m < M ∧ m % core_num = core_idx := by
  simp only [dealtRows, List.mem_map, List.mem_range, dealt_lt core]
  constructor
  · rintro ⟨q, below, rfl⟩
    exact ⟨below, grid_mod core⟩
  · rintro ⟨below, rfl⟩
    have whole : m / core_num * core_num + m % core_num = m := by
      rw [Nat.mul_comm]
      exact Nat.div_add_mod m core_num
    exact ⟨m / core_num, by rwa [whole], whole⟩

theorem nodup_dealtRows {core_num core_idx M : Nat} (core : core_idx < core_num) :
    (dealtRows core_num core_idx M).Nodup := by
  refine List.nodup_range.map fun q q' same => ?_
  exact Nat.eq_of_mul_eq_mul_right (Nat.lt_of_le_of_lt (Nat.zero_le _) core)
    (Nat.add_right_cancel same)

/-- Entry `(k, n)` of the second operand. -/
def operandB (transb : Bool) (B : Nat → F) (ldb k n : Nat) : F :=
  if transb then B (n * ldb + k) else B (k * ldb + n)

section Exact

variable [Semiring F]

/-- `C := A * B + beta * C`, and nothing else. -/
structure Exact (kernel : GemmFp F) : Prop where
  product : ∀ (transb : Bool) (M N K : Nat) (A : Nat → F) (lda : Nat) (B : Nat → F)
    (ldb beta c ldc : Nat) (C : Nat → F), N ≤ ldc → ∀ m < M, ∀ n < N,
      kernel false transb M N K A lda B ldb beta c ldc C (c + (m * ldc + n)) =
        C (c + (m * ldc + n)) * beta +
          ∑ k ∈ Finset.range K, A (m * lda + k) * operandB transb B ldb k n
  frame : ∀ (transb : Bool) (M N K : Nat) (A : Nat → F) (lda : Nat) (B : Nat → F)
    (ldb beta c ldc : Nat) (C : Nat → F) (x : Nat),
      (∀ m < M, ∀ n < N, c + (m * ldc + n) ≠ x) →
        kernel false transb M N K A lda B ldb beta c ldc C x = C x

theorem gemm_fp32_naive_exact : Exact (gemm_fp32_naive : GemmFp F) where
  product transb M N K A lda B ldb beta c ldc C fits m row n column := by
    have apart : ∀ m' n', n' < N → c + (m' * ldc + n') = c + (m * ldc + n) → m' = m ∧ n' = n :=
      fun m' n' column' same =>
        (element_inj (Nat.lt_of_lt_of_le column' fits) (Nat.lt_of_lt_of_le column fits)).mp
          (Nat.add_left_cancel same)
    refine loop_once (fun C : Nat → F => C (c + (m * ldc + n)))
      (g := fun x => x * beta +
        ∑ k ∈ Finset.range K, A (m * lda + k) * operandB transb B ldb k n) row ?_ ?_
    · intro m' _ other C
      exact loop_outside fun n' column' same => other (apart m' n' column' same).1
    · intro C
      refine (loop_fill (p := fun n => c + (m * ldc + n)) (f := fun n x => loop K (fun k c0 => c0 + A (k + m * lda) *
        (if transb then B (k + n * ldb) else B (k * ldb + n))) (multiply_opt x beta)) column fun n' column' other same =>
        other (apart m n' column' same).2).trans ?_
      rw [loop_add, multiply_opt_eq]
      cases transb <;> simp [operandB, Nat.add_comm]
  frame transb M N K A lda B ldb beta c ldc C x outside := by
    refine loop_still (fun C : Nat → F => C x) fun m row C => ?_
    exact loop_outside fun n column => outside m row n column

variable {kernel : GemmFp F} {args : ScStGemmArgs F} {core_num : Nat}

section

variable (exact : Exact kernel) (plain : args.transa = false) (fits : args.n ≤ args.ldc)

include exact plain fits

/-- A core leaves the rows of the others. -/
theorem sc_st_gemm_other {core_idx m n : Nat} (core : core_idx < core_num)
    (column : n < args.n) (other : core_idx ≠ m % core_num) (C : Nat → F) :
    sc_st_gemm kernel args core_num core_idx C (m * args.ldc + n) = C (m * args.ldc + n) := by
  unfold sc_st_gemm
  by_cases rows : 0 < args.m / core_num + if core_idx < args.m % core_num then 1 else 0
  · rw [if_pos rows, plain]
    refine exact.frame _ _ _ _ _ _ _ _ _ _ _ _ _ fun q _ n' column' same => other ?_
    rw [dealt_element, element_inj (Nat.lt_of_lt_of_le column' fits)
      (Nat.lt_of_lt_of_le column fits)] at same
    rw [← same.1, Nat.add_comm, Nat.add_mul_mod_self_right, Nat.mod_eq_of_lt core]
  · rw [if_neg rows]

/-- A core computes its own. -/
theorem sc_st_gemm_own {m n : Nat} (some_core : 0 < core_num) (row : m < args.m)
    (column : n < args.n) (C : Nat → F) :
    sc_st_gemm kernel args core_num (m % core_num) C (m * args.ldc + n) =
      C (m * args.ldc + n) * args.beta + ∑ k ∈ Finset.range args.k,
          args.a (m * args.lda + k) * operandB args.transb args.b args.ldb k n := by
  have whole : m / core_num * core_num + m % core_num = m := by
    rw [Nat.mul_comm]
    exact Nat.div_add_mod m core_num
  have mine : m / core_num <
      args.m / core_num + if m % core_num < args.m % core_num then 1 else 0 := by
    rw [dealt_lt (Nat.mod_lt m some_core), whole]
    exact row
  have address : ∀ ld n : Nat,
      m % core_num * ld + (m / core_num * (core_num * ld) + n) = m * ld + n := by
    intro ld n
    rw [dealt_element, whole]
  unfold sc_st_gemm
  rw [if_pos (Nat.lt_of_le_of_lt (Nat.zero_le _) mine), plain, ← address args.ldc n,
    exact.product _ _ _ _ _ _ _ _ _ _ _ _
      (fits.trans (Nat.le_mul_of_pos_left _ some_core)) _ mine _ column]
  congr 1
  refine Finset.sum_congr rfl fun k _ => ?_
  rw [address]

/-- **The cores of the cluster leave the whole product.** -/
theorem sc_st_gemm_product {m n : Nat} (some_core : 0 < core_num) (row : m < args.m)
    (column : n < args.n) (C : Nat → F) :
    loop core_num (sc_st_gemm kernel args core_num) C (m * args.ldc + n) =
      C (m * args.ldc + n) * args.beta + ∑ k ∈ Finset.range args.k,
          args.a (m * args.lda + k) * operandB args.transb args.b args.ldb k n := by
  refine loop_once (fun C : Nat → F => C (m * args.ldc + n))
    (g := fun x => x * args.beta + ∑ k ∈ Finset.range args.k,
      args.a (m * args.lda + k) * operandB args.transb args.b args.ldb k n)
    (Nat.mod_lt m some_core) ?_ ?_
  · exact fun i core other C => sc_st_gemm_other exact plain fits core column other C
  · exact fun C => sc_st_gemm_own exact plain fits some_core row column C

end

end Exact

end SnitchCluster.Kernels
