/-
# Kernels.FlashAttention -- attention in tiles

`flashattention_2_fp32` (`sw/kernels/dnn/flashattention_2/src/flashattention_2_fp32.h`) with
`baseline` set.  A row block of `Q` meets the column blocks of `K` one after the other; every
row keeps the maximum of its scores so far (`m_i`), its denominator (`l_i`) and its
unnormalized output (`O_fa`), and rescales the last two whenever the maximum moves.

The denominator is multiplied by `shifted_exp = expf(m_i_prev - m_i)`; the output is divided
by it.  After `j` column blocks the output is therefore `skewed` and not the numerator of the
softmax (`column_block_row`, `flashattention_2_fp32_eq`).  With the baseline the phases between
two cluster barriers touch apart rows or apart arrays, so the cores of a phase run here one
after the other.
-/
import Mathlib.Analysis.SpecialFunctions.Exp
import SnitchCluster.Kernels.Gemm
import SnitchCluster.Theory.Softmax

namespace SnitchCluster.Kernels

open Theory.Loops Theory.Softmax

universe u

variable {F : Type u}

/-! ## Tiles and rows -/

section Distribution

variable {α : Type u}

/-- `snrt_dma_load_2d_tile` of `sw/runtime/src/dma.h`, in elements. -/
def snrt_dma_load_2d_tile (src : Nat → α)
    (tile_x1_idx tile_x0_idx tile_x1_size tile_x0_size full_x0_size : Nat) :
    (Nat → α) → Nat → α :=
  loop tile_x1_size fun x1 => loop tile_x0_size fun x0 dst =>
    Function.update dst (x1 * tile_x0_size + x0)
      (src (tile_x0_idx * tile_x0_size + tile_x1_idx * tile_x1_size * full_x0_size +
        (x1 * full_x0_size + x0)))

def snrt_dma_store_2d_tile (src : Nat → α)
    (tile_x1_idx tile_x0_idx tile_x1_size tile_x0_size full_x0_size : Nat) :
    (Nat → α) → Nat → α :=
  loop tile_x1_size fun x1 => loop tile_x0_size fun x0 dst =>
    Function.update dst
      (tile_x0_idx * tile_x0_size + tile_x1_idx * tile_x1_size * full_x0_size +
        (x1 * full_x0_size + x0))
      (src (x1 * tile_x0_size + x0))

/-- The rows of one core, `start_row` to `end_row`: the last core handles the remainder. -/
def forRows {σ : Type u} (B_r num_cores compute_id : Nat) (body : Nat → σ → σ) : σ → σ :=
  let rows_per_core := B_r / num_cores
  let start_row := rows_per_core * compute_id
  let end_row := if compute_id = num_cores - 1 then B_r else start_row + rows_per_core
  loop (end_row - start_row) fun i => body (start_row + i)

variable {src dst : Nat → α} {x1_idx x1_size x0_size : Nat}

/-- Full rows, as every transfer of this kernel moves them. -/
theorem load_tile_element {x1 x0 : Nat} (row : x1 < x1_size) (column : x0 < x0_size) :
    snrt_dma_load_2d_tile src x1_idx 0 x1_size x0_size x0_size dst (x1 * x0_size + x0) =
      src ((x1_idx * x1_size + x1) * x0_size + x0) := by
  refine (loop_once (fun dst : Nat → α => dst (x1 * x0_size + x0))
    (g := fun _ => src ((x1_idx * x1_size + x1) * x0_size + x0)) row ?_ ?_)
  · intro x1' _ other dst
    exact loop_outside fun x0' column' same => other ((element_inj column' column).mp same).1
  · intro dst
    refine (loop_fill (p := fun x0 => x1 * x0_size + x0)
      (f := fun x0 _ => src (0 * x0_size + x1_idx * x1_size * x0_size + (x1 * x0_size + x0)))
      column fun x0' column' other same => other ((element_inj column' column).mp same).2).trans ?_
    congr 1
    ring

theorem store_tile_element {x1 x0 : Nat} (row : x1 < x1_size) (column : x0 < x0_size) :
    snrt_dma_store_2d_tile src x1_idx 0 x1_size x0_size x0_size dst
        ((x1_idx * x1_size + x1) * x0_size + x0) =
      src (x1 * x0_size + x0) := by
  have address : ∀ x1 x0 : Nat, 0 * x0_size + x1_idx * x1_size * x0_size + (x1 * x0_size + x0) =
      (x1_idx * x1_size + x1) * x0_size + x0 := by
    intro x1 x0
    ring
  unfold snrt_dma_store_2d_tile
  simp only [address]
  refine (loop_once (fun dst : Nat → α => dst ((x1_idx * x1_size + x1) * x0_size + x0))
    (g := fun _ => src (x1 * x0_size + x0)) row ?_ ?_)
  · intro x1' _ other dst
    refine loop_outside fun x0' column' same => other ?_
    exact Nat.add_left_cancel ((element_inj column' column).mp same).1
  · intro dst
    exact loop_fill (p := fun x0 => (x1_idx * x1_size + x1) * x0_size + x0)
      (f := fun x0 _ => src (x1 * x0_size + x0))
      column fun x0' column' other same => other ((element_inj column' column).mp same).2

/-- What a store leaves: the rows of other tiles. -/
theorem store_tile_other {x1_idx' x1 x0 : Nat} (row : x1 < x1_size) (column : x0 < x0_size)
    (other : x1_idx' ≠ x1_idx) :
    snrt_dma_store_2d_tile src x1_idx' 0 x1_size x0_size x0_size dst
        ((x1_idx * x1_size + x1) * x0_size + x0) =
      dst ((x1_idx * x1_size + x1) * x0_size + x0) := by
  refine loop_still (fun dst : Nat → α => dst ((x1_idx * x1_size + x1) * x0_size + x0))
    fun x1' row' dst => loop_outside fun x0' column' same => other ?_
  have same : (x1_idx' * x1_size + x1') * x0_size + x0' =
      (x1_idx * x1_size + x1) * x0_size + x0 := by
    rw [← same]
    ring
  exact ((element_inj row' row).mp ((element_inj column' column).mp same).1).1

/-- The cores take the rows block by block, so together they run through all of them. -/
theorem forRows_cores {σ : Type u} (B_r : Nat) {num_cores : Nat} (some_core : 0 < num_cores)
    (body : Nat → σ → σ) (s : σ) :
    loop num_cores (fun core => forRows B_r num_cores core body) s = loop B_r body s := by
  obtain ⟨last, rfl⟩ := Nat.exists_eq_succ_of_ne_zero some_core.ne'
  have first : ∀ cores ≤ last, loop cores (fun core => forRows B_r (last + 1) core body) s =
      loop (B_r / (last + 1) * cores) body s := by
    intro cores below
    induction cores with
    | zero => rfl
    | succ core ih =>
      rw [loop_succ, ih (Nat.le_of_succ_le below), Nat.mul_succ, loop_append]
      unfold forRows
      rw [if_neg (by omega), Nat.add_sub_cancel_left]
  have within : B_r / (last + 1) * last ≤ B_r :=
    (Nat.mul_le_mul_left _ (Nat.le_succ last)).trans (Nat.div_mul_le_self B_r _)
  rw [Nat.succ_eq_add_one, loop_succ, first last le_rfl]
  unfold forRows
  rw [if_pos (by omega), ← loop_append, Nat.add_sub_of_le within]

end Distribution
/-! ## The layer -/

/-- `flashattention_2_layer_t`. -/
structure FlashAttention2Layer (F : Type u) where
  L : Nat
  S : Nat
  d : Nat
  B_r : Nat
  B_c : Nat
  Q : Nat → F
  K : Nat → F
  V : Nat → F

/-- The buffers in the cluster's memory. -/
structure FlashAttentionBuffers (F : Type u) where
  Q_fa : Nat → F
  K_fa : Nat → F
  V_fa : Nat → F
  S_fa : Nat → F
  P_fa : Nat → F
  O_fa : Nat → F
  m_i : Nat → WithBot F
  m_i_prev : Nat → WithBot F
  l_i : Nat → F

section Kernel

variable [Field F] [LinearOrder F] (exp : F → F) (kernel : GemmFp F) (num_cores : Nat)
  (layer : FlashAttention2Layer F)

/-- `expf`, minus infinity being `⊥`. -/
def expf : WithBot F → F
  | ⊥ => 0
  | (x : F) => exp x

/-- The subtrahend is a maximum over some score, never minus infinity. -/
def minus : WithBot F → WithBot F → WithBot F := WithBot.map₂ (· - ·)

/-- Iterate over all columns to calculate the maximum of the row. -/
def row_max (B_c row_idx : Nat) (S_fa : Nat → F) : (Nat → WithBot F) → Nat → WithBot F :=
  loop B_c fun col_idx m_i =>
    let val : WithBot F := (S_fa (row_idx * B_c + col_idx) : F)
    if m_i row_idx < val then Function.update m_i row_idx val else m_i

/-- The row of `P` and its sum. -/
def row_exp (B_c row_idx : Nat) (S_fa : Nat → F) (m : WithBot F) :
    (Nat → F) × F → (Nat → F) × F :=
  loop B_c fun col_idx (P_fa, row_sum) =>
    let P_fa := Function.update P_fa (row_idx * B_c + col_idx)
      (expf exp (minus (S_fa (row_idx * B_c + col_idx) : F) m))
    (P_fa, row_sum + P_fa (row_idx * B_c + col_idx))

/-- `O_fa[row_idx * d + col_idx] /= divisor`. -/
def divide_row (row_idx : Nat) (divisor : F) : (Nat → F) → Nat → F :=
  loop layer.d fun col_idx O_fa =>
    Function.update O_fa (row_idx * layer.d + col_idx) (O_fa (row_idx * layer.d + col_idx) / divisor)

/-- The rows' loop between the two products. -/
def softmax_row (t_c row_idx : Nat) (s : FlashAttentionBuffers F) : FlashAttentionBuffers F :=
  let m_i_prev := Function.update s.m_i_prev row_idx (s.m_i row_idx)
  let m_i := row_max layer.B_c row_idx s.S_fa s.m_i
  let P_sum := row_exp exp layer.B_c row_idx s.S_fa (m_i row_idx) (s.P_fa, 0)
  let row_sum := P_sum.2
  let shifted_exp := expf exp (minus (m_i_prev row_idx) (m_i row_idx))
  let l_i := Function.update s.l_i row_idx
    (if t_c ≠ 0 then s.l_i row_idx * shifted_exp + row_sum else row_sum)
  let O_fa := if t_c ≠ 0 then divide_row layer row_idx shifted_exp s.O_fa else s.O_fa
  { s with m_i_prev := m_i_prev, m_i := m_i, P_fa := P_sum.1, l_i := l_i, O_fa := O_fa }

/-- `S = Q * K^T`. -/
def scoreArgs (s : FlashAttentionBuffers F) : ScStGemmArgs F where
  transa := false
  transb := true
  m := layer.B_r
  n := layer.B_c
  k := layer.d
  a := s.Q_fa
  lda := layer.d
  b := s.K_fa
  ldb := layer.d
  beta := 0
  ldc := layer.B_c

/-- `O = P * V`, added to `O` from the second column block on. -/
def outputArgs (t_c : Nat) (s : FlashAttentionBuffers F) : ScStGemmArgs F where
  transa := false
  transb := false
  m := layer.B_r
  n := layer.d
  k := layer.B_c
  a := s.P_fa
  lda := layer.B_c
  b := s.V_fa
  ldb := layer.d
  beta := if t_c = 0 then 0 else 1
  ldc := layer.d

/-- One turn of the `t_c` loop. -/
def column_block (t_c : Nat) (s : FlashAttentionBuffers F) : FlashAttentionBuffers F :=
  let s := { s with
    K_fa := snrt_dma_load_2d_tile layer.K t_c 0 layer.B_c layer.d layer.d s.K_fa
    V_fa := snrt_dma_load_2d_tile layer.V t_c 0 layer.B_c layer.d layer.d s.V_fa }
  let s := { s with
    S_fa := loop num_cores (sc_st_gemm kernel (scoreArgs layer s) num_cores) s.S_fa }
  let s := loop num_cores
    (fun core => forRows layer.B_r num_cores core (softmax_row exp layer t_c)) s
  { s with
    O_fa := loop num_cores (sc_st_gemm kernel (outputArgs layer t_c s) num_cores) s.O_fa }

def init_row (row_idx : Nat) (s : FlashAttentionBuffers F) : FlashAttentionBuffers F :=
  { s with
    m_i := Function.update s.m_i row_idx ⊥
    m_i_prev := Function.update s.m_i_prev row_idx ⊥
    l_i := Function.update s.l_i row_idx 0 }

/-- `O_i = diag(l_i)^-1 * O_i`. -/
def rescale_row (row_idx : Nat) (s : FlashAttentionBuffers F) : FlashAttentionBuffers F :=
  { s with O_fa := divide_row layer row_idx (s.l_i row_idx) s.O_fa }

/-- One turn of the `t_r` loop, on the buffers and on `O` in memory. -/
def row_block (t_r : Nat) (s : FlashAttentionBuffers F × (Nat → F)) :
    FlashAttentionBuffers F × (Nat → F) :=
  let buffers := { s.1 with
    Q_fa := snrt_dma_load_2d_tile layer.Q t_r 0 layer.B_r layer.d layer.d s.1.Q_fa }
  let buffers := loop num_cores (fun core => forRows layer.B_r num_cores core init_row) buffers
  let buffers := loop (layer.S / layer.B_c) (column_block exp kernel num_cores layer) buffers
  let buffers := loop num_cores
    (fun core => forRows layer.B_r num_cores core (rescale_row layer)) buffers
  (buffers, snrt_dma_store_2d_tile buffers.O_fa t_r 0 layer.B_r layer.d layer.d s.2)

/-- `O` after the layer. -/
def flashattention_2_fp32 (s : FlashAttentionBuffers F) (O : Nat → F) : Nat → F :=
  (loop (layer.L / layer.B_r) (row_block exp kernel num_cores layer) (s, O)).2

end Kernel

/-! ## One row of one column block -/

section Row

variable {B_c r r' c : Nat} {S_fa P_fa O_fa : Nat → F} {m_i : Nat → WithBot F}

theorem row_max_other [LinearOrder F] (other : r' ≠ r) : row_max B_c r' S_fa m_i r = m_i r := by
  refine loop_still (fun m_i : Nat → WithBot F => m_i r) fun col_idx _ m_i => ?_
  rw [ite_apply]
  split
  · exact Function.update_of_ne other.symm _ _
  · rfl

theorem row_max_own [LinearOrder F] {s : Nat → F} {n : Nat} (was : m_i r = top s n)
    (scores : ∀ c < B_c, S_fa (r * B_c + c) = s (n + c)) :
    row_max B_c r S_fa m_i r = top s (n + B_c) := by
  refine loop_invariant (fun c (m_i : Nat → WithBot F) => m_i r = top s (n + c)) was ?_
  intro c inside m_i so_far
  rw [← Nat.add_assoc, top_succ, ← scores c inside, ← so_far, ite_apply]
  split
  · next above => rw [Function.update_self, sup_eq_right.mpr above.le]
  · next below => rw [sup_eq_left.mpr (not_lt.mp below)]

variable [Field F] {exp : F → F} {layer : FlashAttention2Layer F}

theorem row_exp_other {m : WithBot F} {row_sum : F} (column : c < B_c) (other : r' ≠ r) :
    (row_exp exp B_c r' S_fa m (P_fa, row_sum)).1 (r * B_c + c) = P_fa (r * B_c + c) := by
  refine loop_still (fun P_sum : (Nat → F) × F => P_sum.1 (r * B_c + c)) fun c' column' _ =>
    Function.update_of_ne ?_ _ _
  exact fun same => other ((element_inj column' column).mp same.symm).1

theorem row_exp_own (exp : F → F) (B_c r : Nat) (S_fa P_fa : Nat → F) (m : F) :
    (∀ c < B_c, (row_exp exp B_c r S_fa m (P_fa, 0)).1 (r * B_c + c) =
      exp (S_fa (r * B_c + c) - m)) ∧
    (row_exp exp B_c r S_fa m (P_fa, 0)).2 =
      ∑ c ∈ Finset.range B_c, exp (S_fa (r * B_c + c) - m) := by
  refine loop_invariant (fun n (P_sum : (Nat → F) × F) =>
    (∀ c < n, P_sum.1 (r * B_c + c) = exp (S_fa (r * B_c + c) - m)) ∧
    P_sum.2 = ∑ c ∈ Finset.range n, exp (S_fa (r * B_c + c) - m)) ?_ ?_
  · exact ⟨fun c none => absurd none (Nat.not_lt_zero c), rfl⟩
  · intro n inside P_sum so_far
    refine ⟨fun c below => ?_, ?_⟩
    · rcases Nat.lt_succ_iff_lt_or_eq.mp below with past | rfl
      · refine (Function.update_of_ne ?_ _ _).trans (so_far.1 c past)
        exact fun same => past.ne (Nat.add_left_cancel same)
      · exact Function.update_self _ _ _
    · rw [Finset.sum_range_succ, ← so_far.2]
      exact congrArg _ (Function.update_self _ _ _)

theorem divide_row_other {x : F} (column : c < layer.d) (other : r' ≠ r) :
    divide_row layer r' x O_fa (r * layer.d + c) = O_fa (r * layer.d + c) :=
  loop_outside fun _ column' same => other ((element_inj column' column).mp same).1

theorem divide_row_own {x : F} (column : c < layer.d) :
    divide_row layer r x O_fa (r * layer.d + c) = O_fa (r * layer.d + c) / x :=
  loop_fill (p := fun c => r * layer.d + c) (f := fun _ o => o / x) column
    fun _ _ other same => other (Nat.add_left_cancel same)

end Row

section Blocks

variable [Field F] [LinearOrder F] (exp : F → F) (layer : FlashAttention2Layer F)

/-- `s = Q * K^T`. -/
def score (i k : Nat) : F :=
  ∑ e ∈ Finset.range layer.d, layer.Q (i * layer.d + e) * layer.K (k * layer.d + e)

/-- Column `c` of `V`. -/
def value (c k : Nat) : F := layer.V (k * layer.d + c)

/-- Row `i` of the layer, in row `r` of its block, after `j` column blocks. -/
structure RowAfter (i r j : Nat) (s : FlashAttentionBuffers F) : Prop where
  m_i : s.m_i r = top (score layer i) (j * layer.B_c)
  l_i : s.l_i r = mass exp (score layer i) layer.B_c j
  O_fa : 0 < j → ∀ c < layer.d,
    s.O_fa (r * layer.d + c) = skewed exp (score layer i) (value layer c) layer.B_c j

/-- The row when its scores of column block `j` are there. -/
structure RowScored (i r j : Nat) (s : FlashAttentionBuffers F) : Prop extends
    RowAfter exp layer i r j s where
  S_fa : ∀ c < layer.B_c, s.S_fa (r * layer.B_c + c) = score layer i (j * layer.B_c + c)

/-- The row between its softmax and the second product. -/
structure RowWeighed (i r j : Nat) (s : FlashAttentionBuffers F) : Prop where
  m_i : s.m_i r = top (score layer i) ((j + 1) * layer.B_c)
  l_i : s.l_i r = mass exp (score layer i) layer.B_c (j + 1)
  P_fa : ∀ c < layer.B_c, s.P_fa (r * layer.B_c + c) =
    exp (score layer i (j * layer.B_c + c) - blockPeak (score layer i) layer.B_c (j + 1))
  O_fa : 0 < j → ∀ c < layer.d, s.O_fa (r * layer.d + c) =
    skewed exp (score layer i) (value layer c) layer.B_c j /
      exp (blockPeak (score layer i) layer.B_c j - blockPeak (score layer i) layer.B_c (j + 1))

variable {exp layer} {i r r' j : Nat} {s : FlashAttentionBuffers F}

theorem softmax_row_O_fa (later : 0 < j) : (softmax_row exp layer j r s).O_fa =
    divide_row layer r
      (expf exp (minus (s.m_i r) (row_max layer.B_c r s.S_fa s.m_i r))) s.O_fa := by
  have again : (j ≠ 0) = True := eq_true later.ne'
  simp only [softmax_row, again, if_true, Function.update_self]

theorem softmax_row_l_i : (softmax_row exp layer j r s).l_i r =
    let m := row_max layer.B_c r s.S_fa s.m_i r
    let row_sum := (row_exp exp layer.B_c r s.S_fa m (s.P_fa, 0)).2
    if j ≠ 0 then s.l_i r * expf exp (minus (s.m_i r) m) + row_sum else row_sum := by
  simp only [softmax_row, Function.update_self]

/-- Another row of the softmax. -/
theorem RowScored.other (scored : RowScored exp layer i r j s) (other : r' ≠ r) :
    RowScored exp layer i r j (softmax_row exp layer j r' s) where
  m_i := (row_max_other other).trans scored.m_i
  l_i := (Function.update_of_ne other.symm _ _).trans scored.l_i
  O_fa := by
    intro later c column
    refine Eq.trans ?_ (scored.O_fa later c column)
    rw [softmax_row_O_fa later]
    exact divide_row_other column other
  S_fa := scored.S_fa

theorem RowWeighed.other (weighed : RowWeighed exp layer i r j s) (other : r' ≠ r) :
    RowWeighed exp layer i r j (softmax_row exp layer j r' s) where
  m_i := (row_max_other other).trans weighed.m_i
  l_i := (Function.update_of_ne other.symm _ _).trans weighed.l_i
  P_fa c column := (row_exp_other column other).trans (weighed.P_fa c column)
  O_fa := by
    intro later c column
    refine Eq.trans ?_ (weighed.O_fa later c column)
    rw [softmax_row_O_fa later]
    exact divide_row_other column other

/-- Its own. -/
theorem RowScored.weigh (scored : RowScored exp layer i r j s) (e : Exponential exp)
    (some_score : 0 < layer.B_c) : RowWeighed exp layer i r j (softmax_row exp layer j r s) := by
  have m_i : row_max layer.B_c r s.S_fa s.m_i r =
      ((blockPeak (score layer i) layer.B_c (j + 1) : F) : WithBot F) := by
    rw [row_max_own scored.m_i scored.S_fa, blockPeak, coe_peak (by positivity), Nat.add_mul,
      Nat.one_mul]
  have before : 0 < j → s.m_i r = ((blockPeak (score layer i) layer.B_c j : F) : WithBot F) := by
    intro later
    rw [scored.m_i, blockPeak, coe_peak (by positivity)]
  obtain ⟨P_fa, row_sum⟩ := row_exp_own exp layer.B_c r s.S_fa s.P_fa
    (blockPeak (score layer i) layer.B_c (j + 1))
  have here : ∀ c < layer.B_c,
      exp (s.S_fa (r * layer.B_c + c) - blockPeak (score layer i) layer.B_c (j + 1)) =
        exp (score layer i (j * layer.B_c + c) -
          blockPeak (score layer i) layer.B_c (j + 1)) := by
    intro c column
    rw [scored.S_fa c column]
  constructor
  · exact (row_max_own scored.m_i scored.S_fa).trans (by rw [Nat.add_mul, Nat.one_mul])
  · rw [softmax_row_l_i]
    simp only [m_i]
    rw [row_sum, mass_block e, Finset.sum_congr rfl fun c inside =>
      here c (Finset.mem_range.mp inside)]
    rcases Nat.eq_zero_or_pos j with rfl | later
    · simp [mass]
    · rw [if_pos later.ne', scored.l_i, before later]
      rfl
  · intro c column
    refine Eq.trans ?_ ((P_fa c column).trans (here c column))
    unfold softmax_row
    simp only [m_i]
  · intro later c column
    rw [softmax_row_O_fa later, divide_row_own column, scored.O_fa later c column, m_i,
      before later]
    rfl

/-! ## A column block -/

variable {kernel : GemmFp F} {num_cores t_r : Nat}

/-- The rows of `Q` that block `t_r` works on. -/
def Loaded (layer : FlashAttention2Layer F) (t_r : Nat) (s : FlashAttentionBuffers F) : Prop :=
  ∀ r < layer.B_r, ∀ e < layer.d,
    s.Q_fa (r * layer.d + e) = layer.Q ((t_r * layer.B_r + r) * layer.d + e)

theorem softmax_rows_still {ρ : Type u} (view : FlashAttentionBuffers F → ρ)
    (still : ∀ r s, view (softmax_row exp layer j r s) = view s) :
    view (loop layer.B_r (softmax_row exp layer j) s) = view s :=
  loop_still view fun r _ s => still r s

theorem column_block_Q_fa (some_core : 0 < num_cores) :
    (column_block exp kernel num_cores layer j s).Q_fa = s.Q_fa := by
  unfold column_block
  simp only [forRows_cores _ some_core]
  exact softmax_rows_still FlashAttentionBuffers.Q_fa fun _ _ => rfl

/-- **One column block**: the online step on every row. -/
theorem column_block_row (exact : Exact kernel) (e : Exponential exp) (some_core : 0 < num_cores)
    (some_score : 0 < layer.B_c) (loaded : Loaded layer t_r s)
    (rows : ∀ r < layer.B_r, RowAfter exp layer (t_r * layer.B_r + r) r j s) :
    ∀ r < layer.B_r, RowAfter exp layer (t_r * layer.B_r + r) r (j + 1)
      (column_block exp kernel num_cores layer j s) := by
  unfold column_block
  simp only [forRows_cores _ some_core]
  generalize K_tile : snrt_dma_load_2d_tile layer.K j 0 layer.B_c layer.d layer.d s.K_fa = K_fa
  generalize V_tile : snrt_dma_load_2d_tile layer.V j 0 layer.B_c layer.d layer.d s.V_fa = V_fa
  generalize S_tile : loop num_cores (sc_st_gemm kernel (scoreArgs layer
    { s with K_fa := K_fa, V_fa := V_fa }) num_cores) s.S_fa = S_fa
  have scored : ∀ r < layer.B_r, RowScored exp layer (t_r * layer.B_r + r) r j
      { s with K_fa := K_fa, V_fa := V_fa, S_fa := S_fa } := by
    intro r row
    have was := rows r row
    refine ⟨⟨was.m_i, was.l_i, was.O_fa⟩, fun c column => ?_⟩
    have product : loop num_cores (sc_st_gemm kernel (scoreArgs layer
        { s with K_fa := K_fa, V_fa := V_fa }) num_cores) s.S_fa (r * layer.B_c + c) = _ :=
      sc_st_gemm_product exact rfl le_rfl some_core row column s.S_fa
    rw [S_tile] at product
    refine product.trans ?_
    simp only [scoreArgs, operandB, if_true, Nat.cast_zero, mul_zero, zero_add, score]
    refine Finset.sum_congr rfl fun k inside => ?_
    have inside := Finset.mem_range.mp inside
    rw [loaded r row k inside, ← K_tile, load_tile_element column inside]
  have weighed : ∀ r < layer.B_r, RowWeighed exp layer (t_r * layer.B_r + r) r j
      (loop layer.B_r (softmax_row exp layer j)
        { s with K_fa := K_fa, V_fa := V_fa, S_fa := S_fa }) :=
    loop_each (fun r => RowScored exp layer (t_r * layer.B_r + r) r j)
      (fun r => RowWeighed exp layer (t_r * layer.B_r + r) r j)
      (fun r' r s other scored => scored.other other)
      (fun r' r s other weighed => weighed.other other)
      (fun r _ s scored => scored.weigh e some_score) scored
  have V_still : (loop layer.B_r (softmax_row exp layer j)
      { s with K_fa := K_fa, V_fa := V_fa, S_fa := S_fa }).V_fa = V_fa :=
    softmax_rows_still FlashAttentionBuffers.V_fa fun _ _ => rfl
  generalize loop layer.B_r (softmax_row exp layer j)
    { s with K_fa := K_fa, V_fa := V_fa, S_fa := S_fa } = after at weighed V_still
  intro r row
  have here := weighed r row
  refine ⟨here.m_i, here.l_i, fun _ c column => ?_⟩
  refine (sc_st_gemm_product exact rfl le_rfl some_core row column after.O_fa).trans ?_
  rw [skewed_block e j some_score]
  congr 1
  · rcases Nat.eq_zero_or_pos j with rfl | later
    · simp [outputArgs, skewed]
    · have again : (j = 0) = False := eq_false later.ne'
      simp only [outputArgs, again, if_false, Nat.cast_one, mul_one]
      exact here.O_fa later c column
  · refine Finset.sum_congr rfl fun k inside => ?_
    have inside : k < layer.B_c := Finset.mem_range.mp inside
    have weight := here.P_fa k inside
    have entry : after.V_fa (k * layer.d + c) = value layer c (j * layer.B_c + k) := by
      rw [V_still, ← V_tile]
      exact load_tile_element inside column
    simp only [outputArgs, operandB, Bool.false_eq_true, if_false]
    rw [weight, entry]

/-! ## A row block, and the layer -/

theorem init_rows : ∀ r < layer.B_r,
    RowAfter exp layer i r 0 (loop layer.B_r init_row s) := by
  have cleared : ∀ r < layer.B_r, (loop layer.B_r init_row s).m_i r = ⊥ ∧
      (loop layer.B_r init_row s).l_i r = 0 :=
    loop_each (fun _ _ => True)
      (fun r (s : FlashAttentionBuffers F) => s.m_i r = ⊥ ∧ s.l_i r = 0)
      (fun _ _ _ _ _ => trivial)
      (fun r' r s other done => ⟨(Function.update_of_ne other.symm _ _).trans done.1,
        (Function.update_of_ne other.symm _ _).trans done.2⟩)
      (fun r _ s _ => ⟨Function.update_self _ _ _, Function.update_self _ _ _⟩)
      fun _ _ => trivial
  intro r row
  obtain ⟨m_i, l_i⟩ := cleared r row
  refine ⟨?_, ?_, fun none => absurd none (Nat.lt_irrefl 0)⟩
  · rw [m_i, Nat.zero_mul, top_zero]
  · rw [l_i, mass, Nat.zero_mul, Finset.range_zero, Finset.sum_empty]

theorem rescale_rows {rows : Nat → Nat}
    (after : ∀ r < layer.B_r, RowAfter exp layer (rows r) r j s) :
    ∀ r < layer.B_r, ∀ c < layer.d,
      (loop layer.B_r (rescale_row layer) s).O_fa (r * layer.d + c) =
        skewed exp (score layer (rows r)) (value layer c) layer.B_c j /
          mass exp (score layer (rows r)) layer.B_c j := by
  refine loop_each (fun r => RowAfter exp layer (rows r) r j)
    (fun r (s : FlashAttentionBuffers F) => ∀ c < layer.d, s.O_fa (r * layer.d + c) =
      skewed exp (score layer (rows r)) (value layer c) layer.B_c j /
        mass exp (score layer (rows r)) layer.B_c j) ?_ ?_ ?_ after
  · intro r' r s other was
    exact ⟨was.m_i, was.l_i, fun later c column =>
      (divide_row_other column other).trans (was.O_fa later c column)⟩
  · exact fun r' r s other done c column => (divide_row_other column other).trans (done c column)
  · intro r _ s was c column
    refine (divide_row_own column).trans ?_
    rw [was.l_i]
    rcases Nat.eq_zero_or_pos j with rfl | later
    · simp [mass]
    · rw [was.O_fa later c column]

/-- **What a row block stores.** -/
theorem row_block_own (exact : Exact kernel) (e : Exponential exp) (some_core : 0 < num_cores)
    (some_score : 0 < layer.B_c) (O : Nat → F) {c : Nat} (row : r < layer.B_r)
    (column : c < layer.d) :
    (row_block exp kernel num_cores layer t_r (s, O)).2
        ((t_r * layer.B_r + r) * layer.d + c) =
      skewed exp (score layer (t_r * layer.B_r + r)) (value layer c) layer.B_c
          (layer.S / layer.B_c) /
        mass exp (score layer (t_r * layer.B_r + r)) layer.B_c (layer.S / layer.B_c) := by
  unfold row_block
  simp only [forRows_cores _ some_core]
  refine (store_tile_element row column).trans ?_
  generalize tile : ({ s with
    Q_fa := snrt_dma_load_2d_tile layer.Q t_r 0 layer.B_r layer.d layer.d s.Q_fa } :
      FlashAttentionBuffers F) = loaded
  have Q_fa : Loaded layer t_r (loop layer.B_r init_row loaded) := by
    intro r row e inside
    have still : (loop layer.B_r init_row loaded).Q_fa = loaded.Q_fa :=
      loop_still FlashAttentionBuffers.Q_fa fun _ _ _ => rfl
    rw [still, ← tile]
    exact load_tile_element row inside
  have start : ∀ r < layer.B_r, RowAfter exp layer (t_r * layer.B_r + r) r 0
      (loop layer.B_r init_row loaded) := fun r row => init_rows r row
  have blocks : Loaded layer t_r (loop (layer.S / layer.B_c)
        (column_block exp kernel num_cores layer) (loop layer.B_r init_row loaded)) ∧
      ∀ r < layer.B_r, RowAfter exp layer (t_r * layer.B_r + r) r (layer.S / layer.B_c)
        (loop (layer.S / layer.B_c) (column_block exp kernel num_cores layer)
          (loop layer.B_r init_row loaded)) := by
    refine loop_invariant (fun j s => Loaded layer t_r s ∧
      ∀ r < layer.B_r, RowAfter exp layer (t_r * layer.B_r + r) r j s) ⟨Q_fa, start⟩ ?_
    intro j _ s before
    refine ⟨?_, column_block_row exact e some_core some_score before.1 before.2⟩
    unfold Loaded
    rw [column_block_Q_fa some_core]
    exact before.1
  exact rescale_rows blocks.2 r row c column

theorem row_block_other (O : Nat → F) {t_r' c : Nat} (row : r < layer.B_r)
    (column : c < layer.d) (other : t_r' ≠ t_r) :
    (row_block exp kernel num_cores layer t_r' (s, O)).2
        ((t_r * layer.B_r + r) * layer.d + c) = O ((t_r * layer.B_r + r) * layer.d + c) :=
  store_tile_other row column other

/-- **What the layer writes**: the mean with every weight off by the square of its drift. -/
theorem flashattention_2_fp32_eq (exact : Exact kernel) (e : Exponential exp)
    (some_core : 0 < num_cores) (some_score : 0 < layer.B_c) (rows : layer.B_r ∣ layer.L)
    (O : Nat → F) {c : Nat} (row : i < layer.L) (column : c < layer.d) :
    flashattention_2_fp32 exp kernel num_cores layer s O (i * layer.d + c) =
      skewed exp (score layer i) (value layer c) layer.B_c (layer.S / layer.B_c) /
        mass exp (score layer i) layer.B_c (layer.S / layer.B_c) := by
  obtain ⟨T_r, split⟩ := rows
  have some_row : 0 < layer.B_r := by
    rcases Nat.eq_zero_or_pos layer.B_r with none | some_row
    · rw [split, none, Nat.zero_mul] at row
      exact absurd row (Nat.not_lt_zero i)
    · exact some_row
  have block : i / layer.B_r < layer.L / layer.B_r := by
    rw [split, Nat.mul_div_cancel_left T_r some_row, Nat.div_lt_iff_lt_mul some_row, Nat.mul_comm]
    rwa [← split]
  have whole : i / layer.B_r * layer.B_r + i % layer.B_r = i := by
    rw [Nat.mul_comm]
    exact Nat.div_add_mod i layer.B_r
  have within := Nat.mod_lt i some_row
  refine loop_once (fun state : FlashAttentionBuffers F × (Nat → F) => state.2 (i * layer.d + c))
    (g := fun _ => skewed exp (score layer i) (value layer c) layer.B_c (layer.S / layer.B_c) /
      mass exp (score layer i) layer.B_c (layer.S / layer.B_c)) block ?_ ?_
  · intro t_r _ other state
    have kept : (row_block exp kernel num_cores layer t_r state).2
        ((i / layer.B_r * layer.B_r + i % layer.B_r) * layer.d + c) = _ :=
      row_block_other state.2 within column other
    rwa [whole] at kept
  · intro state
    have own : (row_block exp kernel num_cores layer (i / layer.B_r) state).2
        ((i / layer.B_r * layer.B_r + i % layer.B_r) * layer.d + c) = _ :=
      row_block_own exact e some_core some_score state.2 within column
    rwa [whole] at own

end Blocks

/-! ## Against the softmax -/

section Attention

variable [Field F] [LinearOrder F]

/-- Row `i`, column `c` of `softmax(Q * K^T) * V`. -/
def attention (exp : F → F) (layer : FlashAttention2Layer F) (i c : Nat) : F :=
  (∑ k ∈ Finset.range layer.S, exp (score layer i k) * value layer c k) /
    ∑ k ∈ Finset.range layer.S, exp (score layer i k)

/-- The layer leaves attention in `O`. -/
def Attends (exp : F → F) (kernel : GemmFp F) (num_cores : Nat) (layer : FlashAttention2Layer F)
    (s : FlashAttentionBuffers F) (O : Nat → F) : Prop :=
  ∀ i < layer.L, ∀ c < layer.d,
    flashattention_2_fp32 exp kernel num_cores layer s O (i * layer.d + c) =
      attention exp layer i c

/-- What the moving maximum adds to row `i`, column `c` cancels. -/
def Cancels (exp : F → F) (layer : FlashAttention2Layer F) (i c : Nat) : Prop :=
  ∑ k ∈ Finset.range layer.S,
    (drift exp (score layer i) layer.B_c (layer.S / layer.B_c) k ^ 2 - 1) *
      exp (score layer i k) * value layer c k = 0

/-- From the first column block on the exponential of row `i`'s maximum stays what it is. -/
def Steady (exp : F → F) (layer : FlashAttention2Layer F) (i : Nat) : Prop :=
  ∀ j < layer.S / layer.B_c, exp (blockPeak (score layer i) layer.B_c (j + 1)) =
    exp (blockPeak (score layer i) layer.B_c (layer.S / layer.B_c))

variable [IsStrictOrderedRing F] {exp : F → F} {kernel : GemmFp F} {num_cores : Nat}
  {layer : FlashAttention2Layer F}

variable (layer) in
theorem attends_iff_cancels (exact : Exact kernel) (e : Exponential exp)
    (some_core : 0 < num_cores) (some_score : 0 < layer.B_c) (rows : layer.B_r ∣ layer.L)
    (columns : layer.B_c ∣ layer.S) (s : FlashAttentionBuffers F) (O : Nat → F) :
    Attends exp kernel num_cores layer s O ↔
      ∀ i < layer.L, ∀ c < layer.d, Cancels exp layer i c := by
  refine forall₂_congr fun i row => forall₂_congr fun c column => ?_
  rw [flashattention_2_fp32_eq exact e some_core some_score rows O row column, attention, Cancels]
  have mean : skewed exp (score layer i) (value layer c) layer.B_c (layer.S / layer.B_c) /
      mass exp (score layer i) layer.B_c (layer.S / layer.B_c) = _ ↔ _ :=
    skewed_mean_iff e (layer.S / layer.B_c)
  rwa [Nat.div_mul_cancel columns] at mean

/-- No values but zero cancel a maximum that moves. -/
theorem cancels_iff_steady (e : Exponential exp) (some_score : 0 < layer.B_c)
    (columns : layer.B_c ∣ layer.S) (some_column : 0 < layer.d) {i : Nat} :
    (∀ V : Nat → F, ∀ c < layer.d, Cancels exp { layer with V := V } i c) ↔
      Steady exp layer i := by
  have scores : ∀ V : Nat → F, score { layer with V := V } i = score layer i := fun _ => rfl
  constructor
  · intro cancels j block
    -- a single one in the first column, at the first score of block `j`
    have inside : j * layer.B_c < layer.S :=
      (Nat.lt_div_iff_mul_lt_of_dvd some_score.ne' columns).mp block
    have alone := cancels (fun x => if x = j * layer.B_c * layer.d then 1 else 0) 0 some_column
    have entry : ∀ k, value { layer with
        V := fun x => if x = j * layer.B_c * layer.d then 1 else 0 } 0 k =
          if k = j * layer.B_c then 1 else 0 := by
      intro k
      simp only [value, Nat.add_zero, Nat.mul_left_inj some_column.ne']
    simp only [Cancels, scores, entry, mul_ite, mul_one, mul_zero, Finset.sum_ite_eq',
      Finset.mem_range, inside, if_true] at alone
    have one := (drift_sq_eq_one e).mp ((mul_eq_zero.mp alone).resolve_right (e.ne_zero _))
    have here := (drift_eq_one e).mp one
    rwa [Nat.mul_div_cancel _ some_score] at here
  · intro steady V c column
    refine Finset.sum_eq_zero fun k inside => ?_
    have block : k / layer.B_c < layer.S / layer.B_c :=
      Nat.div_lt_div_of_lt_of_dvd columns (Finset.mem_range.mp inside)
    rw [scores, (drift_sq_eq_one e).mpr ((drift_eq_one e).mpr (steady _ block)), zero_mul, zero_mul]

/-- **When the layer is attention.**  For given inputs: when what the moving maximum adds
cancels.  For given queries and keys, whatever the values: when in every row the maximum does
not move after the first column block. -/
theorem flashattention_2_fp32_attends_iff (exact : Exact kernel) (e : Exponential exp)
    (some_core : 0 < num_cores) (some_score : 0 < layer.B_c) (rows : layer.B_r ∣ layer.L)
    (columns : layer.B_c ∣ layer.S) (s : FlashAttentionBuffers F) (O : Nat → F) :
    (Attends exp kernel num_cores layer s O ↔
      ∀ i < layer.L, ∀ c < layer.d, Cancels exp layer i c) ∧
    (0 < layer.d → ((∀ V : Nat → F, Attends exp kernel num_cores { layer with V := V } s O) ↔
      ∀ i < layer.L, Steady exp layer i)) := by
  refine ⟨attends_iff_cancels layer exact e some_core some_score rows columns s O, fun some_column => ?_⟩
  have each : ∀ V : Nat → F, Attends exp kernel num_cores { layer with V := V } s O ↔
      ∀ i < layer.L, ∀ c < layer.d, Cancels exp { layer with V := V } i c := fun V =>
    attends_iff_cancels { layer with V := V } exact e some_core some_score rows columns s O
  rw [forall_congr' each, forall_comm]
  refine forall_congr' fun i => ?_
  rw [forall_comm]
  refine forall_congr' fun _ => ?_
  exact cancels_iff_steady e some_score columns some_column

end Attention

section Reals

theorem real_exponential : Exponential Real.exp := ⟨Real.exp_add, Real.exp_pos⟩

/-- One query, the scores `0` and `1` in two blocks. -/
noncomputable def rising (V : Nat → ℝ) : FlashAttention2Layer ℝ where
  L := 1
  S := 2
  d := 1
  B_r := 1
  B_c := 1
  Q := fun _ => 1
  K := fun x => x
  V := V

noncomputable def blankBuffers : FlashAttentionBuffers ℝ where
  Q_fa := fun _ => 0
  K_fa := fun _ => 0
  V_fa := fun _ => 0
  S_fa := fun _ => 0
  P_fa := fun _ => 0
  O_fa := fun _ => 0
  m_i := fun _ => ⊥
  m_i_prev := fun _ => ⊥
  l_i := fun _ => 0

theorem rising_score (V : Nat → ℝ) (k : Nat) : score (rising V) 0 k = k := by
  simp [score, rising]

theorem rising_peaks (V : Nat → ℝ) :
    blockPeak (score (rising V) 0) 1 1 = 0 ∧ blockPeak (score (rising V) 0) 1 2 = 1 := by
  have one : top (score (rising V) 0) 1 = ((0 : ℝ) : WithBot ℝ) := by
    rw [top_succ, top_zero, rising_score, bot_sup_eq, Nat.cast_zero]
  have two : top (score (rising V) 0) 2 = ((1 : ℝ) : WithBot ℝ) := by
    rw [top_succ, one, rising_score, ← WithBot.coe_sup, Nat.cast_one,
      sup_eq_right.mpr zero_le_one]
  refine ⟨?_, ?_⟩
  · rw [blockPeak, Nat.mul_one, peak, one, WithBot.unbotD_coe]
  · rw [blockPeak, Nat.mul_one, peak, two, WithBot.unbotD_coe]

/-- A value in the first block only. -/
noncomputable def firstOnly : Nat → ℝ := fun x => if x = 0 then 1 else 0

theorem flashattention_2_fp32_attends_iff_rising :
    (Attends Real.exp gemm_fp32_naive 1 (rising firstOnly) blankBuffers (fun _ => 0) ↔
      ∀ i < 1, ∀ c < 1, Cancels Real.exp (rising firstOnly) i c) ∧
    (0 < 1 → ((∀ V : Nat → ℝ,
      Attends Real.exp gemm_fp32_naive 1 (rising V) blankBuffers (fun _ => 0)) ↔
      ∀ i < 1, Steady Real.exp (rising firstOnly) i)) :=
  flashattention_2_fp32_attends_iff gemm_fp32_naive_exact real_exponential Nat.one_pos Nat.one_pos
    (dvd_refl 1) (one_dvd 2) blankBuffers fun _ => 0

/-- The maximum moves from the first block to the second, which a value in the first shows. -/
theorem flashattention_2_fp32_rising : ¬Attends Real.exp gemm_fp32_naive 1
    (rising firstOnly) blankBuffers (fun _ => 0) := by
  intro attends
  have cancels := (attends_iff_cancels _ gemm_fp32_naive_exact real_exponential Nat.one_pos
    Nat.one_pos (dvd_refl 1) (one_dvd 2) _ _).mp attends 0 Nat.one_pos 0 Nat.one_pos
  obtain ⟨one, two⟩ := rising_peaks firstOnly
  have first : drift Real.exp (score (rising firstOnly) 0) 1 2 0 =
      Real.exp 1 := by
    rw [drift, two, Nat.zero_div, Nat.zero_add, one, sub_zero]
  have single : (Real.exp 1 ^ 2 - 1) * Real.exp 0 * 1 = 0 := by
    have sum := Finset.sum_range_succ (fun k =>
      (drift Real.exp (score (rising firstOnly) 0) 1 2 k ^ 2 - 1) *
        Real.exp (score (rising firstOnly) 0 k) *
          value (rising firstOnly) 0 k) 1
    have zero := cancels.symm.trans sum
    rw [Finset.sum_range_one, first, rising_score, rising_score] at zero
    simpa [value, rising, firstOnly] using zero.symm
  have above : 1 < Real.exp 1 ^ 2 := one_lt_pow₀ (Real.one_lt_exp_iff.mpr one_pos) two_ne_zero
  rw [Real.exp_zero, mul_one, mul_one] at single
  exact (sub_pos.mpr above).ne' single

end Reals

end SnitchCluster.Kernels
