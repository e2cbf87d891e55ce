/-
# Kernels.Conv2dFp64 -- the double-precision convolution

`conv2d_fp64` deals out the output channels to the compute cores.  A core accumulates eight rows at
a time from two streams, and the rest of the rows in clean-up jobs; behind a barrier it sends its
channels through two streams once more for batch normalisation and ReLU.

What it takes for the index of the core is the number of cores.  All cores compute the same
channels, and the first ones are left as they were (`conv2d_fp64_skips`): no layer comes out right
(`conv2d_fp64_never_convolves`).
-/
import Mathlib.Algebra.Order.Ring.Rat
import SnitchCluster.Kernels.BlasVariants
import SnitchCluster.Kernels.StreamJobs

namespace SnitchCluster.Kernels.Conv2dFp64

open Blas StreamJobs Theory Theory.Supersteps

/-! ## The layer -/

inductive ConvArray
  | pInBuffer
  | pWeight
  | pOutBuffer
  | kappa
  | lambda
  deriving DecidableEq

abbrev Mem := Word Empty ConvArray

/-- `kernel_fp64`, the pointers apart. -/
structure KernelFp64 where
  dim_in_x : Nat
  dim_in_y : Nat
  ch_in : Nat
  ch_out : Nat
  dim_kernel_x : Nat
  dim_kernel_y : Nat
  padding_y_top : Nat
  padding_y_bottom : Nat
  padding_x_left : Nat
  padding_x_right : Nat
  stride_x : Nat
  stride_y : Nat
  dim_out_x : Nat
  dim_out_y : Nat
  flag_relu : Bool
  flag_batch_norm : Bool
  flag_y_accumulate_start : Bool

namespace KernelFp64

variable (k : KernelFp64)

def dim_in_eff_x : Nat := k.dim_in_x + k.padding_x_left + k.padding_x_right

def dim_in_eff_y : Nat := k.dim_in_y + k.padding_y_top + k.padding_y_bottom

/-- The output is as large as the padded input makes it. -/
structure Consistent : Prop where
  ch_in : 0 < k.ch_in
  ch_out : 0 < k.ch_out
  kernel_x : 0 < k.dim_kernel_x
  kernel_y : 0 < k.dim_kernel_y
  stride_x : 0 < k.stride_x
  stride_y : 0 < k.stride_y
  fits_x : k.dim_kernel_x ≤ k.dim_in_eff_x
  fits_y : k.dim_kernel_y ≤ k.dim_in_eff_y
  out_x : k.dim_out_x = (k.dim_in_eff_x - k.dim_kernel_x) / k.stride_x + 1
  out_y : k.dim_out_y = (k.dim_in_eff_y - k.dim_kernel_y) / k.stride_y + 1

def input_w_stride : Nat := k.ch_in

def input_h_stride : Nat := k.input_w_stride * k.dim_in_eff_x

def output_w_stride : Nat := k.ch_out

def output_h_stride : Nat := k.output_w_stride * k.dim_out_x

def kernel_w_stride : Nat := k.ch_in

def kernel_h_stride : Nat := k.kernel_w_stride * k.dim_kernel_x

def kernel_co_stride : Nat := k.kernel_h_stride * k.dim_kernel_y

end KernelFp64

/-! ## The code -/

section Code

variable {F : Type} [Field F] [LinearOrder F]

abbrev CStep (F : Type) := Step Empty ConvArray F

/-- The registers of a core. -/
def sum (core i : Nat) : Mem := .own core i

def tmp (core : Nat) : Mem := .own core 8

def current_kappa (core : Nat) : Mem := .own core 9

def current_lambda (core : Nat) : Mem := .own core 10

def zero (core : Nat) : Mem := .own core 11

/-- `fmax.d` -/
def fmax (d x y : Mem) : CStep F := .assign d x y y fun u v _ => max u v

/-- `fmadd.d` with an addend other than the destination -/
def fmaddTo (d x y z : Mem) : CStep F := .assign d x y z fun u v w => u * v + w

def max_unroll : Nat := 8

namespace KernelFp64

variable (k : KernelFp64)

def outElement (h0 i w co : Nat) : Mem :=
  .loc .pOutBuffer 0
    ((h0 * max_unroll + i) * k.output_h_stride + w * k.output_w_stride + co)

/-- `n` elements of a column of the output, `n` rows being unrolled; the sums are set up before the
streams are launched. -/
def column (core n h0 w co : Nat) : Job Mem F where
  ft0 :=
    (streamed [(k.dim_kernel_y, k.input_h_stride), (k.dim_kernel_x, k.input_w_stride),
      (k.ch_in, 1), (n, k.input_h_stride * k.stride_y)]
      (h0 * max_unroll * k.stride_y * k.input_h_stride +
        w * k.stride_x * k.input_w_stride)).map (.loc .pInBuffer 0)
  ft1 :=
    (repeated n (streamed [(k.dim_kernel_y, k.kernel_h_stride),
      (k.dim_kernel_x, k.kernel_w_stride), (k.ch_in, 1)] (co * k.kernel_co_stride))).map
      (.loc .pWeight 0)
  steps :=
    (List.range n).map (fun i => .plain
      (if k.flag_y_accumulate_start then put (sum core i) 0
        else transfer (sum core i) (k.outElement h0 i w co))) ++
    (List.range (iterations (k.dim_kernel_y * k.dim_kernel_x * k.ch_in))).flatMap (fun _ =>
      (List.range n).map fun i => .both fun ft0 ft1 => fmadd (sum core i) ft0 ft1 (sum core i)) ++
    (List.range n).map fun i => .plain (transfer (k.outElement h0 i w co) (sum core i))

/-- The channels that a core computes, `core_num` being `snrt_cluster_compute_core_num()`. -/
def channels (core_num : Nat) : List Nat :=
  let compute_id := core_num
  let compute_num := if core_num ≠ 0 then core_num else 1
  stepped compute_id k.ch_out compute_num

/-- Before the barrier. -/
def convolution (core_num core : Nat) : List (Job Mem F) :=
  let cleanup_unroll := k.dim_out_y % max_unroll
  (k.channels core_num).flatMap fun co =>
    ((List.range (k.dim_out_y / max_unroll)).flatMap fun h0 =>
      (List.range k.dim_out_x).map fun w => k.column core max_unroll h0 w co) ++
    if cleanup_unroll ≠ 0 then
      (List.range k.dim_out_x).map fun w =>
        k.column core cleanup_unroll (k.dim_out_y / max_unroll) w co
    else []

/-- What is repeated for a channel. -/
def arm (core : Nat) : List (JobStep Mem F) :=
  if k.flag_batch_norm && k.flag_relu then
    [.ft0 fun ft0 => fmaddTo (tmp core) ft0 (current_kappa core) (current_lambda core),
      .ft1 fun ft1 => fmax ft1 (tmp core) (zero core)]
  else if k.flag_batch_norm && !k.flag_relu then
    -- the result stays in the register
    [.ft0 fun ft0 => fmaddTo (tmp core) ft0 (current_kappa core) (current_lambda core)]
  else if !k.flag_batch_norm && k.flag_relu then
    [.both fun ft0 ft1 => fmax ft1 ft0 (zero core)]
  else []

/-- Behind the barrier. -/
def normalisation (core_num core : Nat) : List (Job Mem F) :=
  let compute_id := core_num
  let compute_num := if core_num ≠ 0 then core_num else 1
  let stream := (streamed [(k.ch_out / compute_num, 1), (k.dim_out_x * k.dim_out_y, k.ch_out)]
    compute_id).map (.loc .pOutBuffer 0)
  if k.flag_batch_norm || k.flag_relu then
    [{ ft0 := stream, ft1 := stream,
       steps := (k.channels core_num).flatMap fun co =>
         .plain (transfer (current_lambda core) (.loc .lambda 0 co)) ::
           .plain (transfer (current_kappa core) (.loc .kappa 0 co)) ::
           .plain (put (zero core) 0) ::
           (List.range (iterations (k.dim_out_x * k.dim_out_y))).flatMap fun _ => k.arm core }]
  else []

inductive Phase
  | convolution
  | normalisation
  deriving DecidableEq

def jobs (core_num : Nat) : Phase → Nat → List (Job Mem F)
  | .convolution => k.convolution core_num
  | .normalisation => k.normalisation core_num

/-- All compute cores of the cluster. -/
def conv2d_fp64 (core_num : Nat) : Program Phase (CStep F) where
  agents := core_num
  schedule := [.convolution, .normalisation]
  code p core := launched (k.jobs core_num p core)
  waits _ _ _ := true

end KernelFp64

end Code

/-! ## What the kernel is for -/

section Convolves

variable {F : Type} [Field F] [LinearOrder F]

namespace KernelFp64

variable (k : KernelFp64)

/-- The direct convolution. -/
def direct (m : Mem → F) (y x co : Nat) : F :=
  ∑ fh ∈ Finset.range k.dim_kernel_y, ∑ fw ∈ Finset.range k.dim_kernel_x,
    ∑ ci ∈ Finset.range k.ch_in,
      m (.loc .pInBuffer 0 ((y * k.stride_y + fh) * k.input_h_stride +
          (x * k.stride_x + fw) * k.input_w_stride + ci)) *
        m (.loc .pWeight 0 (co * k.kernel_co_stride + fh * k.kernel_h_stride +
          fw * k.kernel_w_stride + ci))

/-- Element `(y, x, co)` of the output. -/
def out (y x co : Nat) : Mem := .loc .pOutBuffer 0 ((y * k.dim_out_x + x) * k.ch_out + co)

/-- The layers that are fused, as the flags say. -/
def fused (m : Mem → F) (y x co : Nat) : F :=
  let sum := k.direct m y x co + if k.flag_y_accumulate_start then 0 else m (k.out y x co)
  let normalised :=
    if k.flag_batch_norm then m (.loc .kappa 0 co) * sum + m (.loc .lambda 0 co) else sum
  if k.flag_relu then max normalised 0 else normalised

end KernelFp64

/-- When all cores have returned, every output element is that of the fused layer, and the streams
have been consumed job by job. -/
structure Convolves (F : Type) [Field F] [LinearOrder F] (k : KernelFp64) (core_num : Nat) :
    Prop where
  elements : ∀ (m : Mem → F) s,
    ((k.conv2d_fp64 core_num).machine Statement.semantics).Reachable (Program.start m) s →
      (∀ core < core_num, 2 ≤ (s.place core).1) →
        ∀ y < k.dim_out_y, ∀ x < k.dim_out_x, ∀ co < k.ch_out,
          s.memory (k.out y x co) = k.fused m y x co
  consumed : ∀ p, ∀ core < core_num,
    ∀ job ∈ (k.jobs core_num p core : List (Job Mem F)), job.Consumed

end Convolves

/-! ## What is left as it was -/

section Skips

variable {F : Type} [Field F] [LinearOrder F] {k : KernelFp64} {core_num core : Nat}

/-- What is not in the way of the first `first` elements of the output. -/
def behind (first : Nat) : Mem → Prop
  | .loc .pOutBuffer _ e => first ≤ e
  | .loc _ _ _ => False
  | .ext _ _ => False
  | .own _ _ => True

theorem behind_own {first r : Nat} {z : Mem} (own : z = .own core r) : behind first z := by
  rw [own]
  exact trivial

omit [LinearOrder F] in
theorem column_targets {n h0 w co : Nat} (later : core_num ≤ co) :
    Targets (behind core_num) (k.column core n h0 w co : Job Mem F).steps := by
  simp only [KernelFp64.column, targets_append, targets_map, targets_flatMap]
  refine ⟨⟨fun i _ => targets_plain fun z written => ?_, fun _ _ i _ => ?_⟩, fun i _ => ?_⟩
  · split at written <;> exact behind_own written
  · exact targets_both fun _ _ _ written => .inl (behind_own written)
  · refine targets_plain fun z written => ?_
    obtain rfl : z = k.outElement h0 i w co := written
    exact Nat.le_trans later (Nat.le_add_left _ _)

omit [LinearOrder F] in
theorem convolution_targets {job : Job Mem F} (launch : job ∈ k.convolution core_num core) :
    Targets (behind core_num) job.steps := by
  obtain ⟨co, dealt, launch⟩ := List.mem_flatMap.mp launch
  have later : core_num ≤ co := le_of_mem_stepped dealt
  rcases List.mem_append.mp launch with launch | launch
  · obtain ⟨h0, _, launch⟩ := List.mem_flatMap.mp launch
    obtain ⟨w, _, rfl⟩ := List.mem_map.mp launch
    exact column_targets later
  · split at launch
    · obtain ⟨w, _, rfl⟩ := List.mem_map.mp launch
      exact column_targets later
    · cases launch

theorem arm_targets : Targets (behind core_num) (k.arm core : List (JobStep Mem F)) := by
  have normalised : Targets (behind core_num) [.ft0 fun ft0 =>
      (fmaddTo (tmp core) ft0 (current_kappa core) (current_lambda core) : CStep F)] :=
    targets_ft0 fun _ _ written => behind_own written
  rw [KernelFp64.arm]
  split
  · exact targets_cons.mpr ⟨normalised, targets_ft1 fun _ _ written => .inr written⟩
  · split
    · exact normalised
    · split
      · exact targets_both fun _ _ _ written => .inr written
      · exact targets_nil

theorem normalisation_targets {job : Job Mem F} (launch : job ∈ k.normalisation core_num core) :
    Targets (behind core_num) job.steps := by
  simp only [KernelFp64.normalisation] at launch
  split at launch
  · obtain rfl := List.mem_singleton.mp launch
    refine targets_flatMap.mpr fun co _ => ?_
    refine targets_cons.mpr ⟨targets_plain fun _ written => behind_own written, ?_⟩
    refine targets_cons.mpr ⟨targets_plain fun _ written => behind_own written, ?_⟩
    refine targets_cons.mpr ⟨targets_plain fun _ written => behind_own written, ?_⟩
    exact targets_flatMap.mpr fun _ _ => arm_targets
  · cases launch

/-- The second stream carries weights, or elements that are not among the first. -/
theorem jobs_streams {p : KernelFp64.Phase} {job : Job Mem F}
    (launch : job ∈ k.jobs core_num p core) {e : Nat} (word : .loc .pOutBuffer 0 e ∈ job.ft1) :
    core_num ≤ e := by
  cases p with
  | convolution =>
    have weights {n h0 w co : Nat} :
        Word.loc .pOutBuffer 0 e ∉ (k.column core n h0 w co : Job Mem F).ft1 := by
      simp [KernelFp64.column]
    obtain ⟨co, _, launch⟩ := List.mem_flatMap.mp launch
    rcases List.mem_append.mp launch with launch | launch
    · obtain ⟨h0, _, launch⟩ := List.mem_flatMap.mp launch
      obtain ⟨w, _, rfl⟩ := List.mem_map.mp launch
      exact absurd word weights
    · split at launch
      · obtain ⟨w, _, rfl⟩ := List.mem_map.mp launch
        exact absurd word weights
      · cases launch
  | normalisation =>
    simp only [KernelFp64.jobs, KernelFp64.normalisation] at launch
    split at launch
    · obtain rfl := List.mem_singleton.mp launch
      simp only [List.mem_map] at word
      obtain ⟨e', member, same⟩ := word
      injection same with _ _ same
      exact same ▸ le_of_mem_streamed member
    · cases launch

/-- **No core writes an element before the number of cores.** -/
theorem conv2d_fp64_skips {p : KernelFp64.Phase} {s : CStep F}
    (member : s ∈ (k.conv2d_fp64 core_num).code p core) {e : Nat} (first : e < core_num) :
    ¬s.writes (.loc .pOutBuffer 0 e) := by
  intro written
  have targets : ∀ job ∈ (k.jobs core_num p core : List (Job Mem F)),
      Targets (behind core_num) job.steps := fun job launch => by
    cases p with
    | convolution => exact convolution_targets launch
    | normalisation => exact normalisation_targets launch
  rcases launched_writes targets member written with late | ⟨job, launch, word⟩
  · exact Nat.not_le_of_lt first late
  · exact Nat.not_le_of_lt first (jobs_streams launch word)

end Skips

/-! ## No layer comes out right -/

section Never

variable {F : Type} [Field F] [LinearOrder F] [IsStrictOrderedRing F] {k : KernelFp64}
  {core_num : Nat}

/-- An input, weights and factors of `1`, on an output of `0`. -/
def ones : Mem → F
  | .loc .pOutBuffer _ _ => 0
  | .loc .lambda _ _ => 0
  | _ => 1

theorem fused_ones (consistent : k.Consistent) : 0 < k.fused (ones : Mem → F) 0 0 0 := by
  have positive : 0 < k.direct (ones : Mem → F) 0 0 0 := by
    have some {n : Nat} (some : 0 < n) : (Finset.range n).Nonempty := by
      simpa using Nat.ne_of_gt some
    refine Finset.sum_pos (fun _ _ => Finset.sum_pos (fun _ _ => Finset.sum_pos (fun _ _ => ?_)
      (some consistent.ch_in)) (some consistent.kernel_x)) (some consistent.kernel_y)
    simp [ones]
  cases relu : k.flag_relu <;> cases norm : k.flag_batch_norm <;>
    simp [KernelFp64.fused, KernelFp64.out, relu, norm, ones, positive]

theorem not_convolves (consistent : k.Consistent) (some_core : 0 < core_num) :
    ¬Convolves F k core_num := by
  intro convolves
  obtain ⟨s, reached, ended⟩ := (k.conv2d_fp64 core_num).exists_through Statement.semantics
    (ones : Mem → F)
  have some_row : 0 < k.dim_out_y := consistent.out_y ▸ Nat.succ_pos _
  have some_column : 0 < k.dim_out_x := consistent.out_x ▸ Nat.succ_pos _
  have first := convolves.elements ones s reached ended 0 some_row 0 some_column 0
    consistent.ch_out
  have kept : s.memory (k.out 0 0 0) = 0 := by
    simp only [KernelFp64.out, Nat.zero_mul, Nat.add_zero]
    exact Program.reachable_frame reached fun _ _ _ _ _ member =>
      conv2d_fp64_skips member some_core
  exact (fused_ones consistent).ne (kept.symm.trans first)

variable (F) in
/-- **No layer comes out right**, whatever its shape and flags. -/
theorem conv2d_fp64_never_convolves (k : KernelFp64) (core_num : Nat) (consistent : k.Consistent)
    (some_core : 0 < core_num) : ¬Convolves F k core_num :=
  not_convolves consistent some_core

/-- A kernel of 3 by 3, strides of 2, and one element of padding all around. -/
def strided : KernelFp64 :=
  ⟨7, 21, 5, 16, 3, 3, 1, 1, 1, 1, 2, 2, 4, 11, true, true, false⟩

theorem conv2d_fp64_never_convolves_strided : ¬Convolves ℚ strided 8 :=
  conv2d_fp64_never_convolves ℚ strided 8
    ⟨by decide, by decide, by decide, by decide, by decide, by decide, by decide, by decide,
      by decide, by decide⟩ (by decide)

/-- One core, and one element of one channel. -/
def single : KernelFp64 :=
  ⟨1, 1, 1, 1, 1, 1, 0, 0, 0, 0, 1, 1, 1, 1, false, false, true⟩

theorem one_element_left : ¬Convolves ℚ single 1 :=
  not_convolves ⟨by decide, by decide, by decide, by decide, by decide, by decide, by decide,
    by decide, by decide, by decide⟩ (by decide)

end Never

end SnitchCluster.Kernels.Conv2dFp64
