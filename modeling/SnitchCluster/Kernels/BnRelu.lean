/-
# Kernels.BnRelu -- batch normalisation and ReLU of a feature map

`bn_relu` walks the map with one reading and one writing stream; pairs of channels are dealt out to
the compute cores, four rows at a time and the rest in a second job.  What it takes for the index of
the core is the number of cores, so that all cores treat the same pairs, and none the first ones
(`bn_relu_skips`): there is no map that it treats (`bn_relu_never_treats`).

A word holds the two floats of a pair; the vector operations work lane by lane.
-/
import Mathlib.Algebra.Order.Ring.Rat
import SnitchCluster.Kernels.BlasVariants
import SnitchCluster.Kernels.StreamJobs

namespace SnitchCluster.Kernels.BnRelu

open Blas StreamJobs Theory Theory.Supersteps

/-! ## The code -/

section Code

inductive BnArray
  | pBuffer
  | kappa
  | lambda
  deriving DecidableEq

abbrev Mem := Word Empty BnArray

/-- The word of the float with index `e`. -/
def pair (array : BnArray) (e : Nat) : Mem := .loc array 0 (e / 2)

/-- The registers of a core. -/
def tmp (core i : Nat) : Mem := .own core i

def current_kappa (core : Nat) : Mem := .own core 4

def current_lambda (core : Nat) : Mem := .own core 5

def zero (core : Nat) : Mem := .own core 6

variable {F : Type} [Field F] [LinearOrder F]

/-- A vector operation. -/
def lanes (f : F → F → F) (u v : F × F) : F × F := (f u.1 v.1, f u.2 v.2)

abbrev VStep (F : Type) := Step Empty BnArray (F × F)

/-- `vfmul.s` -/
def vfmul (d x y : Mem) : VStep F := .assign d x y y fun u v _ => lanes (· * ·) u v

/-- `vfadd.s` -/
def vfadd (d x y : Mem) : VStep F := .assign d x y y fun u v _ => lanes (· + ·) u v

/-- `vfmax.s` -/
def vfmax (d x y : Mem) : VStep F := .assign d x y y fun u v _ => lanes max u v

/-- What is repeated for `n` rows. -/
def block (core n : Nat) (flag_relu flag_batch_norm : Bool) : List (JobStep Mem (F × F)) :=
  if flag_batch_norm && flag_relu then
    (List.range n).map (fun i => .ft0 fun ft0 => vfmul (tmp core i) ft0 (current_kappa core)) ++
      (List.range n).map (fun i =>
        .plain (vfadd (tmp core i) (tmp core i) (current_lambda core))) ++
      (List.range n).map fun i => .ft1 fun ft1 => vfmax ft1 (tmp core i) (zero core)
  else if flag_batch_norm && !flag_relu then
    (List.range n).map (fun i => .ft0 fun ft0 => vfmul (tmp core i) ft0 (current_kappa core)) ++
      (List.range n).map fun i => .ft1 fun ft1 => vfadd ft1 (tmp core i) (current_lambda core)
  else if !flag_batch_norm && flag_relu then
    (List.range n).map fun _ => .both fun ft0 ft1 => vfmax ft1 ft0 (zero core)
  else []

/-- A pair of channels: `n_frep` counts the iterations but the first. -/
def treatPair (core n frep : Nat) (flag_relu flag_batch_norm : Bool) (co : Nat) :
    List (JobStep Mem (F × F)) :=
  .plain (transfer (current_lambda core) (.loc .lambda 0 co)) ::
    .plain (transfer (current_kappa core) (.loc .kappa 0 co)) ::
    .plain (put (zero core) (0, 0)) ::
    (List.range (iterations frep)).flatMap fun _ => block core n flag_relu flag_batch_norm

def n_unroll : Nat := 4

/-- What a core launches, `core_num` being `snrt_cluster_compute_core_num()`. -/
def bn_relu (core_num core dim_x dim_y ch : Nat) (flag_relu flag_batch_norm : Bool) :
    List (Job Mem (F × F)) :=
  let compute_id := core_num
  let compute_num := if core_num ≠ 0 then core_num else 1
  let cleanup_unroll := dim_y % n_unroll
  let co_stride := 1
  let w_stride := co_stride * ch
  let h_stride := w_stride * dim_x
  -- bounds and strides, the outermost first; strides in floats
  let pairs := ((ch + compute_num - 1) / compute_num / 2, compute_num * 2)
  let loops := [pairs, (dim_y / n_unroll, n_unroll * h_stride), (dim_x, w_stride),
    (n_unroll, h_stride)]
  let stream := (streamed loops (compute_id * 2)).map (pair .pBuffer)
  let channels := stepped compute_id (ch / 2) compute_num
  let regular : Job Mem (F × F) :=
    { ft0 := stream, ft1 := stream,
      steps :=
        if n_unroll ≤ dim_y then
          channels.flatMap
            (treatPair core n_unroll (dim_x * (dim_y / n_unroll)) flag_relu flag_batch_norm)
        else [] }
  let cleanup_loops := [pairs, (1, cleanup_unroll * h_stride), (dim_x, w_stride),
    (cleanup_unroll, h_stride)]
  let h_cleanup_index := dim_y - cleanup_unroll
  let cleanup_stream :=
    (streamed cleanup_loops (h_cleanup_index * h_stride + compute_id * 2)).map (pair .pBuffer)
  let cleanup : Job Mem (F × F) :=
    { ft0 := cleanup_stream, ft1 := cleanup_stream,
      steps := channels.flatMap
        (treatPair core cleanup_unroll dim_x flag_relu flag_batch_norm) }
  regular :: if cleanup_unroll ≠ 0 then [cleanup] else []

/-- All cores of the cluster. -/
def bn_relu_code (core_num dim_x dim_y ch : Nat) (flag_relu flag_batch_norm : Bool) (core : Nat) :
    List (VStep F) :=
  launched (bn_relu core_num core dim_x dim_y ch flag_relu flag_batch_norm)

end Code

/-! ## What the pass is for -/

section Treats

variable {F : Type} [Field F] [LinearOrder F]

/-- A float of an array. -/
def float (m : Mem → F × F) (array : BnArray) (e : Nat) : F :=
  if e % 2 = 0 then (m (pair array e)).1 else (m (pair array e)).2

/-- Normalised, then rectified, as the flags say. -/
def treated (flag_relu flag_batch_norm : Bool) (kappa lambda v : F) : F :=
  let normalised := if flag_batch_norm then kappa * v + lambda else v
  if flag_relu then max normalised 0 else normalised

/-- The words of the map and of the parameters of its channels, and the core's registers. -/
def owned (dim_x dim_y ch core : Nat) : Mem → Prop
  | .loc .pBuffer buff_idx e => buff_idx = 0 ∧ 2 * e + 1 < dim_y * dim_x * ch
  | .loc _ buff_idx e => buff_idx = 0 ∧ 2 * e + 1 < ch
  | .own core' _ => core' = core

/-- When all cores have returned, each element has been treated exactly once, nothing else has been
touched, and the streams have been consumed job by job. -/
structure Treats (F : Type) [Field F] [LinearOrder F] (core_num dim_x dim_y ch : Nat)
    (flag_relu flag_batch_norm : Bool) : Prop where
  elements : ∀ (m : Mem → F × F) s,
    Ends core_num (bn_relu_code core_num dim_x dim_y ch flag_relu flag_batch_norm) m s →
      ∀ y < dim_y, ∀ x < dim_x, ∀ c < ch,
        float s.memory .pBuffer ((y * dim_x + x) * ch + c) =
          treated flag_relu flag_batch_norm (float m .kappa c) (float m .lambda c)
            (float m .pBuffer ((y * dim_x + x) * ch + c))
  confined : ∀ core < core_num, ∀ s ∈ (bn_relu_code core_num dim_x dim_y ch flag_relu
      flag_batch_norm core : List (VStep F)), ∀ z,
    s.reads z ∨ s.writes z → owned dim_x dim_y ch core z
  streams : ∀ core < core_num, ∀ job ∈ (bn_relu core_num core dim_x dim_y ch flag_relu
      flag_batch_norm : List (Job Mem (F × F))), ∀ z, z ∈ job.ft0 ∨ z ∈ job.ft1 →
    owned dim_x dim_y ch core z
  consumed : ∀ core < core_num, ∀ job ∈ (bn_relu core_num core dim_x dim_y ch flag_relu
      flag_batch_norm : List (Job Mem (F × F))), job.Consumed

end Treats

/-! ## What is not treated -/

section Skips

variable {F : Type} [Field F] [LinearOrder F] {core_num dim_x dim_y ch core : Nat}
  {flag_relu flag_batch_norm : Bool}

theorem mem_stream {loops : List (Nat × Nat)} {p : Nat} {z : Mem}
    (word : z ∈ (streamed loops p).map (pair .pBuffer)) : ∃ e, p ≤ e ∧ z = pair .pBuffer e := by
  obtain ⟨e, member, rfl⟩ := List.mem_map.mp word
  exact ⟨e, le_of_mem_streamed member, rfl⟩

/-- The streams deliver no element before pair `core_num`. -/
theorem bn_relu_streams {job : Job Mem (F × F)}
    (launch : job ∈ bn_relu core_num core dim_x dim_y ch flag_relu flag_batch_norm) {z : Mem}
    (word : z ∈ job.ft1) : ∃ e, core_num * 2 ≤ e ∧ z = pair .pBuffer e := by
  simp only [bn_relu, List.mem_cons] at launch
  rcases launch with rfl | launch
  · simp only at word
    exact mem_stream word
  · split at launch
    · obtain rfl := List.mem_singleton.mp launch
      simp only at word
      obtain ⟨e, behind, rfl⟩ := mem_stream word
      exact ⟨e, Nat.le_trans (Nat.le_add_left _ _) behind, rfl⟩
    · cases launch

/-- What a core has for itself. -/
def register (core : Nat) (z : Mem) : Prop := ∃ r, z = .own core r

theorem block_targets (n : Nat) : Targets (register core)
    (block core n flag_relu flag_batch_norm : List (JobStep Mem (F × F))) := by
  have multiplied (i : Nat) : Targets (register core) [.ft0 fun ft0 =>
      (vfmul (tmp core i) ft0 (current_kappa core) : VStep F)] :=
    targets_ft0 fun _ _ written => ⟨i, written⟩
  have added (i : Nat) : Targets (register core)
      [.plain (vfadd (tmp core i) (tmp core i) (current_lambda core) : VStep F)] :=
    targets_plain fun _ written => ⟨i, written⟩
  rw [block]
  split
  · simp only [targets_append, targets_map]
    exact ⟨⟨fun i _ => multiplied i, fun i _ => added i⟩,
      fun _ _ => targets_ft1 fun _ _ written => .inr written⟩
  · split
    · simp only [targets_append, targets_map]
      exact ⟨fun i _ => multiplied i, fun _ _ => targets_ft1 fun _ _ written => .inr written⟩
    · split
      · simp only [targets_map]
        exact fun _ _ => targets_both fun _ _ _ written => .inr written
      · exact targets_nil

theorem treatPair_targets (n frep co : Nat) : Targets (register core)
    (treatPair core n frep flag_relu flag_batch_norm co : List (JobStep Mem (F × F))) := by
  refine targets_cons.mpr ⟨targets_plain fun _ written => ⟨5, written⟩, ?_⟩
  refine targets_cons.mpr ⟨targets_plain fun _ written => ⟨4, written⟩, ?_⟩
  refine targets_cons.mpr ⟨targets_plain fun _ written => ⟨6, written⟩, ?_⟩
  exact targets_flatMap.mpr fun _ _ => block_targets n

theorem bn_relu_targets {job : Job Mem (F × F)}
    (launch : job ∈ bn_relu core_num core dim_x dim_y ch flag_relu flag_batch_norm) :
    Targets (register core) job.steps := by
  simp only [bn_relu, List.mem_cons] at launch
  rcases launch with rfl | launch
  · simp only
    split
    · exact targets_flatMap.mpr fun co _ => treatPair_targets _ _ co
    · exact targets_nil
  · split at launch
    · obtain rfl := List.mem_singleton.mp launch
      exact targets_flatMap.mpr fun co _ => treatPair_targets _ _ co
    · cases launch

/-- **No core writes a pair before the number of cores.** -/
theorem bn_relu_skips {s : VStep F}
    (member : s ∈ bn_relu_code core_num dim_x dim_y ch flag_relu flag_batch_norm core) {e : Nat}
    (first : e < core_num * 2) : ¬s.writes (pair .pBuffer e) := by
  intro written
  rcases launched_writes (fun _ launch => bn_relu_targets launch) member written with
    ⟨r, own⟩ | ⟨job, launch, word⟩
  · cases own
  · obtain ⟨e', behind, same⟩ := bn_relu_streams launch word
    have same : e / 2 = e' / 2 := by
      injection same
    omega

theorem ends_skips {m : Mem → F × F} {s : Supersteps.State Mem (F × F)}
    (ended : Ends core_num (bn_relu_code core_num dim_x dim_y ch flag_relu flag_batch_norm) m s)
    {e : Nat} (first : e < core_num * 2) :
    s.memory (pair .pBuffer e) = m (pair .pBuffer e) :=
  Program.reachable_frame ended.1 fun _ _ _ _ _ member => bn_relu_skips member first

section Never

variable {F : Type} [Field F] [LinearOrder F] [IsStrictOrderedRing F]

/-- A map of `-1`, normalised to `1`. -/
def negative : Mem → F × F
  | .loc .pBuffer _ _ => (-1, -1)
  | .loc .lambda _ _ => (1, 1)
  | _ => (0, 0)

theorem treated_negative (flagged : flag_relu || flag_batch_norm) :
    treated flag_relu flag_batch_norm (0 : F) 1 (-1) ≠ -1 := by
  have other : (1 : F) ≠ -1 := (neg_one_lt_zero.trans zero_lt_one).ne'
  cases flag_batch_norm <;> cases flag_relu <;> simp [treated, other] at flagged ⊢

omit [IsStrictOrderedRing F] in
/-- Without channels the first job has words all the same, and nobody to take them. -/
theorem not_consumed (none : ch / 2 = 0) :
    ¬∀ job ∈ (bn_relu core_num core dim_x dim_y ch flag_relu flag_batch_norm :
      List (Job Mem (F × F))), job.Consumed := by
  intro consumed
  have first := (consumed _ List.mem_cons_self).ft0
  have nobody : ∀ n, stepped core_num 0 n = [] := fun n => by
    rcases Nat.eq_zero_or_pos n with rfl | some
    · simp [stepped]
    · simp [stepped, Nat.div_eq_of_lt (Nat.sub_lt some Nat.one_pos)]
  simp only [none, nobody, List.flatMap_nil, ite_self, taken0, List.length_map] at first
  exact List.ne_nil_of_mem (head_mem_streamed _ _) (List.length_eq_zero_iff.mp first.symm)

theorem not_treats (some_core : 0 < core_num) (some_x : 0 < dim_x) (some_y : 0 < dim_y)
    (flagged : flag_relu || flag_batch_norm) :
    ¬Treats F core_num dim_x dim_y ch flag_relu flag_batch_norm := by
  intro treats
  rcases Nat.eq_zero_or_pos ch with rfl | some_channel
  · exact not_consumed rfl (treats.consumed 0 some_core)
  · obtain ⟨s, reached, ended⟩ := Program.exists_through
      (call core_num (bn_relu_code core_num dim_x dim_y ch flag_relu flag_batch_norm))
      Statement.semantics (negative : Mem → F × F)
    have first := treats.elements negative s ⟨reached, ended⟩ 0 some_y 0 some_x 0 some_channel
    have kept := ends_skips ⟨reached, ended⟩ (e := 0) (by omega)
    have same : float s.memory .pBuffer 0 = float negative .pBuffer 0 := by
      simp only [float, kept]
    simp only [Nat.zero_mul, Nat.add_zero] at first
    rw [same] at first
    exact treated_negative flagged first.symm

variable (F) in
/-- **There is no map that the pass treats.** -/
theorem bn_relu_never_treats (core_num dim_x dim_y ch : Nat) (flag_relu flag_batch_norm : Bool)
    (some_core : 0 < core_num) (some_x : 0 < dim_x) (some_y : 0 < dim_y)
    (flagged : flag_relu || flag_batch_norm) :
    ¬Treats F core_num dim_x dim_y ch flag_relu flag_batch_norm :=
  not_treats some_core some_x some_y flagged

theorem bn_relu_never_treats_rows : ¬Treats ℚ 8 5 7 16 true true :=
  bn_relu_never_treats ℚ 8 5 7 16 true true (by decide) (by decide) (by decide) (by decide)

/-- One core, four rows of two channels: the only pair is left out. -/
theorem one_pair_left : ¬Treats ℚ 1 1 4 2 true false :=
  not_treats (by decide) (by decide) (by decide) (by decide)

end Never

end Skips

end SnitchCluster.Kernels.BnRelu
