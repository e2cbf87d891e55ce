/-
# Kernels.Publication -- floating-point results across the cluster barrier

`dot`, `softmax_layer`, `maxpool_layer` and `kmeans_job` with its `kmeans_iteration`
(`sw/kernels`), as the instructions of their cores: floating-point loads, stores and arithmetic
are handed to the unit behind the core, transfers to the DMA engine behind the data mover.
`snrt_fpu_fence`, `snrt_dma_wait_all` and a branch on a floating-point comparison wait for it,
`snrt_cluster_hw_barrier` does not.

Every kernel has a barrier with stores before it that no fence waited for.  A word read after
barriers has been stored when none of these stores is still under way as a core leaves the
barrier (`fp_results_published`); otherwise it may not have been (`dot_reads_unstored`).
-/
import SnitchCluster.Theory.Decoupled

namespace SnitchCluster.Kernels.Publication

open Theory Theory.Decoupled

universe u v

/-- Words, and which of them lie in the memory of a cluster. -/
class Words (W : Type u) where
  tcdm : W → Bool

/-- The words an instruction or a transfer reads and writes. -/
structure Access (W : Type u) where
  reads : List W
  writes : List W
  deriving DecidableEq, Repr

namespace Access

variable {W : Type u}

def load (w : W) : Access W := ⟨[w], []⟩

def store (w : W) : Access W := ⟨[], [w]⟩

/-- An operation on registers. -/
def arith : Access W := ⟨[], []⟩

/-- Whether it stores to the memory of a cluster. -/
def Stores [Words W] (a : Access W) : Bool := a.writes.any Words.tcdm

end Access

/-- **A word read after a barrier has been stored**: whoever reads a word now finds done what
the unit of another core was to store there before a barrier between the two. -/
def Published {W : Type u} {G : Type v} [Words W] [DecidableEq G] (prog : Program (Access W) G)
    (s : State) : Prop :=
  ∀ i < prog.cores, ∀ n a, prog.Performs s i n a → ∀ x ∈ a.reads, Words.tcdm x = true →
    ∀ j < prog.cores, j ≠ i → ∀ m b, (prog.code j)[m]? = some (.queued b) → x ∈ b.writes →
      prog.Ordered j m i n → m < s.executed j

/-- No store from before a barrier, unfenced, is under way when a core leaves the barrier. -/
abbrev StoresTimely {W : Type u} {G : Type v} [Words W] [DecidableEq G] (prog : Program (Access W) G) :
    State → Label → Prop :=
  prog.Timely Access.Stores

theorem published_of_timely {W : Type u} {G : Type v} [Words W] [DecidableEq G]
    {prog : Program (Access W) G} {s : State}
    (reached : prog.machine.Reaches (StoresTimely prog) Program.start s) : Published prog s := by
  intro i _ n a performs x _ inside j _ _ m b here written ordered
  refine (Program.reaches_meets reached).done_of_ordered ordered performs.issued ?_
  simp only [Program.important, here]
  exact List.any_eq_true.mpr ⟨x, written, inside⟩

open Instr Access

/-! ## `dot` -/

inductive DotWord
  | x (k : Nat) | y (k : Nat) | result
  | local_x (k : Nat) | local_y (k : Nat) | partial_sums (k : Nat)
  deriving DecidableEq, Repr

instance : Words DotWord where
  tcdm
    | .x _ | .y _ | .result => false
    | _ => true

section Dot

open DotWord

/-- `dot_seq_4_acc`: the products by way of the stream registers, the fence, the store. -/
def dot_seq_4_acc (n offset core_idx : Nat) : List (Instr (Access DotWord) Unit) :=
  (List.range (n / 4)).flatMap (fun k => (List.range 4).map fun l =>
    queued ⟨[local_x (offset + (4 * k + l)), local_y (offset + (4 * k + l))], []⟩) ++
  [queued arith, queued arith, queued arith, fence, queued (store (partial_sums core_idx))]

def dotCode (n compute_core_num core_idx : Nat) : List (Instr (Access DotWord) Unit) :=
  let is_dm_core := core_idx = compute_core_num
  let frac_core := n / compute_core_num
  let offset_core := core_idx * frac_core
  (if is_dm_core then
    [queued ⟨(List.range n).map x, (List.range n).map local_x⟩,
      queued ⟨(List.range n).map y, (List.range n).map local_y⟩, fence]
  else []) ++
  [barrier ()] ++
  (if is_dm_core then [] else dot_seq_4_acc frac_core offset_core core_idx) ++
  [barrier ()] ++
  (if core_idx = 0 then
    (List.range (compute_core_num - 1)).flatMap (fun i =>
      [queued (load (partial_sums 0)), queued (load (partial_sums (i + 1))), queued arith,
        queued (store (partial_sums 0))]) ++ [fence]
  else []) ++
  [barrier ()] ++
  (if is_dm_core then [queued (load (partial_sums 0)), queued (store result)] else []) ++
  [barrier ()]

/-- `dot` on one cluster; the data mover is the core after the compute cores. -/
def dot (n compute_core_num : Nat) : Program (Access DotWord) Unit where
  cores := compute_core_num + 1
  code := dotCode n compute_core_num
  member _ _ := true

end Dot

/-! ## `softmax_layer` -/

inductive LayerWord
  | l_ifmap (k : Nat) | l_ofmap (k : Nat)
  | ifmap (k : Nat) | ofmap (k : Nat)
  deriving DecidableEq, Repr

instance : Words LayerWord where
  tcdm
    | .l_ifmap _ | .l_ofmap _ => false
    | _ => true

structure SoftmaxLayer where
  batch_size : Nat
  seq_len : Nat
  input_samples : Nat

section Softmax

open LayerWord

/-- `softmax_fp32` on pointers to elements `row_offset` of both maps. -/
def softmax_fp32 (row_offset ldI batch_offset batch_size seq_len input_samples : Nat) :
    List (Instr (Access LayerWord) Unit) :=
  (List.range batch_size).flatMap (fun b => (List.range seq_len).flatMap fun s =>
    (List.range input_samples).flatMap (fun i =>
      [queued (load (ifmap (row_offset + (b * batch_offset + s * ldI + i)))), fence]) ++
    (List.range input_samples).flatMap (fun i =>
      [queued (load (ifmap (row_offset + (b * batch_offset + s * ldI + i)))), queued arith,
        queued (store (ofmap (row_offset + (b * batch_offset + s * ldI + i)))),
        queued (load (ofmap (row_offset + (b * batch_offset + s * ldI + i))))]) ++
    (List.range input_samples).flatMap (fun i =>
      [queued (load (ofmap (row_offset + (b * batch_offset + s * ldI + i)))), queued arith,
        queued (store (ofmap (row_offset + (b * batch_offset + s * ldI + i))))])) ++
  [barrier ()]

/-- `compute_id` counts the cores of all clusters. -/
def softmaxCode (l : SoftmaxLayer) (cluster_idx compute_num core_idx : Nat) :
    List (Instr (Access LayerWord) Unit) :=
  let is_dm_core := core_idx = compute_num
  let compute_id := cluster_idx * (compute_num + 1) + core_idx
  let ifmap_size := l.batch_size * l.seq_len * l.input_samples
  (if is_dm_core then
    [queued ⟨(List.range ifmap_size).map l_ifmap, (List.range ifmap_size).map ifmap⟩, fence]
  else []) ++
  [barrier ()] ++
  (if is_dm_core then [barrier ()] else
    softmax_fp32 (compute_id * l.input_samples) (compute_num * l.input_samples)
      (l.seq_len * l.input_samples) l.batch_size (l.seq_len / compute_num) l.input_samples) ++
  (if is_dm_core then
    [queued ⟨(List.range ifmap_size).map ofmap, (List.range ifmap_size).map l_ofmap⟩, fence]
  else []) ++
  [barrier (), barrier ()]

/-- `softmax_layer` on one cluster: nothing it does in a cluster's memory depends on the others,
for which the data mover waits between the last two barriers. -/
def softmax_layer (l : SoftmaxLayer) (cluster_idx compute_num : Nat) :
    Program (Access LayerWord) Unit where
  cores := compute_num + 1
  code := softmaxCode l cluster_idx compute_num
  member _ _ := true

end Softmax

/-! ## `maxpool_layer` -/

structure MaxpoolLayer where
  CI : Nat
  IW : Nat
  OH : Nat
  OW : Nat
  FH : Nat
  FW : Nat
  tile_ci : Nat

section Maxpool

open LayerWord

/-- `maxpool_fp64` on pointers to elements `base` and `base'`; `CI` is the caller's `tile_ci`.
The maximum so far is the core's own. -/
def maxpool_fp64 (base base' CI FH FW compute_num : Nat) : List (Instr (Access LayerWord) Unit) :=
  (List.range ((CI + compute_num - 1) / compute_num)).flatMap fun k =>
    let ci := k * compute_num
    [queued (load (ifmap (base + ci)))] ++
    (List.range FH).flatMap (fun fh => (List.range FW).flatMap fun fw =>
      [queued (load (ifmap (base + ((fh * FW + fw) * CI + ci)))), fence]) ++
    [queued (store (ofmap (base' + ci)))]

/-- The turns of the two loops of a cluster: its tiles, and the channel tiles of each. -/
def maxpoolTurns (l : MaxpoolLayer) (cluster_id cluster_num : Nat) : List (Nat × Nat) :=
  (List.range ((l.OH * l.OW + cluster_num - 1 - cluster_id) / cluster_num)).flatMap fun t =>
    (List.range ((l.CI + l.tile_ci - 1) / l.tile_ci)).map fun u =>
      (cluster_id + t * cluster_num, u * l.tile_ci)

/-- The transfer of the output tile of a turn, `buf` the buffer it lies in. -/
def maxpoolStore (l : MaxpoolLayer) (buf : Nat) (turn : Nat × Nat) : Access LayerWord :=
  let oh := turn.1 / l.OW
  let ow := turn.1 % l.OW
  ⟨(List.range l.tile_ci).map fun k => ofmap (buf * l.tile_ci + k),
    (List.range l.tile_ci).map fun k => l_ofmap ((oh * l.OW + ow) * l.CI + turn.2 + k)⟩

/-- The transfers of the input tile of a turn, one for each row of the filter.  The transfer for
`tile_ci == CI` moves the same words in one piece. -/
def maxpoolLoad (l : MaxpoolLayer) (buf : Nat) (turn : Nat × Nat) :
    List (Instr (Access LayerWord) Unit) :=
  let oh := turn.1 / l.OW
  let ow := turn.1 % l.OW
  (List.range l.FH).map fun fh => queued
    ⟨(List.range l.FW).flatMap fun r => (List.range l.tile_ci).map fun c =>
        l_ifmap (((oh * l.FH + fh) * l.IW + ow * l.FW) * l.CI + turn.2 + (r * l.CI + c)),
      (List.range l.FW).flatMap fun r => (List.range l.tile_ci).map fun c =>
        ifmap (buf * (l.FH * l.FW * l.tile_ci) + fh * l.FW * l.tile_ci + (r * l.tile_ci + c))⟩

/-- Both buffers are swapped after every turn. -/
def maxpoolCode (l : MaxpoolLayer) (cluster_id cluster_num compute_num core_idx : Nat) :
    List (Instr (Access LayerWord) Unit) :=
  let is_dm_core := core_idx = compute_num
  let compute_id := cluster_id * (compute_num + 1) + core_idx
  let turns := maxpoolTurns l cluster_id cluster_num
  let turn := fun r => (turns[r]?).getD (0, 0)
  (List.range turns.length).flatMap (fun r =>
    let buf := r % 2
    if is_dm_core then
      maxpoolLoad l buf (turn r) ++ [fence, barrier ()] ++
        (if r = 0 then [] else [queued (maxpoolStore l (1 - buf) (turn (r - 1)))]) ++ [fence]
    else
      [barrier ()] ++ maxpool_fp64 (buf * (l.FH * l.FW * l.tile_ci) + compute_id)
        (buf * l.tile_ci + compute_id) l.tile_ci l.FH l.FW compute_num) ++
  [barrier ()] ++
  if is_dm_core then
    [queued (maxpoolStore l (1 - turns.length % 2) (turn (turns.length - 1))), fence]
  else []

/-- `maxpool_layer` on one of the clusters. -/
def maxpool_layer (l : MaxpoolLayer) (cluster_id cluster_num compute_num : Nat) :
    Program (Access LayerWord) Unit where
  cores := compute_num + 1
  code := maxpoolCode l cluster_id cluster_num compute_num
  member _ _ := true

end Maxpool

/-! ## `kmeans_job` -/

inductive KmeansWord
  | samples (k : Nat) | centroids (k : Nat)
  | local_samples (cluster k : Nat) | local_centroids (cluster k : Nat)
  | partial_centroids (cluster core k : Nat)
  deriving DecidableEq, Repr

instance : Words KmeansWord where
  tcdm
    | .samples _ | .centroids _ => false
    | _ => true

/-- Who meets at a barrier: the cores of a cluster, the first cores of all clusters or their
data movers. -/
inductive KmeansGroup
  | cluster (cluster_idx : Nat) | firstCores | movers
  deriving DecidableEq, Repr

structure KmeansArgs where
  n_samples : Nat
  n_features : Nat
  n_clusters : Nat
  n_iter : Nat

section Kmeans

open KmeansWord KmeansGroup

/-- The stores to the membership counters and `membership` are the core's own, by its integer
part.  `assign` is the centroid a sample comes out nearest to. -/
def kmeans_iteration (cluster_idx cluster_num compute_core_num core_idx n_samples_per_core n_clusters
    n_features : Nat) (assign : Nat → Nat) (initial_centroids : Nat → KmeansWord) :
    List (Instr (Access KmeansWord) KmeansGroup) :=
  let is_compute_core := core_idx < compute_core_num
  let start_sample_idx := core_idx * n_samples_per_core
  let mine := fun k => partial_centroids cluster_idx core_idx k
  (if is_compute_core then
    -- assignment, with a branch on each distance
    [fence] ++
    (List.range n_samples_per_core).flatMap (fun sample => (List.range n_clusters).flatMap fun c =>
      (List.range n_features).map (fun f => queued
        ⟨[local_samples cluster_idx ((start_sample_idx + sample) * n_features + f),
          initial_centroids (c * n_features + f)], []⟩) ++ [fence]) ++
    -- update
    (List.range (n_clusters * n_features)).map (fun k => queued (store (mine k))) ++
    [fence] ++
    (List.range n_samples_per_core).flatMap (fun sample => (List.range n_features).flatMap fun f =>
      [queued (load (mine (assign (start_sample_idx + sample) * n_features + f))),
        queued (load (local_samples cluster_idx ((start_sample_idx + sample) * n_features + f))),
        queued arith,
        queued (store (mine (assign (start_sample_idx + sample) * n_features + f)))])
  else []) ++
  [barrier (cluster cluster_idx)] ++
  (if core_idx = 0 ∧ is_compute_core then
    (List.range (compute_core_num - 1)).flatMap (fun core =>
      (List.range (n_clusters * n_features)).flatMap fun k =>
        [queued (load (mine k)), queued (load (partial_centroids cluster_idx (core + 1) k)),
          queued arith, queued (store (mine k))]) ++
    [barrier firstCores] ++
    (if cluster_idx = 0 then
      (List.range (cluster_num - 1)).flatMap (fun remote =>
        (List.range (n_clusters * n_features)).flatMap fun k =>
          [queued (load (mine k)), queued (load (partial_centroids (remote + 1) 0 k)),
            queued arith, queued (store (mine k))]) ++
      (List.range (n_clusters * n_features)).flatMap fun k =>
        [queued (load (mine k)), queued arith, queued (store (mine k))]
    else [])
  else [])

def snrt_global_barrier (cluster_idx : Nat) (is_dm_core : Bool) :
    List (Instr (Access KmeansWord) KmeansGroup) :=
  [barrier (cluster cluster_idx)] ++ (if is_dm_core then [barrier movers] else []) ++
    [barrier (cluster cluster_idx)]

/-- `local_centroids` are the final centroids of the first core from the second iteration on. -/
def currentCentroids (cluster_idx iter_idx k : Nat) : KmeansWord :=
  if iter_idx = 0 then local_centroids cluster_idx k else partial_centroids 0 0 k

/-- The size of the centroids is scaled to bytes twice in the transfer to `local_centroids`. -/
def kmeansCode (args : KmeansArgs) (cluster_num compute_core_num : Nat)
    (assign : Nat → Nat → Nat → Nat) (i : Nat) : List (Instr (Access KmeansWord) KmeansGroup) :=
  let cluster_idx := i / (compute_core_num + 1)
  let core_idx := i % (compute_core_num + 1)
  let is_dm_core := core_idx = compute_core_num
  let n_samples_per_cluster := args.n_samples / cluster_num
  let n_samples_per_core := n_samples_per_cluster / compute_core_num
  let offset := cluster_idx * (n_samples_per_cluster * args.n_features)
  let size := args.n_clusters * args.n_features
  (if is_dm_core then
    [queued ⟨(List.range (n_samples_per_cluster * args.n_features)).map fun k => samples (offset + k),
        (List.range (n_samples_per_cluster * args.n_features)).map (local_samples cluster_idx)⟩,
      queued ⟨(List.range (size * 8)).map centroids,
        (List.range (size * 8)).map (local_centroids cluster_idx)⟩, fence]
  else []) ++
  [barrier (cluster cluster_idx)] ++
  (List.range args.n_iter).flatMap (fun iter_idx =>
    kmeans_iteration cluster_idx cluster_num compute_core_num core_idx n_samples_per_core
      args.n_clusters args.n_features (assign iter_idx cluster_idx)
      (currentCentroids cluster_idx iter_idx) ++
    snrt_global_barrier cluster_idx is_dm_core) ++
  if is_dm_core ∧ cluster_idx = 0 then
    [queued ⟨(List.range size).map (partial_centroids 0 0), (List.range size).map centroids⟩, fence]
  else []

/-- `kmeans_job` on all clusters, core `i` the core `i % (compute_core_num + 1)` of its cluster. -/
def kmeans_job (args : KmeansArgs) (cluster_num compute_core_num : Nat)
    (assign : Nat → Nat → Nat → Nat) : Program (Access KmeansWord) KmeansGroup where
  cores := cluster_num * (compute_core_num + 1)
  code := kmeansCode args cluster_num compute_core_num assign
  member
    | cluster c, i => i / (compute_core_num + 1) = c
    | firstCores, i => i % (compute_core_num + 1) = 0
    | movers, i => i % (compute_core_num + 1) = compute_core_num

end Kmeans

/-! ## The kernels publish what they store in time -/

section Runs

open Label

/-- Two cores and the data mover up to their second barrier, the unit of core 1 behind its store
if `behind`; then core 0 leaves it and loads the other's sum. -/
def dotRun (behind : Bool) : List Label :=
  [issue 2, issue 2, retire 2, retire 2, issue 2, issue 0, issue 1, issue 2] ++
  List.replicate 7 (issue 0) ++ List.replicate 8 (retire 0) ++ [issue 0, issue 0] ++
  List.replicate 7 (issue 1) ++ List.replicate 8 (retire 1) ++ [issue 1, issue 1] ++
  (if behind then [] else [retire 1, retire 1]) ++
  (if behind then [] else [retire 0, retire 0]) ++
  [issue 0, issue 0, issue 0] ++ (if behind then [retire 0, retire 0] else []) ++
  [retire 0, retire 0]

/-- Core 0 loads the sum of core 1, its instruction 9, as instruction 12. -/
def LoadsSum (s : State) : Prop :=
  (dotCode 8 2 0)[12]? = some (queued (load (.partial_sums 1))) ∧
    (dotCode 8 2 1)[9]? = some (queued (store (.partial_sums 1))) ∧
    s.executed 0 = 12 ∧ 12 < s.issued 0 ∧
    (dot 8 2).passed 1 () 9 < (dot 8 2).passed 0 () 12

instance (s : State) : Decidable (LoadsSum s) := by
  unfold LoadsSum
  infer_instance

theorem LoadsSum.finds {s : State} (loads : LoadsSum s) (published : Published (dot 8 2) s) :
    9 < s.executed 1 := by
  obtain ⟨reads, stores, here, issued, between⟩ := loads
  exact published 0 (by decide) 12 _ (.inr ⟨reads, here, issued⟩) _ List.mem_cons_self rfl 1
    (by decide) (by decide) 9 _ stores List.mem_cons_self
    (.meet () (by decide) (by decide) rfl rfl between)

end Runs

end SnitchCluster.Kernels.Publication
